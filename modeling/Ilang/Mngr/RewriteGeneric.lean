import Ilang.Ila.Node
import Ilang.Mngr.RewriteExpr

/-!
# Rewriting the expressions of a hierarchy

The rewriting passes give every valid, fetch, decode and update expression of a hierarchy to one function object, which
visits the shared nodes in post-order and remembers what each was rewritten to. A node is known by its pointer, and so
are the nodes that the pass compares; every node that is made has a pointer of its own.
-/

namespace Ilang

open Smt

/-! ### Hierarchies over nodes -/

structure NodeInstr where
  name : String
  decode : Option Node
  /-- The updates by state name. A stored update can be null. -/
  updates : List (String × Option Node)

structure NodeData where
  name : String
  valid : Option Node
  fetch : Option Node
  instrs : List NodeInstr

inductive NodeIla where
  | mk (data : NodeData) (childs : List NodeIla)

def NodeInstr.exprs (i : NodeInstr) : List Node := i.decode.toList ++ i.updates.filterMap Prod.snd

def NodeData.exprs (d : NodeData) : List Node :=
  d.valid.toList ++ d.fetch.toList ++ d.instrs.flatMap NodeInstr.exprs

namespace NodeIla

@[elab_as_elim]
theorem ind {P : NodeIla → Prop} (mk : ∀ d cs, (∀ c ∈ cs, P c) → P (.mk d cs)) : ∀ t, P t
  | .mk d cs => mk d cs fun c _ => ind mk c

mutual

/-- The expressions that a rewriting pass visits, in its order. -/
def exprs : NodeIla → List Node
  | .mk d cs => d.exprs ++ exprsList cs

def exprsList : List NodeIla → List Node
  | [] => []
  | c :: cs => exprs c ++ exprsList cs

end

theorem mem_exprsList {cs : List NodeIla} {e : Node} : e ∈ exprsList cs ↔ ∃ c ∈ cs, e ∈ c.exprs := by
  induction cs with
  | nil => simp [exprsList]
  | cons c cs ih => simp [exprsList, ih]

theorem forall_mem_exprs_mk {d : NodeData} {cs : List NodeIla} {P : Node → Prop} :
    (∀ e ∈ (mk d cs).exprs, P e) ↔ (∀ e ∈ d.exprs, P e) ∧ ∀ c ∈ cs, ∀ e ∈ c.exprs, P e := by
  simp only [exprs, List.mem_append, mem_exprsList, or_imp, forall_and, forall_exists_index, and_imp]
  exact and_congr_right fun _ => ⟨fun h c hc e he => h e c hc he, fun h e c hc he => h c hc e he⟩

end NodeIla

/-- Every instruction has a decode function, a Boolean one, and none of its updates is null, unless the pass skips those. -/
structure NodeInstr.Complete (skipsNull : Bool) (i : NodeInstr) : Prop where
  decode : ∃ e, i.decode = some e ∧ e.expr.sort = .bool
  updates : skipsNull = false → ∀ u ∈ i.updates, ∃ e, u.2 = some e

inductive NodeIla.Complete (skipsNull : Bool) : NodeIla → Prop
  | mk {d : NodeData} {cs : List NodeIla} : (∀ i ∈ d.instrs, i.Complete skipsNull) → (∀ c ∈ cs, Complete skipsNull c) →
    Complete skipsNull (.mk d cs)

section Related

variable (P : Node → Node → Prop)

structure NodeInstr.Related (i i' : NodeInstr) : Prop where
  name : i.name = i'.name
  decode : Option.Rel P i.decode i'.decode
  updates : List.Forall₂ (fun u u' => u.1 = u'.1 ∧ Option.Rel P u.2 u'.2) i.updates i'.updates

structure NodeData.Related (d d' : NodeData) : Prop where
  name : d.name = d'.name
  valid : Option.Rel P d.valid d'.valid
  fetch : Option.Rel P d.fetch d'.fetch
  instrs : List.Forall₂ (NodeInstr.Related P) d.instrs d'.instrs

/-- Two hierarchies with the same ILAs, instructions and updated states, whose expressions correspond. -/
inductive NodeIla.Related : NodeIla → NodeIla → Prop
  | mk {d d' : NodeData} {cs cs' : List NodeIla} : d.Related P d' → List.Forall₂ Related cs cs' →
    Related (.mk d cs) (.mk d' cs')

end Related

section Exprs

variable {P : Node → Node → Prop}

theorem forall₂_toList {o o' : Option Node} (h : Option.Rel P o o') : List.Forall₂ P o.toList o'.toList := by
  cases h with
  | some h => exact .cons h .nil
  | none => exact .nil

theorem NodeInstr.Related.forall₂ {i i' : NodeInstr} (h : i.Related P i') : List.Forall₂ P i.exprs i'.exprs := by
  obtain ⟨-, hdecode, hupdates⟩ := h
  refine List.rel_append (forall₂_toList hdecode) ?_
  generalize i.updates = us at hupdates
  generalize i'.updates = us' at hupdates
  induction hupdates with
  | nil => exact .nil
  | @cons u u' us us' hu _ ih =>
    obtain ⟨name, e⟩ := u
    obtain ⟨name', e'⟩ := u'
    cases hu.2 with
    | none => exact ih
    | some hP => exact .cons hP ih

theorem NodeData.Related.forall₂ {d d' : NodeData} (h : d.Related P d') : List.Forall₂ P d.exprs d'.exprs := by
  obtain ⟨-, hvalid, hfetch, hinstrs⟩ := h
  refine List.rel_append (List.rel_append (forall₂_toList hvalid) (forall₂_toList hfetch)) ?_
  generalize d.instrs = is at hinstrs
  generalize d'.instrs = is' at hinstrs
  induction hinstrs with
  | nil => exact .nil
  | cons hi _ ih => exact List.rel_append hi.forall₂ ih

theorem NodeIla.Related.forall₂ {t t' : NodeIla} (h : t.Related P t') : List.Forall₂ P t.exprs t'.exprs := by
  induction t using NodeIla.ind generalizing t' with
  | mk d cs ih =>
    cases h with
    | mk hd hcs =>
      rw [exprs, exprs]
      refine List.rel_append hd.forall₂ ?_
      induction hcs with
      | nil => exact .nil
      | @cons c c' cs cs' hc _ ihcs =>
        rw [exprsList, exprsList]
        exact List.rel_append (ih c List.mem_cons_self hc) (ihcs fun b hb => ih b (List.mem_cons_of_mem c hb))

end Exprs

/-! ### The pass template -/

/-- What a pass does with an expression. The outer `none` is a crash, the inner ones are null pointers. -/
abbrev Rewr (S : Type) := Option Node → S → Option (Option Node × S)

variable {S : Type}

/-- `ForceSetValid` and `ForceSetFetch` of what the pass returns, which must not be null. -/
def Rewr.force (f : Rewr S) (e : Option Node) (s : S) : Option (Option Node × S) :=
  match e with
  | none => some (none, s)
  | some e => (f (some e) s).bind fun r => r.1.map fun e' => (some e', r.2)

/-- `ForceAddUpdate` for each of the updates. -/
def Rewr.updates (f : Rewr S) : List (String × Option Node) → S → Option (List (String × Option Node) × S)
  | [], s => some ([], s)
  | u :: us, s => (f u.2 s).bind fun r => (updates f us r.2).map fun q => ((u.1, r.1) :: q.1, q.2)

/-- The loop body of `RewriteGeneric` over the instructions. `ForceSetDecode` checks the sort. -/
def Rewr.instr (f : Rewr S) (i : NodeInstr) (s : S) : Option (NodeInstr × S) :=
  i.decode.bind fun e => (f (some e) s).bind fun r => r.1.bind fun e' =>
    if e'.expr.sort = .bool then
      (f.updates i.updates r.2).map fun q => ({ i with decode := some e', updates := q.1 }, q.2)
    else none

def Rewr.instrs (f : Rewr S) : List NodeInstr → S → Option (List NodeInstr × S)
  | [], s => some ([], s)
  | i :: is, s => (f.instr i s).bind fun r => (instrs f is r.2).map fun q => (r.1 :: q.1, q.2)

def Rewr.data (f : Rewr S) (d : NodeData) (s : S) : Option (NodeData × S) :=
  (f.force d.valid s).bind fun v => (f.force d.fetch v.2).bind fun w => (f.instrs d.instrs w.2).map fun q =>
    ({ d with valid := v.1, fetch := w.1, instrs := q.1 }, q.2)

mutual

/-- `RewriteGeneric`. -/
def rewriteGeneric (f : Rewr S) : NodeIla → S → Option (NodeIla × S)
  | .mk d cs, s => (f.data d s).bind fun r => (rewriteGenericList f cs r.2).map fun q => (.mk r.1 q.1, q.2)

def rewriteGenericList (f : Rewr S) : List NodeIla → S → Option (List NodeIla × S)
  | [], s => some ([], s)
  | c :: cs, s => (rewriteGeneric f c s).bind fun r => (rewriteGenericList f cs r.2).map fun q => (r.1 :: q.1, q.2)

end

/-- A pass rewrites the expressions in `E`, keeping an invariant of its state and relating each to its image. -/
structure Rewr.Spec (f : Rewr S) (Inv : S → Prop) (E : Node → Prop) (P : Node → Node → Prop) : Prop where
  step : ∀ {e s}, E e → Inv s →
    ∃ e' s', f (some e) s = some (some e', s') ∧ Inv s' ∧ e'.expr.sort = e.expr.sort ∧ P e e'

namespace Rewr.Spec

variable {f : Rewr S} {Inv : S → Prop} {E : Node → Prop} {P : Node → Node → Prop} (hf : f.Spec Inv E P) {s : S}
  {skipsNull : Bool} (hskips : skipsNull = true → ∀ s, f none s = some (none, s))

include hf

theorem force {e : Option Node} (he : ∀ n ∈ e.toList, E n) (hs : Inv s) :
    ∃ e' s', f.force e s = some (e', s') ∧ Inv s' ∧ Option.Rel P e e' := by
  cases e with
  | none => exact ⟨none, s, rfl, hs, .none⟩
  | some e =>
    obtain ⟨e', s', hstep, hs', -, hP⟩ := hf.step (he e (by simp)) hs
    refine ⟨some e', s', ?_, hs', .some hP⟩
    rw [Rewr.force, hstep]
    rfl

include hskips

theorem updates {us : List (String × Option Node)} (hne : skipsNull = false → ∀ u ∈ us, ∃ e, u.2 = some e)
    (hE : ∀ e ∈ us.filterMap Prod.snd, E e) (hs : Inv s) :
    ∃ us' s', f.updates us s = some (us', s') ∧ Inv s' ∧
      List.Forall₂ (fun u u' => u.1 = u'.1 ∧ Option.Rel P u.2 u'.2) us us' := by
  induction us generalizing s with
  | nil => exact ⟨[], s, rfl, hs, .nil⟩
  | cons u us ih =>
    have hrest : skipsNull = false → ∀ u ∈ us, ∃ e, u.2 = some e := fun h u hu => hne h u (List.mem_cons_of_mem _ hu)
    match u with
    | (name, none) =>
      have hskip : skipsNull = true := by
        by_contra hno
        obtain ⟨e, he⟩ := hne (Bool.not_eq_true _ ▸ hno) _ List.mem_cons_self
        cases he
      obtain ⟨us', s', hus, hs', hrel⟩ := ih hrest hE hs
      refine ⟨(name, none) :: us', s', ?_, hs', .cons ⟨rfl, .none⟩ hrel⟩
      rw [Rewr.updates, hskips hskip s, Option.bind_some, hus]
      rfl
    | (name, some e) =>
      change ∀ x ∈ e :: us.filterMap Prod.snd, E x at hE
      rw [List.forall_mem_cons] at hE
      obtain ⟨e', s₁, hstep, hs₁, -, hP⟩ := hf.step hE.1 hs
      obtain ⟨us', s', hus, hs', hrel⟩ := ih hrest hE.2 hs₁
      refine ⟨(name, some e') :: us', s', ?_, hs', .cons ⟨rfl, .some hP⟩ hrel⟩
      rw [Rewr.updates, hstep, Option.bind_some, hus]
      rfl

theorem instr {i : NodeInstr} (hi : i.Complete skipsNull) (hE : ∀ e ∈ i.exprs, E e) (hs : Inv s) :
    ∃ i' s', f.instr i s = some (i', s') ∧ Inv s' ∧ i.Related P i' := by
  obtain ⟨e, he, hbool⟩ := hi.decode
  simp only [NodeInstr.exprs, he, List.mem_append, or_imp, forall_and] at hE
  obtain ⟨e', s₁, hstep, hs₁, hsort, hP⟩ := hf.step (hE.1 e (by simp)) hs
  obtain ⟨us', s', hus, hs', hrel⟩ := hf.updates hskips hi.updates hE.2 hs₁
  refine ⟨{ i with decode := some e', updates := us' }, s', ?_, hs', rfl, ?_, hrel⟩
  · rw [Rewr.instr, he, Option.bind_some, hstep, Option.bind_some, Option.bind_some, if_pos (hsort.trans hbool), hus]
    rfl
  · rw [he]
    exact .some hP

theorem instrs {is : List NodeInstr} (hi : ∀ i ∈ is, i.Complete skipsNull) (hE : ∀ e ∈ is.flatMap NodeInstr.exprs, E e)
    (hs : Inv s) : ∃ is' s', f.instrs is s = some (is', s') ∧ Inv s' ∧ List.Forall₂ (NodeInstr.Related P) is is' := by
  induction is generalizing s with
  | nil => exact ⟨[], s, rfl, hs, .nil⟩
  | cons i is ih =>
    simp only [List.flatMap_cons, List.mem_append, or_imp, forall_and] at hE
    obtain ⟨i', s₁, hstep, hs₁, hrel⟩ := hf.instr hskips (hi i List.mem_cons_self) hE.1 hs
    obtain ⟨is', s', his, hs', hrels⟩ := ih (fun j hj => hi j (List.mem_cons_of_mem i hj)) hE.2 hs₁
    refine ⟨i' :: is', s', ?_, hs', .cons hrel hrels⟩
    rw [Rewr.instrs, hstep, Option.bind_some, his]
    rfl

theorem data {d : NodeData} (hd : ∀ i ∈ d.instrs, i.Complete skipsNull) (hE : ∀ e ∈ d.exprs, E e) (hs : Inv s) :
    ∃ d' s', f.data d s = some (d', s') ∧ Inv s' ∧ d.Related P d' := by
  simp only [NodeData.exprs, List.mem_append, or_imp, forall_and] at hE
  obtain ⟨v, s₁, hv, hs₁, hvalid⟩ := hf.force hE.1.1 hs
  obtain ⟨w, s₂, hw, hs₂, hfetch⟩ := hf.force hE.1.2 hs₁
  obtain ⟨is, s', his, hs', hinstrs⟩ := hf.instrs hskips hd hE.2 hs₂
  refine ⟨{ d with valid := v, fetch := w, instrs := is }, s', ?_, hs', rfl, hvalid, hfetch, hinstrs⟩
  rw [Rewr.data, hv, Option.bind_some, hw, Option.bind_some, his]
  rfl

omit hf hskips in
theorem generic_list {cs : List NodeIla}
    (ih : ∀ c ∈ cs, ∀ s, Inv s → ∃ c' s', rewriteGeneric f c s = some (c', s') ∧ Inv s' ∧ c.Related P c') (hs : Inv s) :
    ∃ cs' s', rewriteGenericList f cs s = some (cs', s') ∧ Inv s' ∧ List.Forall₂ (NodeIla.Related P) cs cs' := by
  induction cs generalizing s with
  | nil => exact ⟨[], s, by rw [rewriteGenericList], hs, .nil⟩
  | cons c cs ihcs =>
    obtain ⟨c', s₁, hc, hs₁, hrel⟩ := ih c List.mem_cons_self s hs
    obtain ⟨cs', s', hcs, hs', hrels⟩ := ihcs (fun d hd => ih d (List.mem_cons_of_mem c hd)) hs₁
    refine ⟨c' :: cs', s', ?_, hs', .cons hrel hrels⟩
    rw [rewriteGenericList, hc, Option.bind_some, hcs]
    rfl

theorem generic {t : NodeIla} (ht : t.Complete skipsNull) (hE : ∀ e ∈ t.exprs, E e) (hs : Inv s) :
    ∃ t' s', rewriteGeneric f t s = some (t', s') ∧ Inv s' ∧ t.Related P t' := by
  induction t using NodeIla.ind generalizing s with
  | mk d cs ih =>
    obtain ⟨hd, hcs⟩ := ht
    obtain ⟨hdE, hcsE⟩ := NodeIla.forall_mem_exprs_mk.mp hE
    obtain ⟨d', s₁, hdata, hs₁, hrel⟩ := hf.data hskips hd hdE hs
    obtain ⟨cs', s', hlist, hs', hrels⟩ :=
      generic_list (fun c hc s hs => ih c hc (hcs c hc) (hcsE c hc) hs) hs₁
    refine ⟨.mk d' cs', s', ?_, hs', .mk hrel hrels⟩
    rw [rewriteGeneric, hdata, Option.bind_some, hlist]
    rfl

end Rewr.Spec

/-! ### Making nodes -/

/-- `asthub::Eq` with the constant one. -/
def Node.eqOne (e : Node) (next : Nat) : Option (Node × Nat) :=
  match e.expr.sort with
  | .bool => some (.app (next + 1) (.op .eq) [e, .leaf next (.const (.bool true))], next + 2)
  | .bv w => if 0 < w then some (.app (next + 1) (.op .eq) [e, .leaf next (.const (.bv 1 w))], next + 2) else none
  | .mem _ _ => none

/-- `asthub::And`, `Or` and `Xor`, which mend a bit-vector of width one beside a Boolean. -/
def Node.mixed (o : ExprOp) (l r : Node) (next : Nat) : Option (Node × Nat) :=
  if l.expr.sort = r.expr.sort then some (.app next (.op o) [l, r], next + 1)
  else if l.expr.sort = .bv 1 ∧ r.expr.sort = .bool then
    (l.eqOne next).map fun l' => (.app l'.2 (.op o) [l'.1, r], l'.2 + 1)
  else (r.eqOne next).bind fun r' =>
    if l.expr.sort = .bool then some (.app r'.2 (.op o) [l, r'.1], r'.2 + 1)
    else if l.expr.sort = .bv 1 then (l.eqOne r'.2).map fun l' => (.app l'.2 (.op o) [l'.1, r'.1], l'.2 + 1)
    else none

/-- A Boolean operand of `asthub::Concat` becomes a bit. -/
def Node.toBit (e : Node) (next : Nat) : Node × Nat :=
  if e.expr.sort = .bool then
    (.app (next + 2) (.op .ite) [e, .leaf next (.const (.bv 1 1)), .leaf (next + 1) (.const (.bv 0 1))], next + 3)
  else (e, next)

/-- The `asthub` function that `RewriteOp` calls for an operation. -/
def Node.build : ExprOp → List Node → Nat → Option (Node × Nat)
  | .and, [l, r], next => mixed .and l r next
  | .or, [l, r], next => mixed .or l r next
  | .xor, [l, r], next => mixed .xor l r next
  | .concat, [hi, lo], next =>
    let hi' := hi.toBit next
    let lo' := lo.toBit hi'.2
    some (.app lo'.2 (.op .concat) [hi'.1, lo'.1], lo'.2 + 1)
  | o, args, next => some (.app next (.op o) args, next + 1)

theorem Node.build_of_check {o : ExprOp} {args : List Node} {s : Srt} (h : (Expr.op o (exprList args)).check = some s)
    (next : Nat) : build o args next = some (.app next (.op o) args, next + 1) := by
  have hmixed : ∀ {o : ExprOp} {l r : Node}, o = .and ∨ o = .or ∨ o = .xor →
      (Expr.op o [l.expr, r.expr]).check = some s → mixed o l r next = some (.app next (.op o) [l, r], next + 1) := by
    intro o l r ho hcheck
    rw [mixed, if_pos (sort_eq_of_check ho hcheck)]
  unfold build
  split
  · exact hmixed (.inl rfl) h
  · exact hmixed (.inr (.inl rfl)) h
  · exact hmixed (.inr (.inr rfl)) h
  · obtain ⟨hhi, hlo⟩ := bv_of_check_concat h
    have hbit : ∀ {e : Node} {k : Nat}, e.expr.sort ≠ .bool → e.toBit k = (e, k) := fun he => if_neg he
    simp only [hbit hhi, hbit hlo]
  · rfl

/-! ### The function object -/

/-- The table of a `FuncObjRewrExpr`, by pointer, and the next pointer that is free. -/
structure RewrExpr where
  next : Nat
  rule : Nat → Option (Option Node)

/-- An implementation of the virtual function `RewriteOp`, given the table. -/
abbrev RewriteOp := (Node → Option (Option Node)) → Node → Nat → Option (Option Node × Nat)

/-- `FuncObjRewrExpr::RewriteOp`. Building a node on a null argument dereferences it; only operations get here. -/
def rewriteOpBase : RewriteOp := fun get e next =>
  match e with
  | .leaf _ _ => none
  | .app _ (.op .srem) _ => some (none, next)
  | .app _ (.op .smod) _ => some (none, next)
  | .app _ (.op o) args =>
    ((args.mapM get).bind fun as => as.mapM id).bind fun as => (Node.build o as next).map fun r => (some r.1, r.2)
  | .app _ (.appFunc f) args =>
    ((args.mapM get).bind fun as => as.mapM id).map fun as => (some (.app next (.appFunc f) as), next + 1)

namespace RewrExpr

def init (next : Nat) : RewrExpr := ⟨next, fun _ => none⟩

def get (s : RewrExpr) (e : Node) : Option (Option Node) := s.rule e.ptr

/-- `post`, given what the node is rewritten to. -/
def emplace (s : RewrExpr) (p : Nat) (r : Option Node × Nat) : RewrExpr :=
  ⟨r.2, if (s.rule p).isSome then s.rule else Function.update s.rule p (some r.1)⟩

variable (R : RewriteOp)

mutual

/-- `DepthFirstVisitPrePost` with `pre` and `post`. A variable or a constant is rewritten to itself. -/
def visit : Node → RewrExpr → Option RewrExpr
  | .leaf p l, s =>
    if (s.rule p).isSome then some s else some (s.emplace p (some (.leaf p l), s.next))
  | .app p h args, s =>
    if (s.rule p).isSome then some s
    else (visitList args s).bind fun s' => (R s'.get (.app p h args) s'.next).map (s'.emplace p)

def visitList : List Node → RewrExpr → Option RewrExpr
  | [], s => some s
  | a :: as, s => (visit a s).bind (visitList as)

end

/-- The visit of an expression, and the answer of the table for it. -/
def rewr (e : Node) (s : RewrExpr) : Option (Option Node × RewrExpr) :=
  (visit R e s).bind fun s' => (s'.get e).map fun r => (r, s')

end RewrExpr

/-! ### Closed nodes -/

theorem Node.noSignedRem_arg {p : Nat} {h : Head} {args : List Node} (hrem : (Node.app p h args).expr.noSignedRem = true)
    {a : Node} (ha : a ∈ args) : a.expr.noSignedRem = true := by
  have hargs : Expr.noSignedRemList (exprList args) = true := by
    cases h with
    | op o =>
      simp only [expr, Expr.noSignedRem, Bool.and_eq_true] at hrem
      exact hrem.2
    | appFunc f => exact hrem
  rw [exprList_eq_map] at hargs
  exact noSignedRemList_iff.mp hargs _ (List.mem_map_of_mem ha)

/-- A node whose parts are in the heap, below the next pointer that is free. -/
structure Node.Closed (heap : Nat → Node) (next : Nat) (n : Node) : Prop where
  inHeap : n.InHeap heap
  lt : ∀ m ∈ n.subs, m.ptr < next

/-- A later heap: what was there stays. -/
structure Allocates (heap heap' : Nat → Node) (next next' : Nat) : Prop where
  le : next ≤ next'
  eq : ∀ p < next, heap' p = heap p

theorem Allocates.refl (heap : Nat → Node) (next : Nat) : Allocates heap heap next next := ⟨Nat.le_refl next, fun _ _ => rfl⟩

theorem Allocates.trans {heap heap' heap'' : Nat → Node} {next next' next'' : Nat} (h : Allocates heap heap' next next')
    (h' : Allocates heap' heap'' next' next'') : Allocates heap heap'' next next'' :=
  ⟨Nat.le_trans h.le h'.le, fun p hp => by rw [h'.eq p (Nat.lt_of_lt_of_le hp h.le), h.eq p hp]⟩

namespace Node

theorem Closed.mono {heap heap' : Nat → Node} {next next' : Nat} {n : Node} (hn : n.Closed heap next)
    (h : Allocates heap heap' next next') : n.Closed heap' next' where
  inHeap m hm := by rw [h.eq _ (hn.lt m hm), hn.inHeap m hm]
  lt m hm := Nat.lt_of_lt_of_le (hn.lt m hm) h.le

theorem Closed.sub {heap : Nat → Node} {next : Nat} {n m : Node} (hn : n.Closed heap next) (hm : m ∈ n.subs) :
    m.Closed heap next :=
  ⟨hn.inHeap.sub hm, fun k hk => hn.lt k (subs_trans hm hk)⟩

theorem Closed.arg {heap : Nat → Node} {next p : Nat} {h : Head} {args : List Node}
    (hn : (Node.app p h args).Closed heap next) {a : Node} (ha : a ∈ args) : a.Closed heap next :=
  hn.sub (arg_mem_subs ha)

theorem Closed.lt_self {heap : Nat → Node} {next : Nat} {n : Node} (hn : n.Closed heap next) : n.ptr < next :=
  hn.lt n n.mem_subs_self

theorem Closed.heap_self {heap : Nat → Node} {next : Nat} {n : Node} (hn : n.Closed heap next) : heap n.ptr = n :=
  hn.inHeap n n.mem_subs_self

theorem Closed.eq_of_ptr {heap : Nat → Node} {next : Nat} {n m : Node} (hn : n.Closed heap next)
    (hm : m.Closed heap next) (h : n.ptr = m.ptr) : n = m := by
  rw [← hn.heap_self, h, hm.heap_self]

theorem closed_app {heap : Nat → Node} {next : Nat} {args : List Node} (hargs : ∀ a ∈ args, a.Closed heap next)
    (h : Head) :
    Allocates heap (Function.update heap next (.app next h args)) next (next + 1) ∧
      (Node.app next h args).Closed (Function.update heap next (.app next h args)) (next + 1) := by
  have hext : Allocates heap (Function.update heap next (.app next h args)) next (next + 1) :=
    ⟨Nat.le_succ next, fun p hp => Function.update_of_ne (Nat.ne_of_lt hp) _ _⟩
  refine ⟨hext, ?_, ?_⟩
  · intro m hm
    rcases mem_subs_app.mp hm with rfl | ⟨a, ha, hma⟩
    · rw [ptr, Function.update_self]
    · exact ((hargs a ha).mono hext).inHeap m hma
  · intro m hm
    rcases mem_subs_app.mp hm with rfl | ⟨a, ha, hma⟩
    · exact Nat.lt_succ_self next
    · exact ((hargs a ha).mono hext).lt m hma

end Node

/-! ### What a function object does to a graph -/

/-- An argument and its entry in the table. -/
structure Entry (get : Node → Option (Option Node)) (heap : Nat → Node) (next : Nat) (Img : Node → Node → Prop)
    (a a' : Node) : Prop where
  get_eq : get a = some (some a')
  closed : a'.Closed heap next
  img : Img a a'

/-- A `RewriteOp` makes images of the well-sorted operations it handles from images of their arguments. The pointers
from `base` on were not in use before the pass. -/
structure RewriteOp.Spec (R : RewriteOp) (base : Nat) (Img : Node → Node → Prop) : Prop where
  leaf : ∀ p l, Img (.leaf p l) (.leaf p l)
  app : ∀ {heap next get p h args args' s}, base ≤ next → (Node.app p h args).expr.check = some s →
    (Node.app p h args).expr.noSignedRem = true → List.Forall₂ (Entry get heap next Img) args args' →
    ∃ n' next' heap', R get (.app p h args) next = some (some n', next') ∧ Allocates heap heap' next next' ∧
      n'.Closed heap' next' ∧ Img (.app p h args) n'

theorem mapM_get {get : Node → Option (Option Node)} {heap : Nat → Node} {next : Nat} {Img : Node → Node → Prop}
    {args args' : List Node} (h : List.Forall₂ (Entry get heap next Img) args args') :
    ((args.mapM get).bind fun as => as.mapM id) = some args' := by
  have hget : args.mapM get = some (args'.map some) := by
    induction h with
    | nil => rfl
    | cons hentry _ ih => rw [List.mapM_cons, hentry.get_eq, ih]; rfl
  rw [hget, Option.bind_some, MapM.id_map_some_self]

theorem rewriteOpBase_eq {get : Node → Option (Option Node)} {heap : Nat → Node} {next p : Nat}
    {Img : Node → Node → Prop} {h : Head} {args args' : List Node} {s : Srt}
    (hrem : (Node.app p h args).expr.noSignedRem = true) (hentries : List.Forall₂ (Entry get heap next Img) args args')
    (hcheck : (Node.app next h args').expr.check = some s) :
    rewriteOpBase get (.app p h args) next = some (some (.app next h args'), next + 1) := by
  cases h with
  | op o =>
    simp only [Node.expr, Expr.noSignedRem, Bool.and_eq_true, bne_iff_ne] at hrem
    unfold rewriteOpBase
    split
    · rename_i heq
      cases heq
    · rename_i heq
      cases heq
      exact absurd rfl hrem.1.1
    · rename_i heq
      cases heq
      exact absurd rfl hrem.1.2
    · rename_i heq
      cases heq
      rw [mapM_get hentries, Option.bind_some, Node.build_of_check hcheck, Option.map_some]
    · rename_i heq
      cases heq
  | appFunc f =>
    change (((args.mapM get).bind fun as => as.mapM id).map fun as =>
      (some (Node.app next (.appFunc f) as), next + 1)) = _
    rw [mapM_get hentries, Option.map_some]

namespace RewrExpr

/-- The table holds images of nodes of the heap. -/
structure Inv (base : Nat) (Img : Node → Node → Prop) (heap : Nat → Node) (s : RewrExpr) : Prop where
  base_le : base ≤ s.next
  rule : ∀ p d, s.rule p = some d → p < s.next ∧ ∃ n', d = some n' ∧ n'.Closed heap s.next ∧ Img (heap p) n'

/-- From one state of the pass to a later one. -/
structure After (base : Nat) (Img : Node → Node → Prop) (heap heap' : Nat → Node) (s s' : RewrExpr) : Prop where
  inv : s'.Inv base Img heap'
  ext : Allocates heap heap' s.next s'.next
  keep : ∀ p d, s.rule p = some d → s'.rule p = some d

variable {base : Nat} {Img : Node → Node → Prop} {heap : Nat → Node} {s : RewrExpr}

theorem inv_init (next : Nat) (Img : Node → Node → Prop) (heap : Nat → Node) : (init next).Inv next Img heap :=
  ⟨Nat.le_refl next, fun p d h => by simp [init] at h⟩

theorem After.refl (h : s.Inv base Img heap) : After base Img heap heap s s :=
  ⟨h, .refl heap s.next, fun _ _ h => h⟩

theorem After.trans {heap' heap'' : Nat → Node} {s' s'' : RewrExpr} (h : After base Img heap heap' s s')
    (h' : After base Img heap' heap'' s' s'') : After base Img heap heap'' s s'' :=
  ⟨h'.inv, h.ext.trans h'.ext, fun p d hp => h'.keep p d (h.keep p d hp)⟩

theorem Inv.entry (h : s.Inv base Img heap) {n : Node} (hn : heap n.ptr = n) (hrule : (s.rule n.ptr).isSome) :
    ∃ n', Entry s.get heap s.next Img n n' := by
  obtain ⟨d, hd⟩ := Option.isSome_iff_exists.mp hrule
  obtain ⟨-, n', rfl, hclosed, himg⟩ := h.rule n.ptr d hd
  rw [hn] at himg
  exact ⟨n', hd, hclosed, himg⟩

theorem Entry.after {heap' : Nat → Node} {s' : RewrExpr} {n n' : Node} (h : Entry s.get heap s.next Img n n')
    (hafter : After base Img heap heap' s s') : Entry s'.get heap' s'.next Img n n' :=
  ⟨hafter.keep _ _ h.get_eq, h.closed.mono hafter.ext, h.img⟩

theorem Inv.next (h : s.Inv base Img heap) {heap' : Nat → Node} {next' : Nat} (hext : Allocates heap heap' s.next next') :
    After base Img heap heap' s ⟨next', s.rule⟩ := by
  refine ⟨⟨Nat.le_trans h.base_le hext.le, fun p d hd => ?_⟩, hext, fun _ _ hd => hd⟩
  obtain ⟨hlt, m, rfl, hm, hmimg⟩ := h.rule p d hd
  refine ⟨Nat.lt_of_lt_of_le hlt hext.le, m, rfl, hm.mono hext, ?_⟩
  rw [hext.eq p hlt]
  exact hmimg

theorem Inv.emplace (h : s.Inv base Img heap) {n n' : Node} {heap' : Nat → Node} {next' : Nat} (hn : n.Closed heap s.next)
    (hext : Allocates heap heap' s.next next') (hclosed : n'.Closed heap' next') (himg : Img n n') :
    ∃ n'', After base Img heap heap' s (s.emplace n.ptr (some n', next')) ∧
      Entry (s.emplace n.ptr (some n', next')).get heap' next' Img n n'' := by
  have hheap : heap' n.ptr = n := by rw [hext.eq _ hn.lt_self, hn.heap_self]
  have hafter := h.next hext
  by_cases hrule : (s.rule n.ptr).isSome
  · have heq : s.emplace n.ptr (some n', next') = ⟨next', s.rule⟩ := by rw [RewrExpr.emplace, if_pos hrule]
    obtain ⟨n'', hentry⟩ := hafter.inv.entry hheap hrule
    rw [heq]
    exact ⟨n'', hafter, hentry⟩
  · have heq : s.emplace n.ptr (some n', next') = ⟨next', Function.update s.rule n.ptr (some (some n'))⟩ := by
      rw [RewrExpr.emplace, if_neg hrule]
    rw [heq]
    refine ⟨n', ⟨⟨hafter.inv.base_le, fun p d hd => ?_⟩, hext, fun p d hd => ?_⟩, ?_, hclosed, himg⟩
    · by_cases hp : p = n.ptr
      · subst hp
        obtain rfl : some n' = d := by simpa using hd
        refine ⟨Nat.lt_of_lt_of_le hn.lt_self hext.le, n', rfl, hclosed, ?_⟩
        rw [hheap]
        exact himg
      · exact hafter.inv.rule p d (by simpa [Function.update_of_ne hp] using hd)
    · have hp : p ≠ n.ptr := by
        rintro rfl
        simp [hd] at hrule
      exact (Function.update_of_ne hp _ _).trans hd
    · exact Function.update_self _ _ _

variable {R : RewriteOp}

theorem visitList_spec {args : List Node}
    (ih : ∀ a ∈ args, ∀ {heap : Nat → Node} {s : RewrExpr}, a.Closed heap s.next → s.Inv base Img heap →
      ∃ heap' s' a', visit R a s = some s' ∧ After base Img heap heap' s s' ∧ Entry s'.get heap' s'.next Img a a')
    (hclosed : ∀ a ∈ args, a.Closed heap s.next) (hs : s.Inv base Img heap) :
    ∃ heap' s' args', visitList R args s = some s' ∧ After base Img heap heap' s s' ∧
      List.Forall₂ (Entry s'.get heap' s'.next Img) args args' := by
  induction args generalizing heap s with
  | nil => exact ⟨heap, s, [], by rw [visitList], .refl hs, .nil⟩
  | cons a as ihas =>
    obtain ⟨heap₁, s₁, a', hvisit, hafter, hentry⟩ := ih a List.mem_cons_self (hclosed a List.mem_cons_self) hs
    have hclosed' : ∀ b ∈ as, b.Closed heap₁ s₁.next :=
      fun b hb => (hclosed b (List.mem_cons_of_mem a hb)).mono hafter.ext
    obtain ⟨heap', s', as', hlist, hafter', hentries⟩ :=
      ihas (fun b hb => ih b (List.mem_cons_of_mem a hb)) hclosed' hafter.inv
    refine ⟨heap', s', a' :: as', ?_, hafter.trans hafter', .cons (Entry.after hentry hafter') hentries⟩
    rw [visitList, hvisit, Option.bind_some, hlist]

theorem visit_spec (hR : R.Spec base Img) {n : Node} {t : Srt} (hcheck : n.expr.check = some t)
    (hrem : n.expr.noSignedRem = true) (hclosed : n.Closed heap s.next) (hs : s.Inv base Img heap) :
    ∃ heap' s' n', visit R n s = some s' ∧ After base Img heap heap' s s' ∧ Entry s'.get heap' s'.next Img n n' := by
  induction n using Node.ind generalizing heap s t with
  | leaf p l =>
    by_cases hrule : (s.rule p).isSome
    · obtain ⟨n', hentry⟩ := hs.entry hclosed.heap_self hrule
      exact ⟨heap, s, n', by rw [visit, if_pos hrule], .refl hs, hentry⟩
    · obtain ⟨n', hafter, hentry⟩ := hs.emplace hclosed (.refl heap s.next) hclosed (hR.leaf p l)
      exact ⟨heap, _, n', by rw [visit, if_neg hrule]; rfl, hafter, hentry⟩
  | app p h args ih =>
    by_cases hrule : (s.rule p).isSome
    · obtain ⟨n', hentry⟩ := hs.entry hclosed.heap_self hrule
      exact ⟨heap, s, n', by rw [visit, if_pos hrule], .refl hs, hentry⟩
    · obtain ⟨ss, hss⟩ := Node.check_app hcheck
      have hrems : ∀ a ∈ args, a.expr.noSignedRem = true := fun a ha => Node.noSignedRem_arg hrem ha
      obtain ⟨heap₁, s₁, args', hlist, hafter, hentries⟩ := visitList_spec
        (fun a ha _ _ hcl hinv => (Node.checkList_of_mem hss ha).elim fun u hu => ih a ha hu (hrems a ha) hcl hinv)
        (fun a ha => hclosed.arg ha) hs
      obtain ⟨n', next', heap', hop, hext, hn', himg⟩ := hR.app hafter.inv.base_le hcheck hrem hentries
      obtain ⟨n'', hafter', hentry⟩ := hafter.inv.emplace (hclosed.mono hafter.ext) hext hn' himg
      refine ⟨heap', _, n'', ?_, hafter.trans hafter', hentry⟩
      rw [visit, if_neg hrule, hlist, Option.bind_some, hop]
      rfl

/-- The invariant of a pass over the expressions in `E`, which are all in the heap. -/
def PassInv (base : Nat) (Img : Node → Node → Prop) (E : Node → Prop) (s : RewrExpr) : Prop :=
  ∃ heap, s.Inv base Img heap ∧ ∀ e, E e → e.Closed heap s.next

theorem rewr_spec (hR : R.Spec base Img) {E : Node → Prop} (hcheck : ∀ e, E e → ∃ t, e.expr.check = some t)
    (hrem : ∀ e, E e → e.expr.noSignedRem = true) {e : Node} (he : E e) (hs : PassInv base Img E s) :
    ∃ e' s', rewr R e s = some (some e', s') ∧ PassInv base Img E s' ∧ Img e e' := by
  obtain ⟨heap, hinv, hclosed⟩ := hs
  obtain ⟨t, ht⟩ := hcheck e he
  obtain ⟨heap', s', e', hvisit, hafter, hentry⟩ := visit_spec hR ht (hrem e he) (hclosed e he) hinv
  refine ⟨e', s', ?_, ⟨heap', hafter.inv, fun d hd => (hclosed d hd).mono hafter.ext⟩, hentry.img⟩
  rw [rewr, hvisit, Option.bind_some, hentry.get_eq, Option.map_some]

end RewrExpr

/-- A hierarchy as a pass finds it. Its expressions are in one heap, well-sorted and built from the operations that the
rewriter handles, and the instructions have the functions that the passes insist on. -/
structure NodeIla.Legal (skipsNull : Bool) (heap : Nat → Node) (next : Nat) (t : NodeIla) : Prop where
  complete : t.Complete skipsNull
  closed : ∀ e ∈ t.exprs, e.Closed heap next
  check : ∀ e ∈ t.exprs, ∃ s, e.expr.check = some s
  noSignedRem : ∀ e ∈ t.exprs, e.expr.noSignedRem = true

theorem NodeIla.Legal.pass {skipsNull : Bool} {heap : Nat → Node} {next : Nat} {t : NodeIla} (ht : t.Legal skipsNull heap next) {R : RewriteOp}
    {Img P : Node → Node → Prop} (hR : R.Spec next Img)
    (hsort : ∀ {e e' s}, Img e e' → e.expr.check = some s → e'.expr.check = some s) (hP : ∀ {e e'}, Img e e' → P e e')
    {f : Rewr RewrExpr} (hf : ∀ e s, f (some e) s = RewrExpr.rewr R e s)
    (hskips : skipsNull = true → ∀ s, f none s = some (none, s)) :
    ∃ t' s', rewriteGeneric f t (.init next) = some (t', s') ∧ t.Related P t' := by
  have hspec : f.Spec (RewrExpr.PassInv next Img (· ∈ t.exprs)) (· ∈ t.exprs) P := by
    constructor
    intro e s he hs
    obtain ⟨e', s', hrewr, hs', himg⟩ := RewrExpr.rewr_spec hR ht.check ht.noSignedRem he hs
    obtain ⟨u, hu⟩ := ht.check e he
    refine ⟨e', s', (hf e s).trans hrewr, hs', ?_, hP himg⟩
    rw [Expr.sort_of_check hu, Expr.sort_of_check (hsort himg hu)]
  obtain ⟨t', s', hrun, -, hrel⟩ := hspec.generic hskips ht.complete (fun _ he => he)
    ⟨heap, RewrExpr.inv_init next Img heap, ht.closed⟩
  exact ⟨t', s', hrun, hrel⟩

end Ilang
