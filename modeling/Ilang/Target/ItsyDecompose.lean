import Ilang.Ila.HashAst
import Ilang.Ila.Node
import Ilang.Mngr.SanityCheck

/-!
# Splitting next-state functions

`SynthAbsConverter::PortInstructions` makes an instruction of every decode function of a synthesized abstraction, and gives it a part
of each next-state function. `DecomposeExpr` looks at every ITE of the function in the order of `DepthFirstVisit`: one whose condition
is a decode function gives its then branch to this decode function, and a decode function that has got nothing is given the last of
the else branches that is no such ITE itself.

Sets of nodes are ordered by hash, so an order of theirs is a parameter here. `ExprMngr` points the arguments in the conditions it
compares to their representatives, which changes what they point to and not what they are; this is left out.
-/

namespace Ilang

open Smt HashCons

namespace SynthAbs

/-! ### Conditions that are decode functions -/

mutual

/-- `asthub::TopEq`. -/
def topEq : Node → Node → Bool
  | .leaf p (.var _), .leaf q (.var _) => p == q
  | .leaf p (.const c), .leaf q (.const d) => c == d && (!(Label.leaf (.const c)).ident || p == q)
  | .app _ (.op o) as, .app _ (.op o') bs => o == o' && topEqList as bs
  | .app _ (.appFunc f) as, .app _ (.appFunc g) bs => f == g && topEqList as bs
  | _, _ => false

def topEqList : List Node → List Node → Bool
  | [], [] => true
  | a :: as, b :: bs => topEq a b && topEqList as bs
  | _, _ => false

end

/-! ### Decomposition -/

/-- `decom_match_` by the entries, and the addresses in `decom_glue_`. -/
structure Decom where
  matched : Nat → Option Node
  glue : List Nat
  elses : List Node

def Decom.empty : Decom := ⟨fun _ => none, [], []⟩

/-- `std::map::emplace`. -/
def emplace (m : Nat → Option Node) (p : Nat) (n : Node) : Nat → Option Node := fun q => if q = p then some ((m q).getD n) else m q

/-- `Compare` in `DecomposeExpr`. -/
def compare (entries : List Node) (n : Node) (s : Decom) : Decom :=
  match n with
  | .app p (.op .ite) [c, a, b] =>
    match entries.find? (topEq c) with
    | some entry => ⟨emplace s.matched entry.ptr a, p :: s.glue, b :: s.elses⟩
    | none => s
  | _ => s

mutual

/-- `DepthFirstVisit`. -/
def visit {σ : Type} (f : Node → σ → σ) : Node → σ → σ
  | .leaf p l, s => f (.leaf p l) s
  | .app p h args, s => f (.app p h args) (visitList f args s)

def visitList {σ : Type} (f : Node → σ → σ) : List Node → σ → σ
  | [], s => s
  | a :: as, s => visitList f as (visit f a s)

end

/-- What is taken for the entries that no ITE is about: the function itself if it is not split at all. -/
def defaultSubExpr (glue : List Nat) (elses : List Node) (src : Node) : Node :=
  elses.foldl (fun d e => if e.ptr ∈ glue then d else e) src

/-- `DecomposeExpr`, for entries in an order of their set. -/
def decomposeExpr (order : List Node → List Node) (entries : List Node) (src : Node) : Nat → Option Node :=
  let s := visit (compare entries) src .empty
  entries.foldl (fun m e => emplace m e.ptr (defaultSubExpr s.glue (order s.elses) src)) s.matched

/-! ### Instructions -/

/-- The decode functions, the states with their variables, and the next-state functions that are specified, all as expressions. -/
structure Abstraction where
  decodes : List Node
  states : List (String × Node)
  next : String → Option Node

/-- A state without a next-state function keeps its value. -/
def Abstraction.nextExpr (abs : Abstraction) (s : String × Node) : Node := (abs.next s.1).getD s.2

structure Instruction where
  decode : Node
  updates : List ((String × Node) × Option Node)

/-- A set of nodes knows them by their addresses. -/
def insert (l : List Node) (n : Node) : List Node := if n.ptr ∈ l.map Node.ptr then l else l ++ [n]

def decodeExprs (abs : Abstraction) : List Node := abs.decodes.foldl insert []

/-- An instruction for each decode function. When a function comes again, the map from functions to instructions keeps the
instruction that it has, and the new one gets no updates. -/
def portFrom (updates : Node → List ((String × Node) × Option Node)) : List Node → List Node → List Instruction
  | _, [] => []
  | seen, d :: ds => ⟨d, if d.ptr ∈ seen.map Node.ptr then [] else updates d⟩ :: portFrom updates (insert seen d) ds

/-- `PortInstructions`. There is no update if an assertion fails. -/
def portInstructions (order : List Node → List Node) (abs : Abstraction) : List Instruction :=
  portFrom (fun decode => abs.states.map fun s =>
    (s, decomposeExpr order (order (decodeExprs abs)) (abs.nextExpr s) decode.ptr)) [] abs.decodes

/-! ### Equal conditions -/

section TopEq

variable {heap : Nat → Node}

theorem topEqList_exprList {as bs : List Node} (h : topEqList as bs = true)
    (ih : ∀ a ∈ as, ∀ b ∈ bs, topEq a b = true → a.expr = b.expr) : Node.exprList as = Node.exprList bs := by
  induction as generalizing bs with
  | nil =>
    cases bs with
    | nil => rfl
    | cons b bs => simp only [topEqList, Bool.false_eq_true] at h
  | cons a as iha =>
    cases bs with
    | nil => simp only [topEqList, Bool.false_eq_true] at h
    | cons b bs =>
      rw [topEqList, Bool.and_eq_true] at h
      rw [Node.exprList, Node.exprList, ih a List.mem_cons_self b List.mem_cons_self h.1,
        iha h.2 fun x hx y hy => ih x (List.mem_cons_of_mem _ hx) y (List.mem_cons_of_mem _ hy)]

theorem topEq_expr {a b : Node} (h : topEq a b = true) (ha : a.InHeap heap) (hb : b.InHeap heap) : a.expr = b.expr := by
  induction a using Node.ind generalizing b with
  | leaf p l =>
    cases b with
    | app q hd bs => cases l <;> simp only [topEq, Bool.false_eq_true] at h
    | leaf q l' =>
      cases l with
      | var v =>
        cases l' with
        | var w =>
          have hpq : p = q := beq_iff_eq.mp h
          have hp := ha _ (Node.mem_subs_self _)
          have hq := hb _ (Node.mem_subs_self _)
          have heq : Node.leaf p (.var v) = Node.leaf q (.var w) := by
            rw [← hp, ← hq]
            exact congrArg heap hpq
          rw [heq]
        | const d => simp only [topEq, Bool.false_eq_true] at h
      | const c =>
        cases l' with
        | var w => simp only [topEq, Bool.false_eq_true] at h
        | const d =>
          rw [topEq, Bool.and_eq_true] at h
          rw [Node.expr, Node.expr, beq_iff_eq.mp h.1]
  | app p hd as ih =>
    have hargs : ∀ {q : Nat} {hd' : Head} {bs : List Node}, (Node.app q hd' bs).InHeap heap → topEqList as bs = true →
        Node.exprList as = Node.exprList bs := fun hb' hlist =>
      topEqList_exprList hlist fun x hx y hy hxy => ih x hx hxy (ha.arg hx) (hb'.arg hy)
    cases b with
    | leaf q l => cases hd <;> simp only [topEq, Bool.false_eq_true] at h
    | app q hd' bs =>
      cases hd with
      | op o =>
        cases hd' with
        | op o' =>
          rw [topEq, Bool.and_eq_true] at h
          rw [Node.expr, Node.expr, beq_iff_eq.mp h.1, hargs hb h.2]
        | appFunc g => simp only [topEq, Bool.false_eq_true] at h
      | appFunc f =>
        cases hd' with
        | op o' => simp only [topEq, Bool.false_eq_true] at h
        | appFunc g =>
          rw [topEq, Bool.and_eq_true] at h
          rw [Node.expr, Node.expr, beq_iff_eq.mp h.1, hargs hb h.2]

/-! ### The manager of `TopEq` -/

mutual

/-- What the manager sees of a node. -/
def shape : Node → Shape Label
  | .leaf p (.var v) => .node (.leaf (.var v.name v.host v.sort)) (some p) []
  | .leaf p (.const c) => .node (.leaf (.const c)) (if (Label.leaf (.const c)).ident then some p else none) []
  | .app _ (.op o) args => .node (.op o (o.sortOf (Expr.sortList (Node.exprList args)))) none (shapeList args)
  | .app _ (.appFunc f) args => .node (.appFunc f.id f.out) none (shapeList args)

def shapeList : List Node → List (Shape Label)
  | [] => []
  | a :: as => shape a :: shapeList as

end

theorem shapeList_eq_iff {as bs : List Node} (ih : ∀ a ∈ as, ∀ b ∈ bs, shape a = shape b ↔ topEq a b = true) :
    shapeList as = shapeList bs ↔ topEqList as bs = true := by
  induction as generalizing bs with
  | nil => cases bs <;> simp only [shapeList, topEqList, reduceCtorEq, Bool.false_eq_true]
  | cons a as iha =>
    cases bs with
    | nil => simp only [shapeList, topEqList, reduceCtorEq, Bool.false_eq_true]
    | cons b bs =>
      rw [shapeList, shapeList, topEqList, Bool.and_eq_true, List.cons.injEq, ih a List.mem_cons_self b List.mem_cons_self,
        iha fun x hx y hy => ih x (List.mem_cons_of_mem _ hx) y (List.mem_cons_of_mem _ hy)]

/-- Two nodes look alike to the manager exactly if they are equal, when a function is known by its identifier. -/
theorem shape_eq_iff {func : Nat → Func} {a b : Node} (ha : a.InHeap heap) (hb : b.InHeap heap)
    (hfa : ∀ f ∈ a.funcs, func f.id = f) (hfb : ∀ f ∈ b.funcs, func f.id = f) : shape a = shape b ↔ topEq a b = true := by
  induction a using Node.ind generalizing b with
  | leaf p l =>
    cases b with
    | app q hd bs => cases l <;> cases hd <;> simp only [shape, topEq, Shape.node.injEq, reduceCtorEq, false_and, Bool.false_eq_true]
    | leaf q l' =>
      cases l with
      | var v =>
        cases l' with
        | var w =>
          rw [shape, shape, topEq, beq_iff_eq]
          constructor
          · intro h
            rw [Shape.node.injEq, Option.some.injEq] at h
            exact h.2.1
          · intro hpq
            have hp := ha _ (Node.mem_subs_self _)
            have hq := hb _ (Node.mem_subs_self _)
            have heq : Node.leaf p (.var v) = Node.leaf q (.var w) := by
              rw [← hp, ← hq]
              exact congrArg heap hpq
            simp only [Node.leaf.injEq, Leaf.var.injEq] at heq
            rw [heq.2, hpq]
        | const d => simp only [shape, topEq, Shape.node.injEq, Label.leaf.injEq, reduceCtorEq, false_and, Bool.false_eq_true]
      | const c =>
        cases l' with
        | var w => simp only [shape, topEq, Shape.node.injEq, Label.leaf.injEq, reduceCtorEq, false_and, Bool.false_eq_true]
        | const d =>
          rw [shape, shape, topEq, Bool.and_eq_true, beq_iff_eq, Bool.or_eq_true, Bool.not_eq_true', beq_iff_eq, Shape.node.injEq,
            Label.leaf.injEq, AstLeaf.const.injEq]
          refine and_congr_right fun hcd => ?_
          rw [hcd]
          cases (Label.leaf (.const d)).ident <;> simp
  | app p hd as ih =>
    cases b with
    | leaf q l => cases l <;> cases hd <;> simp only [shape, topEq, Shape.node.injEq, reduceCtorEq, false_and, Bool.false_eq_true]
    | app q hd' bs =>
      have hargs : shapeList as = shapeList bs ↔ topEqList as bs = true :=
        shapeList_eq_iff fun x hx y hy => ih x hx (ha.arg hx) (hb.arg hy)
          (fun f hf => hfa f (Node.mem_funcs_app.mpr (.inr ⟨x, hx, hf⟩)))
          (fun f hf => hfb f (Node.mem_funcs_app.mpr (.inr ⟨y, hy, hf⟩)))
      cases hd with
      | op o =>
        cases hd' with
        | op o' =>
          rw [shape, shape, topEq, Bool.and_eq_true, beq_iff_eq, Shape.node.injEq, hargs]
          constructor
          · intro h
            exact ⟨(Label.op.inj h.1).1, h.2.2⟩
          · intro h
            have hexpr : Node.exprList as = Node.exprList bs := topEqList_exprList h.2 fun x hx y hy hxy =>
              topEq_expr hxy (ha.arg hx) (hb.arg hy)
            exact ⟨by rw [h.1, hexpr], rfl, h.2⟩
        | appFunc g => simp only [shape, topEq, Shape.node.injEq, reduceCtorEq, false_and, Bool.false_eq_true]
      | appFunc f =>
        cases hd' with
        | op o' => simp only [shape, topEq, Shape.node.injEq, reduceCtorEq, false_and, Bool.false_eq_true]
        | appFunc g =>
          rw [shape, shape, topEq, Bool.and_eq_true, beq_iff_eq, Shape.node.injEq, hargs]
          have hf := hfa f (Node.mem_funcs_app.mpr (.inl rfl))
          have hg := hfb g (Node.mem_funcs_app.mpr (.inl rfl))
          constructor
          · intro h
            have hid : f.id = g.id := (Label.appFunc.inj h.1).1
            exact ⟨by rw [← hf, ← hg, hid], h.2.2⟩
          · intro h
            exact ⟨by rw [h.1], rfl, h.2⟩

theorem topEq_getRep {O : Objects} {m : Mngr Label String} (hinv : Inv (scheme O) m) {a b : Node} (ha : a.InHeap heap)
    (hb : b.InHeap heap) (hfa : ∀ f ∈ a.funcs, O.func f.id = f) (hfb : ∀ f ∈ b.funcs, O.func f.id = f)
    (hma : Unfolds (scheme O) m.heap a.ptr (shape a)) (hmb : Unfolds (scheme O) m.heap b.ptr (shape b)) :
    ∃ x y m₁ m₂, Mngr.getRep (scheme O) (shape a).height a.ptr m = some (x, m₁) ∧
      Mngr.getRep (scheme O) (shape b).height b.ptr m₁ = some (y, m₂) ∧ (x = y ↔ topEq a b = true) := by
  obtain ⟨x, m₁, hx, hinv₁, hext₁, hrepx, hunx, -⟩ := getRep_spec hinv hma (le_refl _)
  obtain ⟨y, m₂, hy, hinv₂, hext₂, hrepy, huny, -⟩ := getRep_spec hinv₁ (hext₁.shape _ _ hmb) (le_refl _)
  have hrepx' := hext₂.rep hinv₁ hrepx
  have hunx' := hext₂.shape _ _ hunx
  refine ⟨x, y, m₁, m₂, hx, hy, ?_⟩
  rw [← shape_eq_iff ha hb hfa hfb]
  constructor
  · intro hxy
    exact (hxy ▸ hunx').unique huny
  · intro hshape
    exact hinv₂.rep_unique hrepx' hrepy hunx' (hshape ▸ huny)

end TopEq

/-! ### Cascades -/

def IsDecode (decodes : List Node) (c : Node) : Prop := ∃ e ∈ decodes, topEq c e = true

/-- An ITE about a decode function. -/
def IsGlue (decodes : List Node) (m : Node) : Prop := ∃ p c a b, m = .app p (.op .ite) [c, a, b] ∧ IsDecode decodes c

/-- There is no ITE about a decode function anywhere. -/
def Plain (decodes : List Node) (n : Node) : Prop := ∀ m ∈ n.subs, ¬IsGlue decodes m

/-- A cascade of ITEs about decode functions, each about another one, with these branches and what is left at its end, in all of
which there is no further ITE about a decode function. -/
inductive Cascade (decodes : List Node) : Node → List (Node × Node) → Node → Prop
  | default {n : Node} : Plain decodes n → Cascade decodes n [] n
  | ite {p : Nat} {c a b d : Node} {l : List (Node × Node)} : IsDecode decodes c → Plain decodes c → Plain decodes a →
    Cascade decodes b l d → (∀ q ∈ l, ∀ e ∈ decodes, topEq c e = true → topEq q.1 e = false) →
    Cascade decodes (.app p (.op .ite) [c, a, b]) ((c, a) :: l) d

theorem plain_leaf (decodes : List Node) (p : Nat) (l : Leaf) : Plain decodes (.leaf p l) := by
  intro m hm hglue
  obtain ⟨q, c, a, b, heq, -⟩ := hglue
  rw [Node.mem_subs_leaf.mp hm] at heq
  cases heq

section Visit

variable {decodes entries : List Node} {heap : Nat → Node}

theorem find?_eq_none_iff (hentries : ∀ e, e ∈ entries ↔ e ∈ decodes) {c : Node} :
    entries.find? (topEq c) = none ↔ ¬IsDecode decodes c := by
  rw [List.find?_eq_none]
  unfold IsDecode
  push Not
  exact forall_congr' fun e => by rw [hentries]

theorem find?_spec (hentries : ∀ e, e ∈ entries ↔ e ∈ decodes) {c : Node} (h : IsDecode decodes c) :
    ∃ e ∈ decodes, entries.find? (topEq c) = some e ∧ topEq c e = true := by
  cases hfind : entries.find? (topEq c) with
  | none => exact absurd h ((find?_eq_none_iff hentries).mp hfind)
  | some e => exact ⟨e, (hentries e).mp (List.mem_of_find?_eq_some hfind), rfl, List.find?_some hfind⟩

theorem compare_of_not_glue (hentries : ∀ e, e ∈ entries ↔ e ∈ decodes) {n : Node} (h : ¬IsGlue decodes n) (s : Decom) :
    compare entries n s = s := by
  unfold compare
  split
  · rename_i p c a b
    have hnone := (find?_eq_none_iff hentries).mpr fun hc => h ⟨p, c, a, b, rfl, hc⟩
    rw [hnone]
  · rfl

theorem visit_plain (hentries : ∀ e, e ∈ entries ↔ e ∈ decodes) {n : Node} (h : Plain decodes n) (s : Decom) :
    visit (compare entries) n s = s := by
  induction n using Node.ind generalizing s with
  | leaf p l => exact compare_of_not_glue hentries (h _ (Node.mem_subs_self _)) s
  | app p hd args ih =>
    have hargs : ∀ as : List Node, (∀ a ∈ as, a ∈ args) → visitList (compare entries) as s = s := by
      intro as has
      induction as with
      | nil => rfl
      | cons a as iha =>
        have hmem := has a List.mem_cons_self
        rw [visitList, ih a hmem fun m hm => h m (Node.mem_subs_of_arg hmem hm)]
        exact iha fun x hx => has x (List.mem_cons_of_mem _ hx)
    rw [visit, hargs args fun a ha => ha]
    exact compare_of_not_glue hentries (h _ (Node.mem_subs_self _)) s

/-- The branch of the ITE about an entry. -/
def branchOf (entries : List Node) (l : List (Node × Node)) (p : Nat) : Option Node :=
  (l.find? fun q => (entries.find? (topEq q.1)).any fun e => e.ptr == p).map Prod.snd

theorem branchOf_cons (entries : List Node) (c a : Node) (l : List (Node × Node)) (p : Nat) {e : Node}
    (he : entries.find? (topEq c) = some e) :
    branchOf entries ((c, a) :: l) p = if e.ptr = p then some a else branchOf entries l p := by
  unfold branchOf
  rw [List.find?_cons]
  split_ifs with h
  · simp only [he, Option.any_some, h, BEq.rfl, Option.map_some]
  · simp only [he, Option.any_some, beq_eq_false_iff_ne.mpr h]

/-- What a visit of a cascade does to the books. -/
structure Split (decodes entries : List Node) (src : Node) (l : List (Node × Node)) (d : Node) (s t : Decom) : Prop where
  matched : ∀ p, t.matched p = (s.matched p).or (branchOf entries l p)
  glue : ∀ x ∈ t.glue, x ∈ s.glue ∨ ∃ m ∈ src.subs, IsGlue decodes m ∧ m.ptr = x
  keeps : ∀ x ∈ s.glue, x ∈ t.glue
  elses : ∀ x ∈ t.elses, x ∈ s.elses ∨ x = d ∨ x.ptr ∈ t.glue
  root : (src = d ∧ t = s) ∨ (d ∈ t.elses ∧ src.ptr ∈ t.glue)
  default_mem : d ∈ src.subs
  plain : Plain decodes d

theorem branchOf_eq_none (hentries : ∀ e, e ∈ entries ↔ e ∈ decodes) (hheap : ∀ e ∈ decodes, e.InHeap heap)
    {l : List (Node × Node)} {c e : Node} (he : e ∈ decodes) (hce : topEq c e = true)
    (h : ∀ q ∈ l, ∀ e ∈ decodes, topEq c e = true → topEq q.1 e = false) : branchOf entries l e.ptr = none := by
  unfold branchOf
  rw [Option.map_eq_none_iff, List.find?_eq_none]
  intro q hq hany
  cases hfind : entries.find? (topEq q.1) with
  | none =>
    rw [hfind] at hany
    cases hany
  | some e' =>
    rw [hfind] at hany
    have hmem : e' ∈ decodes := (hentries _).mp (List.mem_of_find?_eq_some hfind)
    have heq : e' = e := by
      rw [← hheap e' hmem e' (Node.mem_subs_self _), ← hheap e he e (Node.mem_subs_self _)]
      exact congrArg heap (beq_iff_eq.mp hany)
    have hfound : topEq q.1 e' = true := List.find?_some hfind
    rw [heq, h q hq e he hce] at hfound
    cases hfound

theorem visit_cascade (hentries : ∀ e, e ∈ entries ↔ e ∈ decodes) (hheap : ∀ e ∈ decodes, e.InHeap heap) {src d : Node}
    {l : List (Node × Node)} (h : Cascade decodes src l d) (s : Decom) :
    Split decodes entries src l d s (visit (compare entries) src s) := by
  induction h generalizing s with
  | @default n hplain =>
    rw [visit_plain hentries hplain]
    exact ⟨fun p => (Option.or_none).symm, fun x hx => .inl hx, fun x hx => hx, fun x hx => .inl hx, .inl ⟨rfl, rfl⟩,
      Node.mem_subs_self n, hplain⟩
  | @ite p c a b d l hc hplainc hplaina hb hother ih =>
    obtain ⟨e, he, hfind, hce⟩ := find?_spec hentries hc
    have hrun : visit (compare entries) (.app p (.op .ite) [c, a, b]) s =
        ⟨emplace (visit (compare entries) b s).matched e.ptr a, p :: (visit (compare entries) b s).glue,
          b :: (visit (compare entries) b s).elses⟩ := by
      rw [visit, visitList, visitList, visitList, visitList, visit_plain hentries hplainc, visit_plain hentries hplaina, compare,
        hfind]
    have hsplit := ih s
    have hsubs : ∀ m, m ∈ b.subs → m ∈ (Node.app p (.op .ite) [c, a, b]).subs := fun m hm =>
      Node.mem_subs_app.mpr (.inr ⟨b, by simp only [List.mem_cons, true_or, or_true], hm⟩)
    rw [hrun]
    constructor
    · intro q
      rw [branchOf_cons entries c a l q hfind]
      show (if q = e.ptr then some (((visit (compare entries) b s).matched q).getD a) else (visit (compare entries) b s).matched q) = _
      rw [hsplit.matched q]
      by_cases hq : q = e.ptr
      · rw [if_pos hq, if_pos hq.symm, hq, branchOf_eq_none hentries hheap he hce hother, Option.or_none]
        cases s.matched e.ptr <;> rfl
      · rw [if_neg hq, if_neg (Ne.symm hq)]
    · intro x hx
      cases List.mem_cons.mp hx with
      | inl heq => exact .inr ⟨_, Node.mem_subs_self _, ⟨p, c, a, b, rfl, hc⟩, heq.symm⟩
      | inr hx =>
        obtain hx | ⟨m, hm, hglue, hptr⟩ := hsplit.glue x hx
        · exact .inl hx
        · exact .inr ⟨m, hsubs m hm, hglue, hptr⟩
    · intro x hx
      exact List.mem_cons_of_mem _ (hsplit.keeps x hx)
    · intro x hx
      cases List.mem_cons.mp hx with
      | inl heq =>
        rw [heq]
        obtain ⟨hbd, -⟩ | ⟨-, hglue⟩ := hsplit.root
        · exact .inr (.inl hbd)
        · exact .inr (.inr (List.mem_cons_of_mem _ hglue))
      | inr hx =>
        obtain hx | hx | hx := hsplit.elses x hx
        · exact .inl hx
        · exact .inr (.inl hx)
        · exact .inr (.inr (List.mem_cons_of_mem _ hx))
    · refine .inr ⟨?_, List.mem_cons_self⟩
      obtain ⟨hbd, -⟩ | ⟨hd, -⟩ := hsplit.root
      · rw [hbd]
        exact List.mem_cons_self
      · exact List.mem_cons_of_mem _ hd
    · exact hsubs d hsplit.default_mem
    · exact hsplit.plain

end Visit

/-! ### The update of an entry -/

theorem emplace_self (m : Nat → Option Node) (p : Nat) (n : Node) : emplace m p n p = some ((m p).getD n) := if_pos rfl

theorem emplace_of_some {m : Nat → Option Node} {p : Nat} {x : Node} (h : m p = some x) (q : Nat) (n : Node) :
    emplace m q n p = some x := by
  unfold emplace
  split_ifs
  · rw [h, Option.getD_some]
  · exact h

theorem foldl_emplace {entries : List Node} {e : Node} (he : e ∈ entries) (n : Node) (m : Nat → Option Node) :
    entries.foldl (fun m e => emplace m e.ptr n) m e.ptr = some ((m e.ptr).getD n) := by
  have hkeeps : ∀ (l : List Node) (m : Nat → Option Node) (x : Node), m e.ptr = some x →
      l.foldl (fun m e => emplace m e.ptr n) m e.ptr = some x := by
    intro l
    induction l with
    | nil => exact fun m x h => h
    | cons a l ih => exact fun m x h => ih _ x (emplace_of_some h a.ptr n)
  induction entries generalizing m with
  | nil => cases he
  | cons a l ih =>
    rw [List.foldl_cons]
    by_cases hptr : a.ptr = e.ptr
    · refine hkeeps l _ _ ?_
      rw [hptr]
      exact emplace_self m e.ptr n
    · have hmem : e ∈ l := by
        cases List.mem_cons.mp he with
        | inl heq => exact absurd (congrArg Node.ptr heq).symm hptr
        | inr hmem => exact hmem
      rw [ih hmem, emplace, if_neg (Ne.symm hptr)]

theorem defaultSubExpr_eq {glue : List Nat} {d : Node} (hd : d.ptr ∉ glue) {elses : List Node} {src : Node}
    (h : ∀ x ∈ elses, x = d ∨ x.ptr ∈ glue) (hsrc : src = d ∨ d ∈ elses) : defaultSubExpr glue elses src = d := by
  unfold defaultSubExpr
  induction elses generalizing src with
  | nil =>
    obtain rfl | hmem := hsrc
    · rfl
    · cases hmem
  | cons x l ih =>
    rw [List.foldl_cons]
    refine ih (fun y hy => h y (List.mem_cons_of_mem _ hy)) ?_
    by_cases hx : x.ptr ∈ glue
    · rw [if_pos hx]
      obtain hsrc | hmem := hsrc
      · exact .inl hsrc
      · cases List.mem_cons.mp hmem with
        | inl heq => exact absurd (heq ▸ hx) hd
        | inr hmem => exact .inr hmem
    · rw [if_neg hx]
      exact .inl ((h x List.mem_cons_self).resolve_right hx)

theorem decomposeExpr_cascade {order : List Node → List Node} (horder : ∀ l x, x ∈ order l ↔ x ∈ l) {decodes entries : List Node}
    {heap : Nat → Node} (hentries : ∀ e, e ∈ entries ↔ e ∈ decodes) (hheap : ∀ e ∈ decodes, e.InHeap heap) {src d : Node}
    (hsrc : src.InHeap heap) {l : List (Node × Node)} (h : Cascade decodes src l d) {e : Node} (he : e ∈ decodes) :
    decomposeExpr order entries src e.ptr = some ((branchOf entries l e.ptr).getD d) := by
  have hsplit := visit_cascade hentries hheap h .empty
  have hglue : d.ptr ∉ (visit (compare entries) src .empty).glue := by
    intro hx
    obtain hx | ⟨m, hm, hm', hptr⟩ := hsplit.glue _ hx
    · cases hx
    · have heq : m = d := by
        rw [← hsrc m hm, ← hsrc d hsplit.default_mem, hptr]
      exact hsplit.plain d (Node.mem_subs_self d) (heq ▸ hm')
  have hdefault : defaultSubExpr (visit (compare entries) src .empty).glue (order (visit (compare entries) src .empty).elses) src =
      d := by
    refine defaultSubExpr_eq hglue (fun x hx => ?_) ?_
    · obtain hx | hx := hsplit.elses x ((horder _ x).mp hx)
      · cases hx
      · exact hx
    · obtain ⟨hroot, -⟩ | ⟨hd, -⟩ := hsplit.root
      · exact .inl hroot
      · exact .inr ((horder _ d).mpr hd)
  unfold decomposeExpr
  rw [foldl_emplace ((hentries e).mpr he), hdefault, hsplit.matched]
  rfl

/-! ### Values -/

/-- No decode function comes twice, and two of them do not hold at once. -/
structure Exclusive (decodes : List Node) : Prop where
  nodup : decodes.Nodup
  apart : ∀ ν : Valuation, ∀ d ∈ decodes, ∀ e ∈ decodes, ν.Holds d.expr → ν.Holds e.expr → d = e

theorem eval_ite_eq_some {ν : Valuation} {c a b : Expr} {v : Value} (h : (Expr.op .ite [c, a, b]).eval ν = some v) :
    ∃ t x y, c.eval ν = some (.bool t) ∧ a.eval ν = some x ∧ b.eval ν = some y ∧ v = if t then x else y := by
  simp only [Expr.eval, Expr.evalList, Option.bind_eq_some_iff, Option.map_eq_some_iff] at h
  obtain ⟨vs, ⟨c', hc, as, ⟨x, hx, bs, ⟨y, hy, ns, hnil, rfl⟩, rfl⟩, rfl⟩, happly⟩ := h
  obtain rfl := Option.some.inj hnil
  obtain ⟨t, x', y', hvs, -, hv⟩ := Op.ite_eq_some (ExprOp.apply_eq_smt happly).2
  simp only [List.cons.injEq, and_true] at hvs
  obtain ⟨rfl, rfl, rfl⟩ := hvs
  exact ⟨t, x, y, hc, hx, hy, hv⟩

section Values

variable {decodes entries : List Node} {heap : Nat → Node}

theorem cascade_eval (hentries : ∀ e, e ∈ entries ↔ e ∈ decodes) (hheap : ∀ e ∈ decodes, e.InHeap heap)
    (hexcl : Exclusive decodes) {e : Node} (he : e ∈ decodes) {ν : Valuation} (hholds : ν.Holds e.expr) {src d : Node}
    {l : List (Node × Node)} (h : Cascade decodes src l d) (hsrc : src.InHeap heap) {v : Value}
    (hv : src.expr.eval ν = some v) : ((branchOf entries l e.ptr).getD d).expr.eval ν = some v := by
  induction h with
  | default _ => exact hv
  | @ite p c a b d l hc _ _ _ _ ih =>
    obtain ⟨e', he', hfind, htop⟩ := find?_spec hentries hc
    have hexpr : c.expr = e'.expr :=
      topEq_expr htop (hsrc.arg (by simp only [List.mem_cons, true_or])) (hheap e' he')
    obtain ⟨t, x, y, hcv, hx, hy, rfl⟩ := eval_ite_eq_some hv
    rw [branchOf_cons entries c a l e.ptr hfind]
    cases t with
    | true =>
      have heq : e' = e := hexcl.apart ν e' he' e he (hexpr ▸ hcv) hholds
      rw [if_pos (congrArg Node.ptr heq)]
      exact hx
    | false =>
      have hne : e'.ptr ≠ e.ptr := by
        intro hptr
        have heq : e' = e := by
          rw [← hheap e' he' e' (Node.mem_subs_self _), ← hheap e he e (Node.mem_subs_self _), hptr]
        rw [hexpr, heq] at hcv
        exact nomatch (hholds.symm.trans hcv)
      rw [if_neg hne]
      exact ih (hsrc.arg (by simp only [List.mem_cons, true_or, or_true])) hy

end Values

/-! ### Instructions of an abstraction -/

/-- The nodes of an abstraction are objects of one heap. -/
structure Abstraction.InHeap (heap : Nat → Node) (abs : Abstraction) : Prop where
  decodes : ∀ d ∈ abs.decodes, d.InHeap heap
  next : ∀ s ∈ abs.states, (abs.nextExpr s).InHeap heap

theorem mem_insert {heap : Nat → Node} {l : List Node} (hl : ∀ x ∈ l, x.InHeap heap) {n x : Node} (hn : n.InHeap heap) :
    x ∈ insert l n ↔ x ∈ l ∨ x = n := by
  unfold insert
  split_ifs with h
  · obtain ⟨y, hy, hptr⟩ := List.mem_map.mp h
    have heq : y = n := by
      rw [← hl y hy y (Node.mem_subs_self _), ← hn n (Node.mem_subs_self _), hptr]
    exact ⟨.inl, fun hx => hx.elim id fun hx => hx ▸ heq ▸ hy⟩
  · rw [List.mem_append, List.mem_singleton]

theorem mem_decodeExprs {heap : Nat → Node} {abs : Abstraction} (h : abs.InHeap heap) {x : Node} :
    x ∈ decodeExprs abs ↔ x ∈ abs.decodes := by
  have hfold : ∀ l acc : List Node, (∀ y ∈ l, y.InHeap heap) → (∀ y ∈ acc, y.InHeap heap) →
      (x ∈ l.foldl insert acc ↔ x ∈ acc ∨ x ∈ l) := by
    intro l
    induction l with
    | nil => exact fun acc _ _ => by rw [List.foldl_nil, List.mem_nil_iff, or_false]
    | cons n l ih =>
      intro acc hl hacc
      have hn := hl n List.mem_cons_self
      rw [List.foldl_cons, ih _ (fun y hy => hl y (List.mem_cons_of_mem _ hy)), mem_insert hacc hn, List.mem_cons, or_assoc]
      intro y hy
      cases (mem_insert hacc hn).mp hy with
      | inl hy => exact hacc y hy
      | inr hy => exact hy ▸ hn
  unfold decodeExprs
  rw [hfold abs.decodes [] h.decodes (fun y hy => nomatch hy), List.mem_nil_iff, false_or]

theorem decodes_portFrom (updates : Node → List ((String × Node) × Option Node)) (ds : List Node) :
    ∀ seen, (portFrom updates seen ds).map Instruction.decode = ds := by
  induction ds with
  | nil => exact fun _ => rfl
  | cons d ds ih => exact fun seen => by rw [portFrom, List.map_cons, ih]

theorem updates_portFrom {heap : Nat → Node} {updates : Node → List ((String × Node) × Option Node)} {ds : List Node}
    (hheap : ∀ d ∈ ds, d.InHeap heap) (hnodup : ds.Nodup) : ∀ seen : List Node, (∀ x ∈ seen, x.InHeap heap) →
      (∀ d ∈ ds, d ∉ seen) → ∀ i ∈ portFrom updates seen ds, i.updates = updates i.decode := by
  induction ds with
  | nil => exact fun _ _ _ i hi => nomatch hi
  | cons d ds ih =>
    intro seen hseen hfresh i hi
    obtain ⟨hd, hds⟩ := List.nodup_cons.mp hnodup
    have hdheap := hheap d List.mem_cons_self
    have hptr : d.ptr ∉ seen.map Node.ptr := by
      intro hmem
      obtain ⟨x, hx, hxd⟩ := List.mem_map.mp hmem
      have heq : x = d := by rw [← hseen x hx x (Node.mem_subs_self _), ← hdheap d (Node.mem_subs_self _), hxd]
      exact hfresh d List.mem_cons_self (heq ▸ hx)
    rw [portFrom, if_neg hptr] at hi
    rcases List.mem_cons.mp hi with rfl | hi
    · rfl
    · have hinsert : ∀ x, x ∈ insert seen d ↔ x ∈ seen ∨ x = d := fun x => mem_insert hseen hdheap
      refine ih (fun e he => hheap e (List.mem_cons_of_mem d he)) hds (insert seen d) (fun x hx => ?_) (fun e he hmem => ?_) i hi
      · rcases (hinsert x).mp hx with hx | rfl
        · exact hseen x hx
        · exact hdheap
      · rcases (hinsert e).mp hmem with hmem | rfl
        · exact hfresh e (List.mem_cons_of_mem d he) hmem
        · exact hd he

/-- An instruction updates a state whose next-state function is a cascade as the function does wherever its decode function holds. -/
theorem portInstructions_update {order : List Node → List Node} (horder : ∀ l x, x ∈ order l ↔ x ∈ l) (abs : Abstraction)
    {heap : Nat → Node} (hheap : abs.InHeap heap) (hexcl : Exclusive abs.decodes) {s : String × Node} (hs : s ∈ abs.states)
    (hcascade : ∃ l d, Cascade abs.decodes (abs.nextExpr s) l d) :
    (∀ d, d ∈ abs.decodes ↔ ∃ i ∈ portInstructions order abs, i.decode = d) ∧
      ∀ i ∈ portInstructions order abs, ∃ u, (s, some u) ∈ i.updates ∧ ∀ (ν : Valuation) (v : Value), ν.Holds i.decode.expr →
        (abs.nextExpr s).expr.eval ν = some v → u.expr.eval ν = some v := by
  have hdecodes : (portInstructions order abs).map Instruction.decode = abs.decodes := decodes_portFrom _ _ _
  constructor
  · intro d
    rw [← hdecodes, List.mem_map]
  · intro i hi
    obtain ⟨l, d, h⟩ := hcascade
    have hmem : i.decode ∈ abs.decodes := hdecodes ▸ List.mem_map_of_mem hi
    have hupdates := updates_portFrom hheap.decodes hexcl.nodup [] (fun x hx => nomatch hx) (fun d _ hd => nomatch hd) i hi
    have hentries : ∀ x, x ∈ order (decodeExprs abs) ↔ x ∈ abs.decodes := fun x => (horder _ x).trans (mem_decodeExprs hheap)
    have hupdate := decomposeExpr_cascade horder hentries hheap.decodes (hheap.next s hs) h hmem
    refine ⟨(branchOf (order (decodeExprs abs)) l i.decode.ptr).getD d, ?_, ?_⟩
    · rw [hupdates, ← hupdate]
      exact List.mem_map_of_mem (f := fun s => (s, decomposeExpr order (order (decodeExprs abs)) (abs.nextExpr s) i.decode.ptr)) hs
    · intro ν v hholds hv
      exact cascade_eval hentries hheap.decodes hexcl hmem hholds h (hheap.next s hs) hv

namespace PortTest

/-- A state, and two decode functions about it. -/
def flag : Node := .leaf 0 (.var ⟨0, "x", none, .bool⟩)

def unset : Node := .app 1 (.op .not) [flag]

def lit (p : Nat) (b : Bool) : Node := .leaf p (.const (.bool b))

/-- One decode function is in the cascade. -/
def toggle : Abstraction := ⟨[flag, unset], [("x", flag)], fun _ => some (.app 4 (.op .ite) [flag, lit 2 false, lit 3 true])⟩

/-- A branch of a decode function has an ITE about the other one. -/
def nested : Abstraction :=
  ⟨[flag, unset], [("x", flag)],
    fun _ => some (.app 6 (.op .ite) [flag, .app 5 (.op .ite) [unset, lit 3 true, lit 2 false], lit 4 false])⟩

def heap : Nat → Node
  | 0 => flag
  | 1 => unset
  | 2 => lit 2 false
  | 3 => lit 3 true
  | _ => .app 4 (.op .ite) [flag, lit 2 false, lit 3 true]

def cleared : Valuation where
  atom a := a.sort.default
  atom_sort a := a.sort.sort_default
  func f _ := f.out.default
  func_sort := func_default_sort

theorem exclusive_flag : Exclusive [flag, unset] := by
  have hnot : ∀ ν : Valuation, ν.Holds unset.expr → ¬ν.Holds flag.expr := fun ν h =>
    (Expr.holds_not rfl).mp h
  have hne : flag ≠ unset := fun h => nomatch h
  refine ⟨by simpa using hne, ?_⟩
  intro ν d hd e he hdv hev
  simp only [List.mem_cons, List.mem_nil_iff, or_false] at hd he
  obtain rfl | rfl := hd
  · obtain rfl | rfl := he
    · rfl
    · exact absurd hdv (hnot ν hev)
  · obtain rfl | rfl := he
    · exact absurd hev (hnot ν hdv)
    · rfl

theorem inHeap_toggle : toggle.InHeap heap := by
  constructor
  · intro d hd
    simp only [toggle, List.mem_cons, List.mem_nil_iff, or_false] at hd
    obtain rfl | rfl := hd
    all_goals
      intro m hm
      simp only [flag, unset, Node.subs, Node.subsList, List.append_nil, List.mem_cons, List.mem_nil_iff, or_false] at hm
      first | (rw [hm]; rfl) | (obtain rfl | rfl := hm <;> rfl)
  · intro s hs m hm
    simp only [toggle, Abstraction.nextExpr, Option.getD_some, flag, lit, Node.subs, Node.subsList, List.append_nil, List.cons_append,
      List.nil_append, List.mem_cons, List.mem_nil_iff, or_false] at hm
    obtain rfl | rfl | rfl | rfl := hm
    all_goals rfl

end PortTest

open PortTest in
theorem portInstructions_update_toggle :
    (∀ d, d ∈ toggle.decodes ↔ ∃ i ∈ portInstructions id toggle, i.decode = d) ∧
      ∀ i ∈ portInstructions id toggle, ∃ u, (("x", flag), some u) ∈ i.updates ∧
        ∀ (ν : Valuation) (v : Value), ν.Holds i.decode.expr →
          (toggle.nextExpr ("x", flag)).expr.eval ν = some v → u.expr.eval ν = some v :=
  portInstructions_update (fun _ _ => Iff.rfl) toggle inHeap_toggle exclusive_flag (List.mem_singleton.mpr rfl)
    ⟨_, _, .ite ⟨flag, List.mem_cons_self, rfl⟩ (plain_leaf _ _ _) (plain_leaf _ _ _) (.default (plain_leaf _ _ _))
      (fun _ hq => nomatch hq)⟩

open PortTest in
/-- The instruction for an unset flag sets it, although the function leaves it unset. -/
theorem nested_branch_redirected : Exclusive nested.decodes ∧
    nested.nextExpr ("x", flag) = .app 6 (.op .ite) [flag, .app 5 (.op .ite) [unset, lit 3 true, lit 2 false], lit 4 false] ∧
    portInstructions id nested = [⟨flag, [(("x", flag), some (.app 5 (.op .ite) [unset, lit 3 true, lit 2 false]))]⟩,
      ⟨unset, [(("x", flag), some (lit 3 true))]⟩] ∧
    cleared.Holds unset.expr ∧ (nested.nextExpr ("x", flag)).expr.eval cleared = some (.bool false) ∧
      (lit 3 true).expr.eval cleared = some (.bool true) :=
  ⟨exclusive_flag, rfl, rfl, rfl, rfl, rfl⟩

end SynthAbs

end Ilang
