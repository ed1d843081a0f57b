import Ilang.Mngr.RewriteGeneric

/-!
# Rewriting conditional stores

`RewriteConditionalStore` turns a choice between memories into a store of a choice between data, where the two memories
are one, or differ by one store, or are two stores to one memory. Memories are compared by their pointers.
-/

namespace Ilang

open Smt

namespace CondStore

/-! ### The patterns -/

/-- The branches of a memory choice that the pass targets. -/
inductive Targeted : Node → Node → Prop
  | same {m m' : Node} : m.ptr = m'.ptr → Targeted m m'
  | storeLeft {p q : Nat} {l : Leaf} {m a d : Node} : m.ptr = q → Targeted (.app p (.op .store) [m, a, d]) (.leaf q l)
  | storeRight {p q : Nat} {l : Leaf} {m a d : Node} : m.ptr = q → Targeted (.leaf q l) (.app p (.op .store) [m, a, d])
  | stores {p p' : Nat} {m m' a a' d d' : Node} : m.ptr = m'.ptr →
    Targeted (.app p (.op .store) [m, a, d]) (.app p' (.op .store) [m', a', d'])

/-- A choice between memories that the pass targets. -/
def IsTarget (n : Node) : Prop :=
  ∃ p c t e, n = .app p (.op .ite) [c, t, e] ∧ n.expr.sort.isMem = true ∧ Targeted t e

/-- `asthub::Ite`, `Load` and `Store` on given arguments: the new node has the next pointer. -/
def newOp (o : ExprOp) (args : List Node) (next : Nat) : Node := .app next (.op o) args

/-- The patterns with a store, in the order of `FuncObjRewrCondStore::RewriteCondMem`. `none` means that none matches. -/
def rewriteStores (cond mem1 mem2 : Node) (next : Nat) : Option (Node × Nat) :=
  match mem1, mem2 with
  | .app _ (.op .store) [m, a, d], .leaf q l =>
    if m.ptr = q then
      let old := newOp .load [.leaf q l, a] next
      let data := newOp .ite [cond, d, old] (next + 1)
      some (newOp .store [.leaf q l, a, data] (next + 2), next + 3)
    else none
  | .leaf q l, .app _ (.op .store) [m, a, d] =>
    if m.ptr = q then
      let old := newOp .load [.leaf q l, a] next
      let data := newOp .ite [cond, old, d] (next + 1)
      some (newOp .store [.leaf q l, a, data] (next + 2), next + 3)
    else none
  | .app _ (.op .store) [m, a, d], .app _ (.op .store) [m', a', d'] =>
    if m.ptr = m'.ptr then
      let addr := newOp .ite [cond, a, a'] next
      let data := newOp .ite [cond, d, d'] (next + 1)
      some (newOp .store [m, addr, data] (next + 2), next + 3)
    else none
  | _, _ => none

/-- `FuncObjRewrCondStore::RewriteOp`. The branches are compared first, null pointers included; all that follows
dereferences them. -/
def rewriteOp : RewriteOp := fun get e next =>
  match e with
  | .app p (.op .ite) [c, t, f] =>
    if (Node.app p (.op .ite) [c, t, f]).expr.sort.isMem then
      (get c).bind fun cond => (get t).bind fun mem1 => (get f).bind fun mem2 =>
        if mem1.map Node.ptr = mem2.map Node.ptr then some (mem1, next)
        else cond.bind fun cond => mem1.bind fun mem1 => mem2.bind fun mem2 =>
          match rewriteStores cond mem1 mem2 next with
          | some r => some (some r.1, r.2)
          | none => rewriteOpBase get (.app p (.op .ite) [c, t, f]) next
    else rewriteOpBase get (.app p (.op .ite) [c, t, f]) next
  | e => rewriteOpBase get e next

/-- `Rewr` of the pass, which refuses a null pointer. -/
def rewr : Rewr RewrExpr
  | none, _ => none
  | some e, s => s.rewr rewriteOp e

/-! ### Values -/

section Values

variable {ν : Valuation} {c m x y : Expr} {a d : Nat}

theorem eval_store {f : BitVec a → BitVec d} {i : BitVec a} {v : BitVec d} (hm : m.eval ν = some (.mem a d f))
    (hx : x.eval ν = some (.bv a i)) (hy : y.eval ν = some (.bv d v)) :
    (Expr.op .store [m, x, y]).eval ν = some (.mem a d (Function.update f i v)) := by
  rw [Expr.eval, Expr.evalList, Expr.evalList, Expr.evalList, Expr.evalList, hm, hx, hy]
  exact ExprOp.apply_store f i v

theorem eval_load {f : BitVec a → BitVec d} {i : BitVec a} (hm : m.eval ν = some (.mem a d f))
    (hx : x.eval ν = some (.bv a i)) : (Expr.op .load [m, x]).eval ν = some (.bv d (f i)) := by
  rw [Expr.eval, Expr.evalList, Expr.evalList, Expr.evalList, hm, hx]
  exact dif_pos rfl

theorem check_store' (hm : m.check = some (.mem a d)) (hx : x.check = some (.bv a)) (hy : y.check = some (.bv d)) :
    (Expr.op .store [m, x, y]).check = some (.mem a d) := by
  rw [Expr.check, Expr.checkList, Expr.checkList, Expr.checkList, Expr.checkList, hm, hx, hy]
  exact if_pos ⟨rfl, rfl⟩

theorem check_load (hm : m.check = some (.mem a d)) (hx : x.check = some (.bv a)) :
    (Expr.op .load [m, x]).check = some (.bv d) := by
  rw [Expr.check, Expr.checkList, Expr.checkList, Expr.checkList, hm, hx]
  exact if_pos rfl

theorem eval_data (ν : Valuation) (hc : c.check = some .bool) (hm : m.check = some (.mem a d)) (hx : x.check = some (.bv a))
    (hy : y.check = some (.bv d)) :
    (Expr.op .store [m, x, .op .ite [c, y, .op .load [m, x]]]).eval ν =
        (Expr.op .ite [c, .op .store [m, x, y], m]).eval ν ∧
      (Expr.op .store [m, x, .op .ite [c, .op .load [m, x], y]]).eval ν =
        (Expr.op .ite [c, m, .op .store [m, x, y]]).eval ν := by
  obtain ⟨f, hf⟩ := Expr.eval_mem ν hm
  obtain ⟨i, hi⟩ := Expr.eval_bv ν hx
  obtain ⟨v, hv⟩ := Expr.eval_bv ν hy
  have hload := eval_load hf hi
  have hstore := check_store' hm hx hy
  have hleft := Expr.eval_ite (Expr.check_ite' hc hy (check_load hm hx)) ν
  have hright := Expr.eval_ite (Expr.check_ite' hc (check_load hm hx) hy) ν
  rw [Expr.eval_ite (Expr.check_ite' hc hstore hm), Expr.eval_ite (Expr.check_ite' hc hm hstore), eval_store hf hi hv, hf]
  rw [hload, hv] at hleft hright
  generalize Value.isTrue (c.eval ν) = b at hleft hright ⊢
  -- On the branch that keeps the memory, the old datum is stored over itself.
  cases b with
  | true =>
    refine ⟨eval_store hf hi hleft, ?_⟩
    rw [eval_store hf hi hright, Function.update_eq_self]
    rfl
  | false =>
    refine ⟨?_, eval_store hf hi hright⟩
    rw [eval_store hf hi hleft, Function.update_eq_self]
    rfl

theorem eval_stores (ν : Valuation) {x' y' : Expr} (hc : c.check = some .bool) (hm : m.check = some (.mem a d))
    (hx : x.check = some (.bv a)) (hy : y.check = some (.bv d)) (hx' : x'.check = some (.bv a))
    (hy' : y'.check = some (.bv d)) :
    (Expr.op .store [m, .op .ite [c, x, x'], .op .ite [c, y, y']]).eval ν =
      (Expr.op .ite [c, .op .store [m, x, y], .op .store [m, x', y']]).eval ν := by
  obtain ⟨f, hf⟩ := Expr.eval_mem ν hm
  obtain ⟨i, hi⟩ := Expr.eval_bv ν hx
  obtain ⟨v, hv⟩ := Expr.eval_bv ν hy
  obtain ⟨i', hi'⟩ := Expr.eval_bv ν hx'
  obtain ⟨v', hv'⟩ := Expr.eval_bv ν hy'
  have haddr := Expr.eval_ite (Expr.check_ite' hc hx hx') ν
  have hdata := Expr.eval_ite (Expr.check_ite' hc hy hy') ν
  rw [hi, hi'] at haddr
  rw [hv, hv'] at hdata
  rw [Expr.eval_ite (Expr.check_ite' hc (check_store' hm hx hy) (check_store' hm hx' hy')), eval_store hf hi hv,
    eval_store hf hi' hv']
  generalize Value.isTrue (c.eval ν) = b at haddr hdata ⊢
  cases b with
  | true => exact eval_store hf haddr hdata
  | false => exact eval_store hf haddr hdata

end Values

/-! ### Images -/

/-- What the pass makes of an expression: one of the same sort and value, in which no pattern is left. -/
structure Image (n n' : Node) : Prop where
  check : ∀ {s}, n.expr.check = some s → n'.expr.check = some s
  eval : ∀ ν : Valuation, n'.expr.eval ν = n.expr.eval ν
  clean : ∀ m ∈ n'.subs, ¬IsTarget m

theorem not_isTarget_leaf (p : Nat) (l : Leaf) : ¬IsTarget (.leaf p l) := by
  rintro ⟨_, _, _, _, h, -⟩
  cases h

theorem not_isTarget_of_ne {p : Nat} {h : Head} {args : List Node} (hne : h ≠ .op .ite) : ¬IsTarget (.app p h args) := by
  rintro ⟨_, _, _, _, heq, -⟩
  exact hne (Node.app.inj heq).2.1

theorem not_isTarget_of_sort {n : Node} {s : Srt} (hcheck : n.expr.check = some s) (hs : s.isMem = false) :
    ¬IsTarget n := by
  rintro ⟨_, _, _, _, -, hmem, -⟩
  rw [Expr.sort_of_check hcheck, hs] at hmem
  cases hmem

section Entries

variable {get : Node → Option (Option Node)} {heap : Nat → Node} {next : Nat} {args args' : List Node}

theorem checkList_entries (h : List.Forall₂ (Entry get heap next Image) args args') {ss : List Srt}
    (hss : Expr.checkList (Node.exprList args) = some ss) : Expr.checkList (Node.exprList args') = some ss := by
  induction h generalizing ss with
  | nil => exact hss
  | cons hentry _ ih =>
    simp only [Node.exprList, Expr.checkList, Option.bind_eq_some_iff, Option.map_eq_some_iff] at hss
    obtain ⟨s, hs, us, hus, rfl⟩ := hss
    rw [Node.exprList, Expr.checkList, hentry.img.check hs, ih hus]
    rfl

theorem evalList_entries (h : List.Forall₂ (Entry get heap next Image) args args') (ν : Valuation) :
    Expr.evalList ν (Node.exprList args') = Expr.evalList ν (Node.exprList args) := by
  induction h with
  | nil => rfl
  | cons hentry _ ih => rw [Node.exprList, Expr.evalList, Node.exprList, Expr.evalList, hentry.img.eval, ih]

variable {p : Nat} {h : Head} {s : Srt}

theorem check_rebuilt (hentries : List.Forall₂ (Entry get heap next Image) args args')
    (hcheck : (Node.app p h args).expr.check = some s) : (Node.app next h args').expr.check = some s := by
  obtain ⟨ss, hss⟩ := Node.check_app hcheck
  have hss' := checkList_entries hentries hss
  cases h with
  | op o => rwa [Node.expr, Expr.check, hss', ← hss, ← Expr.check, ← Node.expr]
  | appFunc f => rwa [Node.expr, Expr.check, hss', ← hss, ← Expr.check, ← Node.expr]

theorem eval_rebuilt (hentries : List.Forall₂ (Entry get heap next Image) args args') (ν : Valuation) :
    (Node.app next h args').expr.eval ν = (Node.app p h args).expr.eval ν := by
  cases h with
  | op o => rw [Node.expr, Expr.eval, evalList_entries hentries, Node.expr, Expr.eval]
  | appFunc f => rw [Node.expr, Expr.eval, evalList_entries hentries, Node.expr, Expr.eval]

theorem forall_closed (hentries : List.Forall₂ (Entry get heap next Image) args args') :
    ∀ a ∈ args', a.Closed heap next ∧ ∀ m ∈ a.subs, ¬IsTarget m := by
  intro a ha
  obtain ⟨b, -, hentry⟩ := Pointwise.exists_left hentries ha
  exact ⟨hentry.closed, hentry.img.clean⟩

theorem rebuild_spec (hcheck : (Node.app p h args).expr.check = some s)
    (hrem : (Node.app p h args).expr.noSignedRem = true)
    (hentries : List.Forall₂ (Entry get heap next Image) args args') (htarget : ¬IsTarget (.app next h args')) :
    ∃ n' next' heap', rewriteOpBase get (.app p h args) next = some (some n', next') ∧ Allocates heap heap' next next' ∧
      n'.Closed heap' next' ∧ Image (.app p h args) n' := by
  have hcheck' := check_rebuilt hentries hcheck
  have hargs := forall_closed hentries
  obtain ⟨hext, hclosed⟩ := Node.closed_app (fun a ha => (hargs a ha).1) h
  refine ⟨_, _, _, rewriteOpBase_eq hrem hentries hcheck', hext, hclosed, ?_, eval_rebuilt hentries, ?_⟩
  · intro t ht
    exact check_rebuilt hentries ht
  · intro m hm
    rcases Node.mem_subs_app.mp hm with rfl | ⟨a, ha, hma⟩
    · exact htarget
    · exact (hargs a ha).2 m hma

end Entries

/-! ### The rewritten stores -/

/-- A node of the heap without patterns. -/
structure Ready (heap : Nat → Node) (next : Nat) (n : Node) : Prop where
  closed : n.Closed heap next
  clean : ∀ m ∈ n.subs, ¬IsTarget m

theorem Ready.mono {heap heap' : Nat → Node} {next next' : Nat} {n : Node} (hn : Ready heap next n)
    (h : Allocates heap heap' next next') : Ready heap' next' n :=
  ⟨hn.closed.mono h, hn.clean⟩

theorem Ready.arg {heap : Nat → Node} {next p : Nat} {h : Head} {args : List Node} (hn : Ready heap next (.app p h args))
    {a : Node} (ha : a ∈ args) : Ready heap next a :=
  ⟨hn.closed.arg ha, fun m hm => hn.clean m (Node.mem_subs_of_arg ha hm)⟩

theorem ready_newOp {heap : Nat → Node} {next : Nat} {o : ExprOp} {args : List Node}
    (hargs : ∀ a ∈ args, Ready heap next a) (htarget : ¬IsTarget (newOp o args next)) :
    ∃ heap', Allocates heap heap' next (next + 1) ∧ Ready heap' (next + 1) (newOp o args next) := by
  obtain ⟨hext, hclosed⟩ := Node.closed_app (fun a ha => (hargs a ha).closed) (.op o)
  refine ⟨_, hext, hclosed, fun m hm => ?_⟩
  rcases Node.mem_subs_app.mp hm with rfl | ⟨a, ha, hma⟩
  · exact htarget
  · exact (hargs a ha).clean m hma

theorem ready_three {heap : Nat → Node} {next : Nat} {o₁ o₂ o₃ : ExprOp} {as₁ as₂ as₃ : List Node}
    (h₁ : ∀ a ∈ as₁, Ready heap next a) (ht₁ : ¬IsTarget (newOp o₁ as₁ next))
    (h₂ : ∀ a ∈ as₂, Ready heap next a ∨ a = newOp o₁ as₁ next) (ht₂ : ¬IsTarget (newOp o₂ as₂ (next + 1)))
    (h₃ : ∀ a ∈ as₃, Ready heap next a ∨ a = newOp o₁ as₁ next ∨ a = newOp o₂ as₂ (next + 1))
    (ht₃ : ¬IsTarget (newOp o₃ as₃ (next + 2))) :
    ∃ heap', Allocates heap heap' next (next + 3) ∧ Ready heap' (next + 3) (newOp o₃ as₃ (next + 2)) := by
  obtain ⟨heap₁, hext₁, hready₁⟩ := ready_newOp h₁ ht₁
  have hargs₂ : ∀ a ∈ as₂, Ready heap₁ (next + 1) a := by
    intro a ha
    rcases h₂ a ha with h | rfl
    · exact h.mono hext₁
    · exact hready₁
  obtain ⟨heap₂, hext₂, hready₂⟩ := ready_newOp hargs₂ ht₂
  have hargs₃ : ∀ a ∈ as₃, Ready heap₂ (next + 2) a := by
    intro a ha
    rcases h₃ a ha with h | rfl | rfl
    · exact h.mono (hext₁.trans hext₂)
    · exact hready₁.mono hext₂
    · exact hready₂
  obtain ⟨heap₃, hext₃, hready₃⟩ := ready_newOp hargs₃ ht₃
  exact ⟨heap₃, (hext₁.trans hext₂).trans hext₃, hready₃⟩

theorem not_isTarget_newOp {o : ExprOp} (ho : o ≠ .ite) (args : List Node) (next : Nat) : ¬IsTarget (newOp o args next) :=
  not_isTarget_of_ne fun h => ho (Head.op.inj h)

theorem data_spec {heap : Nat → Node} {next : Nat} {c m x y : Node} {a d : Nat} (hc : Ready heap next c)
    (hm : Ready heap next m) (hx : Ready heap next x) (hy : Ready heap next y) (hcc : c.expr.check = some .bool)
    (hmc : m.expr.check = some (.mem a d)) (hxc : x.expr.check = some (.bv a)) (hyc : y.expr.check = some (.bv d))
    {args : List Node} (hargs : args = [c, y, newOp .load [m, x] next] ∨ args = [c, newOp .load [m, x] next, y]) :
    ∃ heap', Allocates heap heap' next (next + 3) ∧
      Ready heap' (next + 3) (newOp .store [m, x, newOp .ite args (next + 1)] (next + 2)) ∧
      (newOp .store [m, x, newOp .ite args (next + 1)] (next + 2)).expr.check = some (.mem a d) := by
  have hite : (newOp .ite args (next + 1)).expr.check = some (.bv d) := by
    rcases hargs with rfl | rfl
    · exact Expr.check_ite' hcc hyc (check_load hmc hxc)
    · exact Expr.check_ite' hcc (check_load hmc hxc) hyc
  have hargs' : ∀ b ∈ args, Ready heap next b ∨ b = newOp .load [m, x] next := by
    rcases hargs with rfl | rfl
    · simp [hc, hy]
    · simp [hc, hy]
  have hload : ∀ b ∈ [m, x], Ready heap next b := by simp [hm, hx]
  have hstore : ∀ b ∈ [m, x, newOp .ite args (next + 1)],
      Ready heap next b ∨ b = newOp .load [m, x] next ∨ b = newOp .ite args (next + 1) := by simp [hm, hx]
  obtain ⟨heap', hext, hready⟩ := ready_three hload (not_isTarget_newOp (by simp) _ _) hargs'
    (not_isTarget_of_sort hite rfl) hstore (not_isTarget_newOp (o := .store) (by simp) _ _)
  exact ⟨heap', hext, hready, check_store' hmc hxc hite⟩

theorem rewriteStores_spec {heap : Nat → Node} {next next' : Nat} {c t f n' : Node} {a d : Nat} (hc : Ready heap next c)
    (ht : Ready heap next t) (hf : Ready heap next f) (hcc : c.expr.check = some .bool)
    (htc : t.expr.check = some (.mem a d)) (hfc : f.expr.check = some (.mem a d))
    (h : rewriteStores c t f next = some (n', next')) :
    ∃ heap', Allocates heap heap' next next' ∧ Ready heap' next' n' ∧ n'.expr.check = some (.mem a d) ∧
      ∀ ν : Valuation, n'.expr.eval ν = (Expr.op .ite [c.expr, t.expr, f.expr]).eval ν := by
  unfold rewriteStores at h
  split at h
  · rename_i p m x y q l
    obtain ⟨hptr, heq⟩ := Option.ite_none_right_eq_some.mp h
    obtain ⟨rfl, rfl⟩ := Prod.mk.inj (Option.some.inj heq)
    obtain ⟨hmc, hxc, hyc⟩ := Expr.check_store htc
    obtain rfl : m = .leaf q l := (ht.arg (by simp)).closed.eq_of_ptr hf.closed hptr
    obtain ⟨heap', hext, hready, hcheck⟩ :=
      data_spec hc hf (ht.arg (by simp)) (ht.arg (by simp)) hcc hmc hxc hyc (.inl rfl)
    exact ⟨heap', hext, hready, hcheck, fun ν => (eval_data ν hcc hmc hxc hyc).1⟩
  · rename_i q l p m x y
    obtain ⟨hptr, heq⟩ := Option.ite_none_right_eq_some.mp h
    obtain ⟨rfl, rfl⟩ := Prod.mk.inj (Option.some.inj heq)
    obtain ⟨hmc, hxc, hyc⟩ := Expr.check_store hfc
    obtain rfl : m = .leaf q l := (hf.arg (by simp)).closed.eq_of_ptr ht.closed hptr
    obtain ⟨heap', hext, hready, hcheck⟩ :=
      data_spec hc ht (hf.arg (by simp)) (hf.arg (by simp)) hcc hmc hxc hyc (.inr rfl)
    exact ⟨heap', hext, hready, hcheck, fun ν => (eval_data ν hcc hmc hxc hyc).2⟩
  · rename_i p m x y p' m' x' y'
    obtain ⟨hptr, heq⟩ := Option.ite_none_right_eq_some.mp h
    obtain ⟨rfl, rfl⟩ := Prod.mk.inj (Option.some.inj heq)
    obtain ⟨hmc, hxc, hyc⟩ := Expr.check_store htc
    obtain ⟨-, hxc', hyc'⟩ := Expr.check_store hfc
    have hm : Ready heap next m := ht.arg (by simp)
    obtain rfl : m = m' := hm.closed.eq_of_ptr (hf.arg (by simp)).closed hptr
    have hx : Ready heap next x := ht.arg (by simp)
    have hy : Ready heap next y := ht.arg (by simp)
    have hx' : Ready heap next x' := hf.arg (by simp)
    have hy' : Ready heap next y' := hf.arg (by simp)
    have haddr : (newOp .ite [c, x, x'] next).expr.check = some (.bv a) := Expr.check_ite' hcc hxc hxc'
    have hdata : (newOp .ite [c, y, y'] (next + 1)).expr.check = some (.bv d) := Expr.check_ite' hcc hyc hyc'
    have h₁ : ∀ b ∈ [c, x, x'], Ready heap next b := by simp [hc, hx, hx']
    have h₂ : ∀ b ∈ [c, y, y'], Ready heap next b ∨ b = newOp .ite [c, x, x'] next := by simp [hc, hy, hy']
    have h₃ : ∀ b ∈ [m, newOp .ite [c, x, x'] next, newOp .ite [c, y, y'] (next + 1)],
        Ready heap next b ∨ b = newOp .ite [c, x, x'] next ∨ b = newOp .ite [c, y, y'] (next + 1) := by simp [hm]
    obtain ⟨heap', hext, hready⟩ := ready_three h₁ (not_isTarget_of_sort haddr rfl) h₂
      (not_isTarget_of_sort hdata rfl) h₃ (not_isTarget_newOp (o := .store) (by simp) _ _)
    exact ⟨heap', hext, hready, check_store' hmc haddr hdata, fun ν => eval_stores ν hcc hmc hxc hyc hxc' hyc'⟩
  · cases h

theorem not_targeted {c t f : Node} {next : Nat} (hptr : t.ptr ≠ f.ptr) (h : rewriteStores c t f next = none) :
    ¬Targeted t f := by
  intro htarget
  cases htarget with
  | same heq => exact hptr heq
  | storeLeft heq => simp [rewriteStores, heq] at h
  | storeRight heq => simp [rewriteStores, heq] at h
  | stores heq => simp [rewriteStores, heq] at h

theorem rewriteOp_mem {heap : Nat → Node} {next p : Nat} {get : Node → Option (Option Node)} {c t f c' t' f' : Node}
    {s : Srt} (hcheck : (Node.app p (.op .ite) [c, t, f]).expr.check = some s) (hmem : s.isMem = true)
    (hrem : (Node.app p (.op .ite) [c, t, f]).expr.noSignedRem = true) (hc : Entry get heap next Image c c')
    (ht : Entry get heap next Image t t') (hf : Entry get heap next Image f f') :
    ∃ n' next' heap', rewriteOp get (.app p (.op .ite) [c, t, f]) next = some (some n', next') ∧
      Allocates heap heap' next next' ∧ n'.Closed heap' next' ∧ Image (.app p (.op .ite) [c, t, f]) n' := by
  have hentries : List.Forall₂ (Entry get heap next Image) [c, t, f] [c', t', f'] := .cons hc (.cons ht (.cons hf .nil))
  obtain ⟨hcc, htc, hfc⟩ := Expr.check_ite hcheck
  have hsort : (Node.app p (.op .ite) [c, t, f]).expr.sort.isMem = true := by rw [Expr.sort_of_check hcheck, hmem]
  have heval : ∀ ν : Valuation, (Expr.op .ite [c'.expr, t'.expr, f'.expr]).eval ν =
      (Node.app p (.op .ite) [c, t, f]).expr.eval ν := fun ν => eval_rebuilt (h := .op .ite) hentries ν
  have hop : rewriteOp get (.app p (.op .ite) [c, t, f]) next =
      if t'.ptr = f'.ptr then some (some t', next)
      else match rewriteStores c' t' f' next with
        | some r => some (some r.1, r.2)
        | none => rewriteOpBase get (.app p (.op .ite) [c, t, f]) next := by
    rw [rewriteOp, if_pos hsort, hc.get_eq, ht.get_eq, hf.get_eq]
    simp only [Option.bind_some, Option.map_some, Option.some.injEq]
  rw [hop]
  by_cases hptr : t'.ptr = f'.ptr
  · obtain rfl := ht.closed.eq_of_ptr hf.closed hptr
    refine ⟨t', next, heap, if_pos rfl, .refl heap next, ht.closed, ?_, fun ν => ?_, ht.img.clean⟩
    · intro u hu
      obtain rfl : s = u := Option.some.inj (hcheck.symm.trans hu)
      exact ht.img.check htc
    · rw [← heval ν, Expr.eval_ite (Expr.check_ite' (hc.img.check hcc) (ht.img.check htc) (hf.img.check hfc)), ite_self]
  · rw [if_neg hptr]
    cases hr : rewriteStores c' t' f' next with
    | some r =>
      obtain ⟨n', next'⟩ := r
      obtain ⟨a, d, rfl⟩ : ∃ a d, s = .mem a d := by
        cases s with
        | bool => cases hmem
        | bv w => cases hmem
        | mem a d => exact ⟨a, d, rfl⟩
      obtain ⟨heap', hext, hready, hcheck', heval'⟩ := rewriteStores_spec ⟨hc.closed, hc.img.clean⟩
        ⟨ht.closed, ht.img.clean⟩ ⟨hf.closed, hf.img.clean⟩ (hc.img.check hcc) (ht.img.check htc) (hf.img.check hfc) hr
      refine ⟨n', next', heap', rfl, hext, hready.closed, ?_, fun ν => (heval' ν).trans (heval ν), hready.clean⟩
      intro u hu
      obtain rfl : Srt.mem a d = u := Option.some.inj (hcheck.symm.trans hu)
      exact hcheck'
    | none =>
      refine rebuild_spec hcheck hrem hentries ?_
      rintro ⟨_, _, _, _, heq, -, htarget⟩
      obtain ⟨-, -, hargs⟩ := Node.app.inj heq
      simp only [List.cons.injEq, and_true] at hargs
      obtain ⟨-, rfl, rfl⟩ := hargs
      exact not_targeted hptr hr htarget

theorem args_of_check_ite {p : Nat} {args : List Node} {s : Srt} (h : (Node.app p (.op .ite) args).expr.check = some s) :
    ∃ c t f, args = [c, t, f] := by
  rw [Node.expr, Expr.check, Option.bind_eq_some_iff] at h
  obtain ⟨ss, hss, hop⟩ := h
  have hlen : ss.length = args.length := by
    rw [← Expr.sortList_of_checkList hss, Expr.sortList_eq_map, Node.exprList_eq_map, List.length_map, List.length_map]
  have hthree : ss.length = 3 := by
    change Op.check .ite ss = some s at hop
    cases ss with
    | nil => cases hop
    | cons a ss =>
      cases a with
      | bv w => cases hop
      | mem a d => cases hop
      | bool =>
        rcases ss with _ | ⟨_, _ | ⟨_, _ | ⟨_, _⟩⟩⟩
        · cases hop
        · cases hop
        · rfl
        · cases hop
  exact List.length_eq_three.mp (hlen.symm.trans hthree)

theorem rewriteOp_spec (base : Nat) : rewriteOp.Spec base Image := by
  constructor
  · intro p l
    refine ⟨fun h => h, fun _ => rfl, fun m hm => ?_⟩
    rw [Node.mem_subs_leaf.mp hm]
    exact not_isTarget_leaf p l
  · intro heap next get p h args args' s _ hcheck hrem hentries
    by_cases hite : h = .op .ite
    · subst hite
      obtain ⟨c, t, f, rfl⟩ := args_of_check_ite hcheck
      cases hmem : s.isMem with
      | true =>
        cases hentries with
        | cons hc hentries =>
          cases hentries with
          | cons ht hentries =>
            cases hentries with
            | cons hf hnil =>
              cases hnil
              exact rewriteOp_mem hcheck hmem hrem hc ht hf
      | false =>
        have hsort : (Node.app p (.op .ite) [c, t, f]).expr.sort.isMem = false := by rw [Expr.sort_of_check hcheck, hmem]
        have hop : rewriteOp get (.app p (.op .ite) [c, t, f]) next =
            rewriteOpBase get (.app p (.op .ite) [c, t, f]) next := by
          rw [rewriteOp, hsort, if_neg (by simp)]
        rw [hop]
        exact rebuild_spec hcheck hrem hentries (not_isTarget_of_sort (check_rebuilt hentries hcheck) hmem)
    · have hop : rewriteOp get (.app p h args) next = rewriteOpBase get (.app p h args) next := by
        unfold rewriteOp
        split
        · rename_i heq
          exact absurd (Node.app.inj heq).2.1 hite
        · rfl
      rw [hop]
      exact rebuild_spec hcheck hrem hentries (not_isTarget_of_ne hite)

end CondStore

/-- `RewriteConditionalStore`. The pointers from `next` on are free. -/
def rewriteConditionalStore (t : NodeIla) (next : Nat) : Option NodeIla :=
  (rewriteGeneric CondStore.rewr t (.init next)).map Prod.fst

/-- The pass goes through every hierarchy whose expressions the rewriter handles. Every expression is replaced by one
that has its value in every valuation, and in which no choice between memories, at any depth, is a target. -/
theorem rewriteConditionalStore_correct (heap : Nat → Node) (next : Nat) (t : NodeIla) (ht : t.Legal false heap next) :
    ∃ t', rewriteConditionalStore t next = some t' ∧
      t.Related (fun e e' => (∀ ν : Valuation, e'.expr.eval ν = e.expr.eval ν) ∧ ∀ m ∈ e'.subs, ¬CondStore.IsTarget m) t' := by
  obtain ⟨t', s', hrun, hrel⟩ := ht.pass (f := CondStore.rewr) (CondStore.rewriteOp_spec next)
    (fun himg h => himg.check h) (fun himg => And.intro himg.eval himg.clean) (fun _ _ => rfl)
    fun h => absurd h Bool.false_ne_true
  refine ⟨t', ?_, hrel⟩
  rw [rewriteConditionalStore, hrun, Option.map_some]

namespace CondStore

def enable : Node := .leaf 0 (.var ⟨0, "en", none, .bool⟩)
def memory : Node := .leaf 1 (.var ⟨1, "m", none, .mem 8 8⟩)
def address : Node := .leaf 2 (.var ⟨2, "a", none, .bv 8⟩)
def datum : Node := .leaf 3 (.var ⟨3, "d", none, .bv 8⟩)
def write : Node := .app 4 (.op .store) [memory, address, datum]
def condWrite : Node := .app 5 (.op .ite) [enable, write, memory]

def writerHeap : Nat → Node
  | 1 => memory
  | 2 => address
  | 3 => datum
  | 4 => write
  | 5 => condWrite
  | _ => enable

/-- An ILA with one instruction, which writes to a memory if it is enabled. -/
def writer : NodeIla := .mk ⟨"top", some enable, none, [⟨"write", some enable, [("m", some condWrite)]⟩]⟩ []

theorem condWrite_closed : condWrite.Closed writerHeap 6 := by
  have hsubs : condWrite.subs = [condWrite, enable, write, memory, address, datum, memory] := rfl
  constructor
  · intro n hn
    simp only [hsubs, List.mem_cons, List.not_mem_nil, or_false] at hn
    rcases hn with rfl | rfl | rfl | rfl | rfl | rfl | rfl <;> rfl
  · intro n hn
    simp only [hsubs, List.mem_cons, List.not_mem_nil, or_false] at hn
    rcases hn with rfl | rfl | rfl | rfl | rfl | rfl | rfl <;> decide

theorem writer_legal : writer.Legal false writerHeap 6 := by
  have hexprs : writer.exprs = [enable, enable, condWrite] := rfl
  have henable : enable.Closed writerHeap 6 := Node.Closed.arg condWrite_closed List.mem_cons_self
  constructor
  · refine .mk (fun i hi => ?_) (by simp)
    obtain rfl := List.mem_singleton.mp hi
    exact ⟨⟨enable, rfl, rfl⟩, by simp⟩
  · simp only [hexprs, List.forall_mem_cons]
    exact ⟨henable, henable, condWrite_closed, by simp⟩
  · simp only [hexprs, List.forall_mem_cons]
    exact ⟨⟨.bool, rfl⟩, ⟨.bool, rfl⟩, ⟨.mem 8 8, rfl⟩, by simp⟩
  · simp only [hexprs, List.forall_mem_cons]
    exact ⟨rfl, rfl, rfl, by simp⟩

end CondStore

theorem rewriteConditionalStore_correct_writer :
    ∃ t', rewriteConditionalStore CondStore.writer 6 = some t' ∧ CondStore.writer.Related
      (fun e e' => (∀ ν : Valuation, e'.expr.eval ν = e.expr.eval ν) ∧ ∀ m ∈ e'.subs, ¬CondStore.IsTarget m) t' :=
  rewriteConditionalStore_correct CondStore.writerHeap 6 CondStore.writer CondStore.writer_legal

end Ilang
