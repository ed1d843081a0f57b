import Ilang.Ila.AstHub
import Ilang.Mngr.RewriteGeneric
import Ilang.Mngr.Trace

/-!
# Semantic simplification

Every update of a hierarchy is replaced by the first of its sub-expressions, in post-order, that the solver finds equal
to it under the valid condition of the host and the decode. The solver may give up, and it may throw: what is thrown is
caught for each ILA, whose remaining updates stay.
-/

namespace Ilang

open Smt

/-- A solver that is sound when it answers `unsat`. There is no answer when it throws. -/
structure Refuter where
  unsat : Term → Option Bool
  sound : ∀ t, unsat t = some true → ∀ M : Model, ¬M.Sat t

namespace Refuter

open Classical in
/-- The solver that always finds out. -/
noncomputable def exact : Refuter where
  unsat t := some (decide (∀ M : Model, ¬M.Sat t))
  sound t h := by simpa using h

theorem exact_unsat {t : Term} (h : ∀ M : Model, ¬M.Sat t) : exact.unsat t = some true := by
  simpa [exact] using h

end Refuter

/-! ### The function object -/

/-- The members of `FuncObjEqSubtree` that change: the table, by pointer, and the candidate. -/
structure EqSubtree where
  rule : Nat → Option Node
  candidate : Option Node

namespace EqSubtree

def init : EqSubtree := ⟨fun _ => none, none⟩

section Visit

variable (z3 : Z3) (r : Refuter) (target : Node) (assump : Expr)

/-- What `CheckEqModAssump` gives to the solver. -/
def query (e : Node) : Term :=
  (getExpr z3 "" assump).conj ((getExpr z3 "" e.expr).eq (getExpr z3 "" target.expr)).neg

def checkEqModAssump (e : Node) : Option Bool := r.unsat (query z3 target assump e)

/-- `FuncObjEqSubtree::Rewrite`. -/
def rewrite (e : Node) (s : EqSubtree) : Option (Node × EqSubtree) :=
  if e.ptr = target.ptr then some (s.candidate.getD e, s)
  else if s.candidate.isNone ∧ e.expr.sort = target.expr.sort then
    (checkEqModAssump z3 r target assump e).map fun eq => (e, if eq then { s with candidate := some e } else s)
  else some (e, s)

/-- `rule_.insert`. -/
def insert (e dst : Node) (s : EqSubtree) : EqSubtree :=
  { s with rule := if (s.rule e.ptr).isSome then s.rule else Function.update s.rule e.ptr (some dst) }

def post (e : Node) (s : EqSubtree) : Option EqSubtree :=
  (rewrite z3 r target assump e s).map fun q => q.2.insert e q.1

mutual

/-- `DepthFirstVisitPrePost` with `pre` and `post`. -/
def visit : Node → EqSubtree → Option EqSubtree
  | .leaf p l, s => if (s.rule p).isSome then some s else post z3 r target assump (.leaf p l) s
  | .app p h args, s =>
    if (s.rule p).isSome then some s else (visitList args s).bind (post z3 r target assump (.app p h args))

def visitList : List Node → EqSubtree → Option EqSubtree
  | [], s => some s
  | a :: as, s => (visit a s).bind (visitList as)

end

end Visit

end EqSubtree

/-! ### The pass -/

section Pass

variable (z3 : Z3) (r : Refuter)

/-- `SimpEqSubtree`. The outer `none` is a check that fails, the nested one is an exception. -/
def simpEqSubtree (valid decode : Option Node) (e : Node) : Option (Option Node) :=
  valid.bind fun v => decode.bind fun d =>
    match EqSubtree.visit z3 r e (.and v.expr d.expr) e .init with
    | none => some none
    | some s => (s.rule e.ptr).map some

/-- The loop over the updated states, and whether it came to its end. -/
def simplifyUpdates (valid decode : Option Node) : List (String × Option Node) → Option (List (String × Option Node) × Bool)
  | [] => some ([], true)
  | u :: us => u.2.bind fun e => (simpEqSubtree z3 r valid decode e).bind fun new =>
    match new with
    | none => some (u :: us, false)
    | some e' => (simplifyUpdates valid decode us).map fun q => ((u.1, some e') :: q.1, q.2)

/-- The loop over the instructions of an ILA. -/
def simplifyInstrs (valid : Option Node) : List NodeInstr → Option (List NodeInstr)
  | [] => some []
  | i :: is => (simplifyUpdates z3 r valid i.decode i.updates).bind fun q =>
    if q.2 then (simplifyInstrs valid is).map ({ i with updates := q.1 } :: ·) else some ({ i with updates := q.1 } :: is)

mutual

/-- `SimplifySemantic`, children first. -/
def simplifySemantic : NodeIla → Option NodeIla
  | .mk d cs => (simplifySemanticList cs).bind fun cs' =>
    (simplifyInstrs z3 r d.valid d.instrs).map fun is => .mk { d with instrs := is } cs'

def simplifySemanticList : List NodeIla → Option (List NodeIla)
  | [] => some []
  | c :: cs => (simplifySemantic c).bind fun c' => (simplifySemanticList cs).map (c' :: ·)

end

end Pass

/-! ### What is preserved -/

/-- An update and the conditions that it is simplified under. -/
structure UpdateSite where
  valid : Option Node
  decode : Option Node
  update : Option Node

/-- The two updates have one value where the conditions hold. -/
def UpdateSite.Equal (u : UpdateSite) (e e' : Node) : Prop :=
  ∀ ν : Valuation, (∀ v ∈ u.valid, ν.Holds v.expr) → (∀ d ∈ u.decode, ν.Holds d.expr) → e'.expr.eval ν = e.expr.eval ν

/-- The same instruction, with updates that are equal where it is enabled. -/
structure NodeInstr.Simplifies (valid : Option Node) (i i' : NodeInstr) : Prop where
  name : i'.name = i.name
  decode : i'.decode = i.decode
  updates : List.Forall₂ (fun u u' => u.1 = u'.1 ∧ Option.Rel (UpdateSite.Equal ⟨valid, i.decode, u.2⟩) u.2 u'.2)
    i.updates i'.updates

structure NodeData.Simplifies (d d' : NodeData) : Prop where
  name : d'.name = d.name
  valid : d'.valid = d.valid
  fetch : d'.fetch = d.fetch
  instrs : List.Forall₂ (NodeInstr.Simplifies d.valid) d.instrs d'.instrs

/-- The same hierarchy, with instructions that do the same where they are enabled. -/
inductive NodeIla.Simplifies : NodeIla → NodeIla → Prop
  | mk {d d' : NodeData} {cs cs' : List NodeIla} : d.Simplifies d' → List.Forall₂ Simplifies cs cs' →
    Simplifies (.mk d cs) (.mk d' cs')

/-- What the pass needs of an update: nothing is null, the expressions are well-sorted, and different variables have
different names in the solver. -/
inductive UpdateSite.Ready : UpdateSite → Prop
  | mk {v d e : Node} {heap : Nat → Node} {s : Srt} : v.expr.check = some .bool → d.expr.check = some .bool →
    e.expr.check = some s → e.InHeap heap →
    Separate ([v, d, e].flatMap fun n => n.expr.atoms) ([v, d, e].flatMap fun n => n.expr.funcs) →
    Ready ⟨some v, some d, some e⟩

def NodeData.sites (d : NodeData) : List UpdateSite :=
  d.instrs.flatMap fun i => i.updates.map fun u => ⟨d.valid, i.decode, u.2⟩

/-- Every update of the hierarchy is ready. -/
inductive NodeIla.Ready : NodeIla → Prop
  | mk {d : NodeData} {cs : List NodeIla} : (∀ u ∈ d.sites, u.Ready) → (∀ c ∈ cs, Ready c) → Ready (.mk d cs)

/-! ### The candidate -/

namespace Node

theorem atoms_arg {p : Nat} {h : Head} {args : List Node} {a : Node} (ha : a ∈ args) {x : Atom} (hx : x ∈ a.expr.atoms) :
    x ∈ (Node.app p h args).expr.atoms := by
  have hmem : x ∈ Expr.atomsList (exprList args) := by
    rw [Expr.mem_atomsList, exprList_eq_map]
    exact ⟨a.expr, List.mem_map_of_mem ha, hx⟩
  cases h with
  | op o => exact hmem
  | appFunc f =>
    have hne : (exprList args).isEmpty = false := by
      cases args with
      | nil => cases ha
      | cons b bs => rfl
    rw [expr, Expr.atoms, hne]
    exact hmem

theorem funcs_arg {p : Nat} {h : Head} {args : List Node} {a : Node} (ha : a ∈ args) {f : Func} (hf : f ∈ a.expr.funcs) :
    f ∈ (Node.app p h args).expr.funcs := by
  have hmem : f ∈ Expr.funcsList (exprList args) := by
    rw [Expr.mem_funcsList, exprList_eq_map]
    exact ⟨a.expr, List.mem_map_of_mem ha, hf⟩
  cases h with
  | op o => exact hmem
  | appFunc g => exact List.mem_cons_of_mem g hmem

theorem atoms_sub {n m : Node} (hm : m ∈ n.subs) {x : Atom} (hx : x ∈ m.expr.atoms) : x ∈ n.expr.atoms := by
  induction n using ind with
  | leaf p l =>
    rw [mem_subs_leaf.mp hm] at hx
    exact hx
  | app p h args ih =>
    rcases mem_subs_app.mp hm with rfl | ⟨a, ha, hma⟩
    · exact hx
    · exact atoms_arg ha (ih a ha hma)

theorem funcs_sub {n m : Node} (hm : m ∈ n.subs) {f : Func} (hf : f ∈ m.expr.funcs) : f ∈ n.expr.funcs := by
  induction n using ind with
  | leaf p l =>
    rw [mem_subs_leaf.mp hm] at hf
    exact hf
  | app p h args ih =>
    rcases mem_subs_app.mp hm with rfl | ⟨a, ha, hma⟩
    · exact hf
    · exact funcs_arg ha (ih a ha hma)

end Node

namespace EqSubtree

variable {z3 : Z3} {r : Refuter}

theorem eval_eq_of_unsat {as : List Atom} {fs : List Func} (hsep : Separate as fs) {assump : Expr} {target e : Node}
    {s : Srt} (hassump : assump.check = some .bool) (htarget : target.expr.check = some s) (he : e.expr.check = some s)
    (hatoms : ∀ n ∈ [assump, target.expr, e.expr], ∀ a ∈ n.atoms, a ∈ as)
    (hfuncs : ∀ n ∈ [assump, target.expr, e.expr], ∀ f ∈ n.funcs, f ∈ fs)
    (h : checkEqModAssump z3 r target assump e = some true) (ν : Valuation) (hν : ν.Holds assump) :
    e.expr.eval ν = target.expr.eval ν := by
  obtain ⟨M, hM⟩ := hsep.exists_frame ν
  have heval : ∀ n ∈ [assump, target.expr, e.expr], n.eval (frame M "") = n.eval ν := fun n hn =>
    hM n (hatoms n hn) (hfuncs n hn)
  obtain ⟨u, hu, husort⟩ := Expr.eval_of_check he ν
  obtain ⟨v, hv, hvsort⟩ := Expr.eval_of_check htarget ν
  have hcan : (getExpr z3 "" e.expr).eval M = some u := by
    rw [getExpr_eval z3 M "" he, heval _ (by simp), hu]
  have htar : (getExpr z3 "" target.expr).eval M = some v := by
    rw [getExpr_eval z3 M "" htarget, heval _ (by simp), hv]
  by_contra hne
  refine r.sound _ h M ?_
  rw [query, Term.sat_conj, sat_getExpr hassump, Valuation.Holds, heval _ (by simp),
    Term.sat_neg_eq hcan htar (husort.trans hvsort.symm)]
  refine ⟨hν, fun huv => hne ?_⟩
  rw [hu, hv, huv]

/-- What is known of the target: `Good` are the sub-expressions that may stand in for it. -/
structure Inv (target : Node) (Good : Node → Prop) (s : EqSubtree) : Prop where
  candidate : ∀ c ∈ s.candidate, Good c
  rule : ∀ dst, s.rule target.ptr = some dst → Good dst

theorem inv_init (target : Node) (Good : Node → Prop) : init.Inv target Good :=
  ⟨fun c hc => by simp [init] at hc, fun dst h => by simp [init] at h⟩

section Visit

variable {target : Node} {assump : Expr} {Good : Node → Prop}
  (hgood : ∀ e ∈ target.subs, e.expr.sort = target.expr.sort → checkEqModAssump z3 r target assump e = some true → Good e)
  (hself : Good target) {heap : Nat → Node} (hheap : target.InHeap heap)
include hgood hself hheap

theorem post_spec {e : Node} (he : e ∈ target.subs) {s s' : EqSubtree} (hs : s.Inv target Good)
    (h : post z3 r target assump e s = some s') : s'.Inv target Good ∧ (s'.rule e.ptr).isSome := by
  rw [post, Option.map_eq_some_iff] at h
  obtain ⟨⟨dst, s₁⟩, hrewrite, rfl⟩ := h
  have hrule : (s₁.rule = s.rule) ∧ (∀ c ∈ s₁.candidate, Good c) ∧ (e.ptr = target.ptr → Good dst) := by
    rw [rewrite] at hrewrite
    split at hrewrite
    · rename_i hptr
      simp only [Option.some.injEq, Prod.mk.injEq] at hrewrite
      obtain ⟨rfl, rfl⟩ := hrewrite
      refine ⟨rfl, hs.candidate, fun _ => ?_⟩
      obtain rfl : e = target := by rw [← hheap e he, hptr, hheap target target.mem_subs_self]
      cases hc : s.candidate with
      | none => exact hself
      | some c => exact hs.candidate c hc
    · rename_i hptr
      split at hrewrite
      · rename_i hcond
        rw [Option.map_eq_some_iff] at hrewrite
        obtain ⟨eq, hcheck, heq⟩ := hrewrite
        simp only [Prod.mk.injEq] at heq
        obtain ⟨rfl, rfl⟩ := heq
        cases eq with
        | false => exact ⟨rfl, hs.candidate, fun hp => absurd hp hptr⟩
        | true =>
          refine ⟨rfl, fun c hc => ?_, fun hp => absurd hp hptr⟩
          obtain rfl : e = c := by simpa using hc
          exact hgood e he hcond.2 hcheck
      · simp only [Option.some.injEq, Prod.mk.injEq] at hrewrite
        obtain ⟨rfl, rfl⟩ := hrewrite
        exact ⟨rfl, hs.candidate, fun hp => absurd hp hptr⟩
  obtain ⟨hkeep, hcand, hdst⟩ := hrule
  rw [insert, hkeep]
  by_cases hsome : (s.rule e.ptr).isSome
  · rw [if_pos hsome]
    exact ⟨⟨hcand, hs.rule⟩, hsome⟩
  · rw [if_neg hsome]
    refine ⟨⟨hcand, fun d hd => ?_⟩, by simp⟩
    by_cases hp : target.ptr = e.ptr
    · obtain rfl : dst = d := by simpa [hp] using hd
      exact hdst hp.symm
    · exact hs.rule d (by simpa [Function.update_of_ne hp] using hd)

omit hgood hself hheap in
theorem visitList_spec {args : List Node}
    (ih : ∀ a ∈ args, ∀ {s s' : EqSubtree}, s.Inv target Good → visit z3 r target assump a s = some s' →
      s'.Inv target Good ∧ (s'.rule a.ptr).isSome)
    {s s' : EqSubtree} (hs : s.Inv target Good) (h : visitList z3 r target assump args s = some s') :
    s'.Inv target Good := by
  induction args generalizing s with
  | nil =>
    rw [visitList, Option.some.injEq] at h
    subst h
    exact hs
  | cons a as ihas =>
    rw [visitList, Option.bind_eq_some_iff] at h
    obtain ⟨s₁, hvisit, hlist⟩ := h
    exact ihas (fun b hb => ih b (List.mem_cons_of_mem a hb)) (ih a List.mem_cons_self hs hvisit).1 hlist

theorem visit_spec {e : Node} (he : e ∈ target.subs) {s s' : EqSubtree} (hs : s.Inv target Good)
    (h : visit z3 r target assump e s = some s') : s'.Inv target Good ∧ (s'.rule e.ptr).isSome := by
  induction e using Node.ind generalizing s s' with
  | leaf p l =>
    rw [visit] at h
    by_cases hrule : (s.rule p).isSome
    · rw [if_pos hrule, Option.some.injEq] at h
      subst h
      exact ⟨hs, hrule⟩
    · rw [if_neg hrule] at h
      exact post_spec hgood hself hheap he hs h
  | app p hd args ih =>
    rw [visit] at h
    by_cases hrule : (s.rule p).isSome
    · rw [if_pos hrule, Option.some.injEq] at h
      subst h
      exact ⟨hs, hrule⟩
    · rw [if_neg hrule, Option.bind_eq_some_iff] at h
      obtain ⟨s₁, hlist, hpost⟩ := h
      have harg : ∀ a ∈ args, a ∈ target.subs := fun a ha =>
        Node.subs_trans he (Node.arg_mem_subs ha)
      have hs₁ := visitList_spec (fun a ha _ _ hs h => ih a ha (harg a ha) hs h) hs hlist
      exact post_spec hgood hself hheap he hs₁ hpost

end Visit

end EqSubtree

/-! ### From an update to the hierarchy -/

section Lift

variable (z3 : Z3) (r : Refuter)

theorem simpEqSubtree_spec {valid decode : Option Node} {e : Node} (h : UpdateSite.Ready ⟨valid, decode, some e⟩) :
    ∃ new, simpEqSubtree z3 r valid decode e = some new ∧ ∀ e' ∈ new, UpdateSite.Equal ⟨valid, decode, some e⟩ e e' := by
  cases h with
  | @mk v d e heap s hv hd he hheap hsep =>
    have hassump : (Expr.and v.expr d.expr).check = some .bool := Expr.check_and.mpr ⟨hv, hd⟩
    have hgood : ∀ x ∈ e.subs, x.expr.sort = e.expr.sort →
        EqSubtree.checkEqModAssump z3 r e (.and v.expr d.expr) x = some true →
        UpdateSite.Equal ⟨some v, some d, some e⟩ e x := by
      intro x hx hsort hcheck ν hvalid hdecode
      obtain ⟨t, ht⟩ := Node.check_sub he hx
      obtain rfl : t = s := by rw [← Expr.sort_of_check ht, hsort, Expr.sort_of_check he]
      refine EqSubtree.eval_eq_of_unsat hsep hassump he ht ?_ ?_ hcheck ν
        (Expr.holds_and.mpr ⟨hvalid v rfl, hdecode d rfl⟩)
      · simp only [List.forall_mem_cons, Expr.and, Expr.mem_atoms_pair, List.flatMap_cons, List.mem_append]
        exact ⟨fun a ha => by tauto, fun a ha => by tauto, fun a ha => .inr (.inr (.inl (Node.atoms_sub hx ha))), by simp⟩
      · simp only [List.forall_mem_cons, Expr.and, Expr.mem_funcs_pair, List.flatMap_cons, List.mem_append]
        exact ⟨fun f hf => by tauto, fun f hf => by tauto, fun f hf => .inr (.inr (.inl (Node.funcs_sub hx hf))), by simp⟩
    rw [simpEqSubtree, Option.bind_some, Option.bind_some]
    cases hvisit : EqSubtree.visit z3 r e (.and v.expr d.expr) e .init with
    | none => exact ⟨none, rfl, by simp⟩
    | some st =>
      have hself : UpdateSite.Equal ⟨some v, some d, some e⟩ e e := fun ν _ _ => rfl
      obtain ⟨hinv, hrule⟩ :=
        EqSubtree.visit_spec hgood hself hheap e.mem_subs_self (EqSubtree.inv_init e _) hvisit
      obtain ⟨e', he'⟩ := Option.isSome_iff_exists.mp hrule
      refine ⟨some e', congrArg (Option.map some) he', fun x hx => ?_⟩
      obtain rfl := Option.some.inj hx
      exact hinv.rule e' he'

/-- The relation between the updates of an instruction before and after. -/
def UpdatesEqual (valid decode : Option Node) (us us' : List (String × Option Node)) : Prop :=
  List.Forall₂ (fun u u' => u.1 = u'.1 ∧ Option.Rel (UpdateSite.Equal ⟨valid, decode, u.2⟩) u.2 u'.2) us us'

theorem updatesEqual_refl (valid decode : Option Node) (us : List (String × Option Node)) : UpdatesEqual valid decode us us := by
  refine List.forall₂_same.mpr fun u _ => ⟨rfl, ?_⟩
  cases u.2 with
  | none => exact .none
  | some e => exact .some fun ν _ _ => rfl

theorem simplifyUpdates_spec {valid decode : Option Node} {us : List (String × Option Node)}
    (h : ∀ u ∈ us, UpdateSite.Ready ⟨valid, decode, u.2⟩) :
    ∃ us' b, simplifyUpdates z3 r valid decode us = some (us', b) ∧ UpdatesEqual valid decode us us' := by
  induction us with
  | nil => exact ⟨[], true, rfl, .nil⟩
  | cons u us ih =>
    obtain ⟨name, e⟩ := u
    rw [List.forall_mem_cons] at h
    obtain ⟨e, rfl⟩ : ∃ n, e = some n := by
      cases h.1
      exact ⟨_, rfl⟩
    obtain ⟨new, hnew, hequal⟩ := simpEqSubtree_spec z3 r h.1
    rw [simplifyUpdates, Option.bind_some, hnew, Option.bind_some]
    cases new with
    | none => exact ⟨_, false, rfl, updatesEqual_refl valid decode _⟩
    | some e' =>
      obtain ⟨us', b, hus, hrel⟩ := ih h.2
      refine ⟨(name, some e') :: us', b, ?_, .cons ⟨rfl, .some (hequal e' rfl)⟩ hrel⟩
      simp only [hus, Option.map_some]

theorem simplifies_refl (valid : Option Node) (i : NodeInstr) : i.Simplifies valid i :=
  ⟨rfl, rfl, updatesEqual_refl valid i.decode i.updates⟩

theorem simplifyInstrs_spec {valid : Option Node} {is : List NodeInstr}
    (h : ∀ i ∈ is, ∀ u ∈ i.updates, UpdateSite.Ready ⟨valid, i.decode, u.2⟩) :
    ∃ is', simplifyInstrs z3 r valid is = some is' ∧ List.Forall₂ (NodeInstr.Simplifies valid) is is' := by
  induction is with
  | nil => exact ⟨[], rfl, .nil⟩
  | cons i is ih =>
    rw [List.forall_mem_cons] at h
    obtain ⟨us', b, hus, hrel⟩ := simplifyUpdates_spec z3 r h.1
    rw [simplifyInstrs, hus, Option.bind_some]
    cases b with
    | false => exact ⟨_, rfl, .cons ⟨rfl, rfl, hrel⟩ (List.forall₂_same.mpr fun j _ => simplifies_refl valid j)⟩
    | true =>
      obtain ⟨is', his, hrels⟩ := ih h.2
      refine ⟨{ i with updates := us' } :: is', ?_, .cons ⟨rfl, rfl, hrel⟩ hrels⟩
      rw [if_pos rfl, his, Option.map_some]

theorem simplifySemanticList_spec {cs : List NodeIla}
    (ih : ∀ c ∈ cs, ∃ c', simplifySemantic z3 r c = some c' ∧ c.Simplifies c') :
    ∃ cs', simplifySemanticList z3 r cs = some cs' ∧ List.Forall₂ NodeIla.Simplifies cs cs' := by
  induction cs with
  | nil => exact ⟨[], by rw [simplifySemanticList], .nil⟩
  | cons c cs ihcs =>
    rw [List.forall_mem_cons] at ih
    obtain ⟨c', hc, hrel⟩ := ih.1
    obtain ⟨cs', hcs, hrels⟩ := ihcs ih.2
    refine ⟨c' :: cs', ?_, .cons hrel hrels⟩
    rw [simplifySemanticList, hc, Option.bind_some, hcs, Option.map_some]

end Lift

/-- The pass goes through every hierarchy, and each instruction does after it what it did before. -/
theorem simplifySemantic_preserves (z3 : Z3) (r : Refuter) (t : NodeIla) (ht : t.Ready) :
    ∃ t', simplifySemantic z3 r t = some t' ∧ t.Simplifies t' := by
  induction t using NodeIla.ind with
  | mk d cs ih =>
    cases ht with
    | mk hd hcs =>
      obtain ⟨cs', hcs', hrels⟩ := simplifySemanticList_spec z3 r fun c hc => ih c hc (hcs c hc)
      have hsites : ∀ i ∈ d.instrs, ∀ u ∈ i.updates, UpdateSite.Ready ⟨d.valid, i.decode, u.2⟩ := fun i hi u hu =>
        hd _ (List.mem_flatMap.mpr ⟨i, hi, List.mem_map_of_mem hu⟩)
      obtain ⟨is', his, hrel⟩ := simplifyInstrs_spec z3 r hsites
      refine ⟨.mk { d with instrs := is' } cs', ?_, .mk ⟨rfl, rfl, rfl, hrel⟩ hrels⟩
      rw [simplifySemantic, hcs', Option.bind_some, his, Option.map_some]

namespace SimplifyTest

/-- The variables of two ILAs of one hierarchy: `c` below `b` below `a`, and `b.c` below `a`. -/
def nested : Node := .leaf 1 (.var ⟨1, "x", some "a.b.c", .bool⟩)
def dotted : Node := .leaf 2 (.var ⟨2, "x", some "a.b.c", .bool⟩)
def always : Node := .leaf 3 (.const (.bool true))

/-- An instruction that compares a variable, which is set where it is decoded, with another one. -/
def comparing (other : Node) : NodeIla :=
  .mk ⟨"a", some always, none, [⟨"go", some nested, [("y", some (.app 4 (.op .eq) [nested, other]))]⟩]⟩ []

/-- The other variable under a name of its own. -/
def apart : Node := .leaf 2 (.var ⟨2, "z", some "a.b.c", .bool⟩)

theorem comparing_ready : (comparing apart).Ready := by
  refine .mk (fun u hu => ?_) fun c hc => by cases hc
  obtain rfl : u = ⟨some always, some nested, some (.app 4 (.op .eq) [nested, apart])⟩ := by
    simpa [NodeData.sites] using hu
  have hheap : (Node.app 4 (.op .eq) [nested, apart]).InHeap fun p =>
      if p = 4 then .app 4 (.op .eq) [nested, apart] else if p = 1 then nested else apart := by
    intro m hm
    have hsubs : (Node.app 4 (.op .eq) [nested, apart]).subs = [.app 4 (.op .eq) [nested, apart], nested, apart] := rfl
    simp only [hsubs, List.mem_cons, List.not_mem_nil, or_false] at hm
    rcases hm with rfl | rfl | rfl <;> rfl
  refine .mk (s := .bool) rfl rfl rfl hheap ⟨?_, fun f hf => by cases hf⟩
  decide

end SimplifyTest

open SimplifyTest in
theorem simplifySemantic_preserves_comparing :
    ∃ t', simplifySemantic default .exact (comparing apart) = some t' ∧ (comparing apart).Simplifies t' :=
  simplifySemantic_preserves default .exact (comparing apart) comparing_ready

namespace SimplifyTest

theorem check_comparing : EqSubtree.checkEqModAssump default .exact (.app 4 (.op .eq) [nested, dotted])
    (.and always.expr nested.expr) nested = some true := by
  refine Refuter.exact_unsat fun M hM => ?_
  rw [EqSubtree.query, Term.sat_conj, sat_getExpr rfl, Expr.holds_and] at hM
  obtain ⟨⟨-, hinner⟩, hne⟩ := hM
  have hdotted : (frame M "").Holds dotted.expr := hinner
  have htarget : (frame M "").Holds (Node.app 4 (.op .eq) [nested, dotted]).expr := Expr.holds_eq.mpr ⟨_, hinner, hdotted⟩
  have hcan : (getExpr default "" nested.expr).eval M = some (.bool true) := by
    rw [getExpr_eval (s := .bool) default M "" rfl]
    exact hinner
  have htar : (getExpr default "" (Node.app 4 (.op .eq) [nested, dotted]).expr).eval M = some (.bool true) := by
    rw [getExpr_eval (s := .bool) default M "" rfl]
    exact htarget
  exact (Term.sat_neg_eq hcan htar rfl).mp hne rfl

/-- The two variables have different values. -/
def differing : Valuation where
  atom a := if a = .var ⟨1, "x", some "a.b.c", .bool⟩ then .bool true else a.sort.default
  atom_sort a := by
    split
    · rename_i h
      rw [h]
      rfl
    · exact a.sort.sort_default
  func f _ := f.out.default
  func_sort := func_default_sort

end SimplifyTest

open SimplifyTest in
/-- The comparison is replaced by its first operand, although the other one can be false. -/
theorem simplifySemantic_merges_names :
    ∃ t', simplifySemantic default .exact (comparing dotted) = some t' ∧ ¬(comparing dotted).Simplifies t' := by
  have hnew : simpEqSubtree default .exact (some always) (some nested) (.app 4 (.op .eq) [nested, dotted]) =
      some (some nested) := by
    let s₁ : EqSubtree := ⟨Function.update (fun _ => none) 1 (some nested), some nested⟩
    have h₁ : EqSubtree.post default .exact (.app 4 (.op .eq) [nested, dotted]) (.and always.expr nested.expr) nested .init =
        some s₁ := by
      rw [EqSubtree.post, EqSubtree.rewrite, if_neg (by decide), if_pos ⟨rfl, rfl⟩, check_comparing]
      rfl
    have h₂ : EqSubtree.post default .exact (.app 4 (.op .eq) [nested, dotted]) (.and always.expr nested.expr) dotted s₁ =
        some (s₁.insert dotted dotted) := by
      rw [EqSubtree.post, EqSubtree.rewrite, if_neg (by decide), if_neg (by simp [s₁])]
      rfl
    have h₃ : EqSubtree.post default .exact (.app 4 (.op .eq) [nested, dotted]) (.and always.expr nested.expr)
        (.app 4 (.op .eq) [nested, dotted]) (s₁.insert dotted dotted) =
        some ((s₁.insert dotted dotted).insert (.app 4 (.op .eq) [nested, dotted]) nested) := rfl
    have hvisit : EqSubtree.visit default .exact (.app 4 (.op .eq) [nested, dotted]) (.and always.expr nested.expr)
        (.app 4 (.op .eq) [nested, dotted]) .init =
        some ((s₁.insert dotted dotted).insert (.app 4 (.op .eq) [nested, dotted]) nested) := by
      have hnested : EqSubtree.visit default .exact (.app 4 (.op .eq) [nested, dotted]) (.and always.expr nested.expr) nested
          .init = some s₁ := by
        nth_rewrite 3 [nested]
        rw [EqSubtree.visit, if_neg (by simp [EqSubtree.init])]
        exact h₁
      have hdotted : EqSubtree.visit default .exact (.app 4 (.op .eq) [nested, dotted]) (.and always.expr nested.expr) dotted
          s₁ = some (s₁.insert dotted dotted) := by
        nth_rewrite 2 [dotted]
        rw [EqSubtree.visit, if_neg (by simp [s₁])]
        exact h₂
      rw [EqSubtree.visit, if_neg (by simp [EqSubtree.init]), EqSubtree.visitList, hnested, Option.bind_some,
        EqSubtree.visitList, hdotted, Option.bind_some, EqSubtree.visitList, Option.bind_some]
      exact h₃
    rw [simpEqSubtree, Option.bind_some, Option.bind_some, hvisit]
    rfl
  refine ⟨.mk ⟨"a", some always, none, [⟨"go", some nested, [("y", some nested)]⟩]⟩ [], ?_, fun h => ?_⟩
  · rw [comparing, simplifySemantic, simplifySemanticList, Option.bind_some, simplifyInstrs, simplifyUpdates]
    simp only [Option.bind_some, hnew]
    rfl
  · cases h with
    | mk hd _ =>
      cases hd.instrs with
      | cons hi _ =>
        cases hi.updates with
        | cons hu _ =>
          cases hu.2 with
          | some heq =>
            have hval := heq differing (fun v hv => by cases hv; rfl) (fun d hd => by cases hd; rfl)
            cases hval

end Ilang
