import Ilang.Target.IlaSimExact
import Ilang.Target.IlatorRun

/-!
# Functions of the older simulator

The members that the statements of a function assign to, against the values that Z3 gives the expressions. As with `Ilator` a load makes
an entry in a map, and the reads before a statement are known from the expressions as long as the operands are right.
-/

namespace Ilang

open Smt

namespace IlaSim

section Function

variable {ν : Valuation} {σ : Ilator.Maps ν} {τ : Nat → List Ilator.Read} {past : List Ilator.Read} {heap : Nat → Node}
  {b : Buffer Name Decl} {env : List (Option ScVal)} {roots : List Node}

theorem readsOf_of_ne {o : ExprOp} (ho : o ≠ .load) {s : Srt} {ss : List Srt} {r : Rhs} (h : dfsOp o s ss = some (.inr r))
    (us : List ScVal) : readsOf r us = [] := by
  have hr : ∀ type, r ≠ .load type := by
    rintro type rfl
    cases o <;> simp [dfsOp, dfsUnaryOp, dfsBinaryOpBoolOut, dfsBinaryOpNonMem, dfsBinaryOpMem, dfsExtOp, dfsIteOp, checked] at h ho
    split_ifs at h
    simp_all
  unfold readsOf
  split
  · exact absurd rfl (hr _)
  · rfl

theorem readsAt_of_ne {o : ExprOp} (ho : o ≠ .load) {p : Nat} {args : List Node} : readsAt σ (.app p (.op o) args) = [] := by
  unfold readsAt
  split
  · rename_i heq
    injection heq with _ heq
    injection heq with heq
    exact absurd heq ho
  · rfl

theorem readsOf_load {p : Nat} {m x : Node} {type : Srt} {a : Nat} {i : BitVec a} {u : ScVal} (hag : Agrees u (.bv a i))
    (hlit : u.isLit = lit x) (hx : x.expr.eval ν = some (.bv a i)) :
    (([memOf σ m, some u].mapM id).map (readsOf (.load type))).getD [] = readsAt σ (.app p (.op .load) [m, x]) := by
  have hmap : ([memOf σ m, some u].mapM id).map (readsOf (.load type)) = (memOf σ m).map fun w => readsOf (.load type) [w, u] := by
    cases memOf σ m <;> rfl
  rw [hmap]
  cases m with
  | app q hd args => rfl
  | leaf q l =>
    cases l with
    | const c =>
      have harray : ∀ w, scConst q c = some w → readsOf (.load type) [w, u] = [] := by
        intro w hw
        cases c with
        | bool b => cases hw; rfl
        | bv y n =>
          obtain ⟨-, hw⟩ := Option.ite_none_right_eq_some.mp hw
          cases hw
          rfl
        | mem y vs n d =>
          obtain ⟨-, hw⟩ := Option.ite_none_right_eq_some.mp hw
          cases hw
          rfl
      have hreads : readsAt σ (.app p (.op .load) [.leaf q (.const c), x]) = [] := by
        unfold readsAt
        split
        · rename_i heq
          cases heq
        · rfl
      rw [hreads, memOf]
      cases hw : scConst q c with
      | none => rfl
      | some w => exact harray w hw
    | var v =>
      rw [memOf, Option.map_some, Option.getD_some, readsAt, hx]
      cases scVar σ v with
      | bool b => rfl
      | lit z => rfl
      | big w y => rfl
      | array id a d ws => rfl
      | map v a d f =>
        rw [readsOf, hag.int?, hlit]
        rfl

theorem effect_eq {n : Node} {s : Decl} {t : Srt} (hplan : gen.plan n = some (.inr s)) (hcheck : n.expr.check = some t)
    (hargs : ∀ a ∈ n.args, Ready σ τ a) {ds : List (Option ScVal)} (hds : n.args.mapM ((meaning σ τ).denote gen) = some ds) :
    (effects σ).effect s ds = readsAt σ n := by
  obtain ⟨hkernel, hnode⟩ := exists_plan hplan
  cases n with
  | leaf p l => cases l <;> cases hkernel
  | app p hd args =>
    obtain ⟨v, hv, -⟩ := Expr.eval_of_check hcheck ν
    change ((ds.mapM id).map (readsOf s.rhs)).getD [] = _
    cases hd with
    | appFunc f =>
      rw [dfsKernel, dfsFuncOp, checked] at hkernel
      obtain ⟨-, h⟩ := Option.ite_none_right_eq_some.mp hkernel
      rw [← Sum.inr.inj (Option.some.inj h)]
      change ((ds.mapM id).map fun _ => []).getD [] = []
      cases ds.mapM id <;> rfl
    | op o =>
      by_cases ho : o = .load
      · subst ho
        rw [Node.expr, Expr.eval, Option.bind_eq_some_iff] at hv
        obtain ⟨vs, hvs, hv⟩ := hv
        obtain ⟨a, d, c, i, rfl, -⟩ := Op.select_eq_some (ExprOp.apply_eq_smt hv).2
        obtain ⟨rs, hrs, hops⟩ := exists_operands hargs hvs
        rw [Meaning.denoteList_eq_mapM] at hrs
        obtain rfl : rs = ds := Option.some.inj (hrs.symm.trans hds)
        obtain ⟨m, x, res, res', rfl, rfl, hm, hx⟩ := hops.two
        obtain rfl := hm.memory rfl
        obtain ⟨u, rfl, hag, hlit⟩ := hx.agrees rfl
        have hload : Rhs.load _ = s.rhs := Sum.inr.inj (Option.some.inj hkernel)
        rw [← hload]
        exact readsOf_load hag hlit (Ilator.evalList_two hvs).2
      · rw [readsAt_of_ne ho]
        cases ds.mapM id with
        | none => rfl
        | some us => exact readsOf_of_ne ho hkernel us

theorem leaves_readsAt (hcoded : b.Coded gen Decl.node heap) (hinv : b.Inv (meaning σ τ) gen heap env)
    (hready : ∀ s ∈ b.code, (∃ t, s.head.node.expr.check = some t) ∧ ∀ a ∈ s.head.node.args, Ready σ τ a) :
    (effects σ).Leaves (fun s => readsAt σ s.node) b.code env := by
  intro s hs vs hvs
  obtain ⟨⟨t, ht⟩, hargs⟩ := hready s hs
  obtain ⟨ds, hvals, hds⟩ := hinv.args_value (hcoded.args_inHeap hs) (hcoded.args s hs)
  obtain rfl : vs = ds := by
    rw [← Effects.value_under] at hvs
    exact Option.some.inj (hvs.symm.trans hvals)
  exact effect_eq (hcoded.plan s hs) ht hargs hds

theorem safe_congr {τ' : Nat → List Ilator.Read} (hheap : ∀ n ∈ roots, n.InHeap heap) (hgen : gen.visitList roots .empty = some b)
    (hcoded : b.Coded gen Decl.node heap) (hlogs : ∀ s ∈ b.code, τ s.head.node.ptr = τ' s.head.node.ptr) {n : Node} (hn : n ∈ roots)
    {s : Srt} (hcheck : n.expr.check = some s) (h : Safe σ τ n) : Safe σ τ' n := by
  intro m hm hmem
  have hsafe := h m hm hmem
  cases m with
  | leaf p l =>
    cases l with
    | var v => trivial
    | const c => cases c <;> exact hsafe
  | app p hd args =>
    cases hd with
    | appFunc f => exact hsafe
    | op o =>
      obtain ⟨hknown, hplan⟩ := Emitter.known_and_planned hheap hgen hn hm
      obtain ⟨t, ht⟩ := Node.check_sub hcheck hm
      obtain ⟨r, hr⟩ := exists_statement ht hmem (plan_isSome.mp hplan)
      obtain ⟨st, hst, heq⟩ := hcoded.complete _ ((hheap n hn).sub hm) hknown _ (plan_eq_inr hr)
      have hlog := hlogs st hst
      rw [heq, Node.ptr] at hlog
      rw [SafeAt, hlog] at hsafe
      exact hsafe

theorem right_iff_safe (hheap : ∀ n ∈ roots, n.InHeap heap) (hgen : gen.visitList roots .empty = some b)
    (hwf : ∀ n ∈ roots, n.Positive ∧ ConstsFit n ∧ ∃ s, n.expr.check = some s) :
    (∀ n ∈ roots, ∀ m ∈ n.subs, m.expr.sort.isMem = false →
      ∃ u v, (effects σ).read past b m = some (some u) ∧ m.expr.eval ν = some v ∧ Agrees u v) ↔
      ∀ n ∈ roots, Safe σ (readsBefore σ past b.code) n := by
  obtain ⟨hcoded, hroot⟩ := Emitter.coded_of_roots (fun _ _ h => (exists_plan h).2) hheap hgen
  have hplan : ∀ n ∈ roots, ∀ m ∈ n.subs, (dfsKernel m).isSome := fun n hn m hm =>
    plan_isSome.mp (Emitter.plan_isSome hheap hgen hn hm)
  refine hcoded.read_iff (P := fun read => ∀ n ∈ roots, ∀ m ∈ n.subs, m.expr.sort.isMem = false →
    ∃ u v, read m = some (some u) ∧ m.expr.eval ν = some v ∧ Agrees u v) (Q := fun τ => ∀ n ∈ roots, Safe σ τ n)
    (fun τ => ?_) (fun τ => ?_) (fun τ env h hexec => ?_) fun τ τ' hlogs h n hn => ?_
  · obtain ⟨env, hinv⟩ := Emitter.exists_inv (meaning σ τ) hheap hgen
    exact ⟨env, hinv.exec⟩
  · refine forall₂_congr fun n hn => ?_
    obtain ⟨hpos, hfit, s, hs⟩ := hwf n hn
    rw [← right_subs_iff_safe hs hpos hfit (hplan n hn)]
    refine forall₂_congr fun m hm => imp_congr_right fun _ => ?_
    rw [Right, ← (Emitter.read_eq_denote hheap hgen hn hm).2]
    rfl
  · obtain ⟨env', hinv⟩ := Emitter.exists_inv (meaning σ τ) hheap hgen
    obtain rfl : env = env' := Option.some.inj (hexec.symm.trans hinv.exec)
    refine leaves_readsAt hcoded hinv fun s hs => ?_
    obtain ⟨n, hn, hsub⟩ := hroot s hs
    obtain ⟨hpos, hfit, t, ht⟩ := hwf n hn
    refine ⟨Node.check_sub ht hsub, fun a ha => ready_of_safe ht hpos hfit (hplan n hn) (h n hn) a (Node.subs_trans hsub ?_)⟩
    exact Node.mem_subs_iff.mpr (.inr ⟨a, ha, a.mem_subs_self⟩)
  · obtain ⟨-, -, s, hs⟩ := hwf n hn
    exact safe_congr hheap hgen hcoded hlogs hn hs (h n hn)

end Function

/-- What stands for a node in the text has the value of the Z3 translation of the node, when a function is executed. -/
def Exact (z3 : Z3) (M : Model) (suffix : String) (σ : Ilator.Maps (frame M suffix)) (past : List Ilator.Read) (b : Buffer Name Decl)
    (m : Node) : Prop :=
  ∃ u v, (effects σ).read past b m = some (some u) ∧ (getExpr z3 suffix m.expr).eval M = some v ∧ Agrees u v

/-- The members and the literals of the expressions of a function all have the values of their Z3 translations exactly when every
application in the expressions is safe on the values of its arguments, and on the maps with the entries that the loads above have
made. -/
theorem exact_members_iff_safe (z3 : Z3) (M : Model) (suffix : String) (σ : Ilator.Maps (frame M suffix)) (past : List Ilator.Read)
    {heap : Nat → Node} {roots : List Node} {b : Buffer Name Decl} (hheap : ∀ n ∈ roots, n.InHeap heap)
    (hgen : gen.visitList roots .empty = some b) (hwf : ∀ n ∈ roots, n.Positive ∧ ConstsFit n ∧ ∃ s, n.expr.check = some s) :
    (∀ n ∈ roots, ∀ m ∈ n.subs, m.expr.sort.isMem = false → Exact z3 M suffix σ past b m) ↔
      ∀ n ∈ roots, Safe σ (readsBefore σ past b.code) n := by
  rw [← right_iff_safe hheap hgen hwf]
  refine forall₂_congr fun n hn => forall₂_congr fun m hm => imp_congr_right fun _ => ?_
  obtain ⟨-, -, s, hs⟩ := hwf n hn
  obtain ⟨t, ht⟩ := Node.check_sub hs hm
  rw [Exact, getExpr_eval z3 M suffix ht]

/-! ### Implications of constants -/

theorem constImply_constsFit (a b : Bool) : ConstsFit (Ilator.constImply a b) := by
  rintro m hm p x w rfl
  rcases Ilator.mem_subs_constImply hm with h | h | h
  · cases h
  · cases (Node.leaf.inj h).2
  · cases (Node.leaf.inj h).2

theorem constImply_safe {a b : Bool} (hab : a ≠ b) {ν : Valuation} (σ : Ilator.Maps ν) (τ : Nat → List Ilator.Read) :
    Safe σ τ (Ilator.constImply a b) := by
  intro m hm _
  rcases Ilator.mem_subs_constImply hm with rfl | rfl | rfl
  · intro vs hvs
    obtain rfl : [.bool a, .bool b] = vs := Option.some.inj hvs
    exact ⟨hab, trivial⟩
  · trivial
  · trivial

/-- An implication whose operands differ is right. -/
theorem exact_members_imply : ∃ b, gen.visitList [Ilator.constImply true false] .empty = some b ∧
    ∀ n ∈ [Ilator.constImply true false], ∀ m ∈ n.subs, m.expr.sort.isMem = false →
      Exact default default "" (Ilator.Maps.full (frame default "")) [] b m := by
  obtain ⟨b, hb⟩ : ∃ b, gen.visitList [Ilator.constImply true false] .empty = some b := ⟨_, rfl⟩
  have hwf : ∀ n ∈ [Ilator.constImply true false], n.Positive ∧ ConstsFit n ∧ ∃ s, n.expr.check = some s :=
    List.forall_mem_singleton.mpr ⟨Ilator.constImply_positive true false, constImply_constsFit true false, .bool, rfl⟩
  refine ⟨b, hb, (exact_members_iff_safe default default "" (Ilator.Maps.full (frame default "")) []
    (Ilator.constImply_inHeap true false) hb hwf).mpr ?_⟩
  exact List.forall_mem_singleton.mpr (constImply_safe (by decide) _ _)

/-- The member of an implication with a false premise and a false conclusion is false. -/
theorem exact_members_fail_at_imply : ¬∀ (z3 : Z3) (M : Model) (suffix : String) (σ : Ilator.Maps (frame M suffix))
    (past : List Ilator.Read) (heap : Nat → Node) (n : Node) (b : Buffer Name Decl), (∀ m ∈ [n], m.InHeap heap) →
    gen.visitList [n] .empty = some b → ∀ s, n.expr.check = some s → n.Positive → ConstsFit n → s.isMem = false →
    Exact z3 M suffix σ past b n := by
  intro h
  obtain ⟨b, hb⟩ : ∃ b, gen.visitList [Ilator.constImply false false] .empty = some b := ⟨_, rfl⟩
  obtain ⟨u, v, hu, hv, hag⟩ := h default default "" (Ilator.Maps.full _) [] (Ilator.constImplyHeap false false)
    (Ilator.constImply false false) b (Ilator.constImply_inHeap false false) hb .bool rfl
    (Ilator.constImply_positive false false) (constImply_constsFit false false) rfl
  rw [getExpr_eval default default "" (e := (Ilator.constImply false false).expr) (s := .bool) rfl] at hv
  obtain rfl := Option.some.inj hb
  obtain rfl : ScVal.bool false = u := Option.some.inj (Option.some.inj hu)
  obtain rfl : Value.bool true = v := Option.some.inj hv
  cases hag

end IlaSim

end Ilang
