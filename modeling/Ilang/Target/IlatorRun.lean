import Ilang.Target.IlatorExact

/-!
# Functions of the generated SystemC

A function is executed from top to bottom, and its loads make entries in the maps that later comparisons of memories see. The reads
before a statement are known from the expressions as long as the addresses are right, so that the locals of a function are all right
exactly when every node of its expressions is safe on the maps with these reads.
-/

namespace Ilang

open Smt

namespace Ilator

section Function

variable {ν : Valuation} {σ : Maps ν} {τ : Nat → List Read} {past : List Read} {heap : Nat → Node} {b : Buffer Name Decl}
  {env : List (Option ScVal)} {roots : List Node}

theorem readsOf_of_ne {o : ExprOp} (ho : o ≠ .load) {s : Srt} {args : List Node} {r : Rhs} (h : dfsOp o s args = some r)
    (us : List ScVal) : readsOf r us = [] := by
  have hr : r ≠ .load := by
    rintro rfl
    unfold dfsOp at h
    split_ifs at h
    cases o <;> simp [hasSymbol] at h
    exact ho rfl
  unfold readsOf
  split
  · exact absurd rfl hr
  · rfl

theorem readsAt_of_ne {o : ExprOp} (ho : o ≠ .load) {p : Nat} {args : List Node} : readsAt ν (.app p (.op o) args) = [] := by
  unfold readsAt
  split
  · rename_i heq
    injection heq with _ heq
    injection heq with heq
    exact absurd heq ho
  · rfl

theorem mapId_of_leafVal {m : Node} {id : MapId} {a d : Nat} {f : BitVec a → Option (BitVec d)} (h : leafVal σ m = .map id a d f) :
    mapId m = some id := by
  cases m with
  | leaf p l =>
    cases l with
    | var v =>
      rw [leafVal, scVar] at h
      split at h
      · cases h
      · cases h
      · injection h with h
        rw [mapId, h]
    | const c =>
      cases c with
      | bool b => cases h
      | bv x w => cases h
      | mem x vs a d =>
        injection h with h
        rw [mapId, h]
  | app p hd args => cases h

theorem evalList_two {m x : Node} {v w : Value} (h : Expr.evalList ν (Node.exprList [m, x]) = some [v, w]) :
    m.expr.eval ν = some v ∧ x.expr.eval ν = some w := by
  simp only [Node.exprList, Expr.evalList, Option.map_some, Option.bind_eq_some_iff, Option.map_eq_some_iff] at h
  obtain ⟨v', hv, ts, ⟨w', hw, hts⟩, heq⟩ := h
  obtain rfl := Option.some.inj hts
  obtain ⟨rfl, hrest⟩ := List.cons.inj heq
  obtain ⟨rfl, -⟩ := List.cons.inj hrest
  exact ⟨hv, hw⟩

theorem effect_eq {n : Node} {s : Decl} {t : Srt} (hplan : plan n = some (.inr s)) (hcheck : n.expr.check = some t)
    (hargs : ∀ a ∈ n.args, Ready σ τ a) {ds : List (Option ScVal)} (hds : n.args.mapM ((meaning σ τ).denote gen) = some ds) :
    (effects σ).effect s ds = readsAt ν n := by
  cases n with
  | leaf p l => cases l <;> cases hplan
  | app p hd args =>
    obtain ⟨v, hv, -⟩ := Expr.eval_of_check hcheck ν
    cases hd with
    | appFunc f =>
      obtain ⟨-, h⟩ := Option.ite_none_left_eq_some.mp hplan
      rw [← Sum.inr.inj (Option.some.inj h)]
      change ((ds.mapM id).map fun _ => []).getD [] = []
      cases ds.mapM id <;> rfl
    | op o =>
      obtain ⟨r, hr, heq⟩ := Option.map_eq_some_iff.mp hplan
      rw [← Sum.inr.inj heq]
      rw [Node.expr, Expr.eval, Option.bind_eq_some_iff] at hv
      obtain ⟨vs, hvs, hv⟩ := hv
      obtain ⟨us, hus, hops⟩ := exists_operands hargs hvs
      rw [Meaning.denoteList_eq_mapM] at hus
      obtain rfl : us.map some = ds := Option.some.inj (hus.symm.trans hds)
      change (((us.map some).mapM id).map (readsOf r)).getD [] = _
      rw [MapM.id_map_some_self, Option.map_some, Option.getD_some]
      by_cases ho : o = .load
      · subst ho
        obtain ⟨a, d, c, i, rfl, -⟩ := Op.select_eq_some (ExprOp.apply_eq_smt hv).2
        obtain ⟨m, x, id, f, l, x', rfl, rfl, hx, hleaf⟩ := hops.load
        obtain rfl : Rhs.load = r := by
          rw [dfsOp] at hr
          exact Option.some.inj (Option.ite_none_left_eq_some.mp hr).2
        have hy := (evalList_two hvs).2
        rw [readsAt, mapId_of_leafVal hleaf, hy, readsOf, BitVec.toNat_setWidth, hx, Nat.mod_eq_of_lt i.isLt]
      · rw [readsOf_of_ne ho hr, readsAt_of_ne ho]

theorem leaves_readsAt (hcoded : b.Coded gen Decl.node heap) (hinv : b.Inv (meaning σ τ) gen heap env)
    (hready : ∀ s ∈ b.code, (∃ t, s.head.node.expr.check = some t) ∧ ∀ a ∈ s.head.node.args, Ready σ τ a) :
    (effects σ).Leaves (fun s => readsAt ν s.node) b.code env := by
  intro s hs vs hvs
  obtain ⟨⟨t, ht⟩, hargs⟩ := hready s hs
  obtain ⟨ds, hvals, hds⟩ := hinv.args_value (hcoded.args_inHeap hs) (hcoded.args s hs)
  obtain rfl : vs = ds := by
    rw [← Effects.value_under] at hvs
    exact Option.some.inj (hvs.symm.trans hvals)
  exact effect_eq (hcoded.plan s hs) ht hargs hds

theorem safe_congr {τ' : Nat → List Read} (hheap : ∀ n ∈ roots, n.InHeap heap) (hgen : gen.visitList roots .empty = some b)
    (hcoded : b.Coded gen Decl.node heap) (hlogs : ∀ s ∈ b.code, τ s.head.node.ptr = τ' s.head.node.ptr) {n : Node} (hn : n ∈ roots)
    (h : Safe σ τ n) : Safe σ τ' n := by
  intro m hm
  have hsafe := h m hm
  cases m with
  | leaf p l => cases l <;> exact hsafe
  | app p hd args =>
    obtain ⟨hknown, hplan⟩ := Emitter.known_and_planned hheap hgen hn hm
    obtain ⟨s, hs⟩ := exists_decl hplan
    obtain ⟨st, hst, rfl⟩ := hcoded.complete _ ((hheap n hn).sub hm) hknown s hs
    have hlog := hlogs st hst
    rw [decl_node hs, Node.ptr] at hlog
    cases hd with
    | op o =>
      rw [SafeAt, hlog] at hsafe
      exact hsafe
    | appFunc f =>
      rw [SafeAt, hlog] at hsafe
      exact hsafe

theorem right_iff_safe (hheap : ∀ n ∈ roots, n.InHeap heap) (hgen : gen.visitList roots .empty = some b)
    (hwf : ∀ n ∈ roots, n.Positive ∧ ∃ s, n.expr.check = some s ∧ s.isMem = false) :
    (∀ n ∈ roots, ∀ m ∈ n.subs, m.expr.sort.isMem = false →
      ∃ u v, (effects σ).read past b m = some (some u) ∧ m.expr.eval ν = some v ∧ Agrees u v) ↔
      ∀ n ∈ roots, Safe σ (readsBefore ν past b.code) n := by
  obtain ⟨hcoded, hroot⟩ := Emitter.coded_of_roots (fun _ _ => decl_node) hheap hgen
  have hplan : ∀ n ∈ roots, ∀ m ∈ n.subs, (plan m).isSome := fun n hn m hm => Emitter.plan_isSome hheap hgen hn hm
  refine hcoded.read_iff (P := fun read => ∀ n ∈ roots, ∀ m ∈ n.subs, m.expr.sort.isMem = false →
    ∃ u v, read m = some (some u) ∧ m.expr.eval ν = some v ∧ Agrees u v) (Q := fun τ => ∀ n ∈ roots, Safe σ τ n)
    (fun τ => ?_) (fun τ => ?_) (fun τ env h hexec => ?_) fun τ τ' hlogs h n hn => safe_congr hheap hgen hcoded hlogs hn (h n hn)
  · obtain ⟨env, hinv⟩ := Emitter.exists_inv (meaning σ τ) hheap hgen
    exact ⟨env, hinv.exec⟩
  · refine forall₂_congr fun n hn => ?_
    obtain ⟨hpos, s, hs, hmem⟩ := hwf n hn
    rw [← right_subs_iff_safe hs hmem hpos (hplan n hn)]
    refine forall₂_congr fun m hm => imp_congr_right fun _ => ?_
    rw [Right, ← (Emitter.read_eq_denote hheap hgen hn hm).2]
    rfl
  · obtain ⟨env', hinv⟩ := Emitter.exists_inv (meaning σ τ) hheap hgen
    obtain rfl : env = env' := Option.some.inj (hexec.symm.trans hinv.exec)
    refine leaves_readsAt hcoded hinv fun s hs => ?_
    obtain ⟨n, hn, hsub⟩ := hroot s hs
    obtain ⟨hpos, t, ht, -⟩ := hwf n hn
    refine ⟨Node.check_sub ht hsub, fun a ha => ready_of_safe ht hpos (hplan n hn) (h n hn) a (Node.subs_trans hsub ?_)⟩
    exact Node.mem_subs_iff.mpr (.inr ⟨a, ha, a.mem_subs_self⟩)

end Function

/-- The local that stands for a node holds the value of the Z3 translation of the node, when the code of a function is executed. -/
def Exact (z3 : Z3) (M : Model) (suffix : String) (σ : Maps (frame M suffix)) (past : List Read) (b : Buffer Name Decl) (m : Node) : Prop :=
  ∃ u v, (effects σ).read past b m = some (some u) ∧ (getExpr z3 suffix m.expr).eval M = some v ∧ Agrees u v

def constImply (a b : Bool) : Node := .app 2 (.op .imply) [.leaf 0 (.const (.bool a)), .leaf 1 (.const (.bool b))]

def constImplyHeap (a b : Bool) : Nat → Node
  | 0 => .leaf 0 (.const (.bool a))
  | 1 => .leaf 1 (.const (.bool b))
  | _ => constImply a b

theorem mem_subs_constImply {a b : Bool} {m : Node} (h : m ∈ (constImply a b).subs) :
    m = constImply a b ∨ m = .leaf 0 (.const (.bool a)) ∨ m = .leaf 1 (.const (.bool b)) := by
  simpa [constImply, Node.subs, Node.subsList] using h

theorem constImply_inHeap (a b : Bool) : ∀ n ∈ [constImply a b], n.InHeap (constImplyHeap a b) := by
  intro n hn m hm
  rw [List.mem_singleton.mp hn] at hm
  rcases mem_subs_constImply hm with rfl | rfl | rfl <;> rfl

theorem constImply_positive (a b : Bool) : (constImply a b).Positive := by
  intro m hm
  rcases mem_subs_constImply hm with rfl | rfl | rfl <;> trivial

theorem constImply_safe {a b : Bool} (hab : a ≠ b) {ν : Valuation} (σ : Maps ν) (τ : Nat → List Read) : Safe σ τ (constImply a b) := by
  intro m hm
  rcases mem_subs_constImply hm with rfl | rfl | rfl
  · intro vs hvs
    obtain rfl : [.bool a, .bool b] = vs := Option.some.inj hvs
    exact ⟨hab, trivial⟩
  · trivial
  · trivial

end Ilator

end Ilang
