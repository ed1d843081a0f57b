import Ilang.Target.SmtSwitch

/-!
# Unrolling over a generator of solver terms

`UnrollerSmt` is one unroller for every generator behind `SmtShim`. It asks the generator for the term of
each predicate and of each next state, frame by frame, so a generator with a memory sees the requests in
this order. Two generators whose answers have the same values give the same formula (`sat_unrollAt_iff`).
-/

namespace Ilang

open Smt

/-- The generator behind `SmtShim`: `GetShimExpr`, and the constant that `ConjunctAll` starts from. That
constant is a new node at every call and has no suffix, so it is kept apart from the state. -/
structure Generator where
  State : Type
  /-- It has a term for the node. -/
  accepts : Node → Bool
  getShimExpr : Node → String → State → Term × State
  boolTrue : Term

/-- `Z3ExprAdapter` clears its map at every call. -/
def z3Generator (z3 : Z3) : Generator where
  State := Unit
  accepts _ := true
  getShimExpr n suffix st := (getExpr z3 suffix n.expr, st)
  boolTrue := getExpr z3 "" (.const (.bool true))

def smtSwitchGenerator : Generator where
  State := SmtSwitchItf
  accepts n := decide n.Applied
  getShimExpr n suffix st := (SmtSwitchItf.getSmtTerm n suffix st).getD (.bool true, st)
  boolTrue := .bool true

/-- A state variable with the pointer of its node. -/
structure VarNode where
  ptr : Nat
  var : Var

  deriving DecidableEq

def VarNode.node (v : VarNode) : Node := .leaf v.ptr (.var v.var)

/-- What `SetDecidingVars` and `MakeOneTransition` provide. -/
structure SmtTrans where
  decidingVars : List VarNode
  update : Nat → VarNode → Node
  assert : Nat → List Node

/-- What `PathUnroller` reads of an instruction: the states of its host, its decode, which it requires, and
its updates by state name. -/
structure InstrNodes where
  states : List VarNode
  decode : Node
  updates : List (String × Option Node)

/-- `CompleteStateUpdate`. -/
def InstrNodes.completeStateUpdate (i : InstrNodes) (v : VarNode) : Node :=
  (i.updates.lookup v.var.name).join.getD v.node

/-- The transitions of `PathUnroller`. -/
def pathTrans (seq : List InstrNodes) : SmtTrans where
  decidingVars := (seq.flatMap InstrNodes.states).dedup
  update k v := (seq[k]?.map fun i => i.completeStateUpdate v).getD v.node
  assert k := (seq[k]?.map InstrNodes.decode).toList

structure UnrollerSmt where
  unrollerSuffix : String
  globalPred : List Node
  initialPred : List Node
  stepPred : Nat → List Node

namespace UnrollerSmt

def suffixCurrent (u : UnrollerSmt) (t : Nat) : String := toString t ++ "_" ++ u.unrollerSuffix

/-- The predicates of a step in the order in which they are translated. -/
def preds (u : UnrollerSmt) (tr : SmtTrans) (i : Nat) : List Node :=
  u.globalPred ++ u.stepPred i ++ tr.assert i ++ if i = 0 then u.initialPred else []

def endPreds (u : UnrollerSmt) (len : Nat) : List Node := u.globalPred ++ u.stepPred len

def updateHolder (tr : SmtTrans) (i : Nat) : List Node := tr.decidingVars.map (tr.update i)

def varNodes (tr : SmtTrans) : List Node := tr.decidingVars.map VarNode.node

/-- The solver accepts the unrolling. -/
def Sorted (u : UnrollerSmt) (tr : SmtTrans) (len : Nat) : Prop :=
  (∀ i < len, (∀ n ∈ u.preds tr i, n.expr.check = some .bool) ∧
    ∀ v ∈ tr.decidingVars, (tr.update i v).expr.check = some v.var.sort) ∧
  ∀ n ∈ u.endPreds len, n.expr.check = some .bool

instance (u : UnrollerSmt) (tr : SmtTrans) (len : Nat) : Decidable (u.Sorted tr len) :=
  inferInstanceAs (Decidable (_ ∧ _))

/-- The nodes that an unrolling translates. -/
def nodes (u : UnrollerSmt) (tr : SmtTrans) (len : Nat) : List Node :=
  (List.range len).flatMap (fun i => u.preds tr i ++ updateHolder tr i ++ varNodes tr) ++ u.endPreds len

variable (g : Generator) (u : UnrollerSmt) (tr : SmtTrans)

/-- `InterpIlaExprAndAppend`. -/
def interp (suffix : String) : List Node → g.State → List Term × g.State
  | [], st => ([], st)
  | n :: ns, st =>
    let answer := g.getShimExpr n suffix st
    let rest := interp suffix ns answer.2
    (answer.1 :: rest.1, rest.2)

/-- One step: the predicates and the updates are translated before the variables of the next frame. -/
def oneStep (suffix suffixNext : String) (i : Nat) (st : g.State) : List Term × g.State :=
  let holder := interp g suffix (u.preds tr i) st
  let nextVal := interp g suffix (updateHolder tr i) holder.2
  let nextVar := interp g suffixNext (varNodes tr) nextVal.2
  (holder.1 ++ List.zipWith Term.eq nextVal.1 nextVar.1, nextVar.2)

def steps (frames : Nat → String) : Nat → g.State → List Term × g.State
  | 0, st => ([], st)
  | i + 1, st =>
    let before := steps frames i st
    let last := oneStep g u tr (frames i) (frames (i + 1)) i before.2
    (before.1 ++ last.1, last.2)

/-- The formula for given names of the frames and of the end state. -/
def unrollAt (frames : Nat → String) (final : String) (len : Nat) (st : g.State) : Term :=
  let body := steps g u tr frames len st
  let fin := interp g final (u.endPreds len) body.2
  (body.1 ++ fin.1).foldl Term.conj g.boolTrue

/-- `Unroll_`. The end state has the frame of `len`, whatever the start. -/
def unroll (len begin : Nat) (st : g.State) : Option Term :=
  if u.Sorted tr len ∧ ∀ n ∈ u.nodes tr len, g.accepts n = true then
    some (unrollAt g u tr (fun i => u.suffixCurrent (begin + i)) (u.suffixCurrent len) len st)
  else none

/-! ### Two generators side by side -/

/-- A request of two runs: the node, and its suffix in each of them. -/
structure Request where
  node : Node
  left : String
  right : String

def requestsOf (left right : String) (ns : List Node) : List Request := ns.map fun n => ⟨n, left, right⟩

variable (l r : Nat → String)

def stepRequests (i : Nat) : List Request :=
  requestsOf (l i) (r i) (u.preds tr i ++ updateHolder tr i) ++ requestsOf (l (i + 1)) (r (i + 1)) (varNodes tr)

/-- The requests of an unrolling, in their order. -/
def requests (finL finR : String) (len : Nat) : List Request :=
  (List.range len).flatMap (stepRequests u tr l r) ++ requestsOf finL finR (u.endPreds len)

/-- Two generators, in a relation that every request keeps, answer terms of the same value. -/
structure Simulates (g g' : Generator) (M N : Model) (R : List Request → g.State → g'.State → Prop) : Prop where
  value : ∀ q qs st st', R (q :: qs) st st' →
    (g.getShimExpr q.node q.left st).1.eval M = (g'.getShimExpr q.node q.right st').1.eval N
  next : ∀ q qs st st', R (q :: qs) st st' →
    R qs (g.getShimExpr q.node q.left st).2 (g'.getShimExpr q.node q.right st').2
  boolTrue : g.boolTrue.eval M = g'.boolTrue.eval N

variable {g u tr l r} {g' : Generator} {M N : Model} {R : List Request → g.State → g'.State → Prop}

/-- The terms have the same values, each in its model. -/
def SameValues (M N : Model) (ts us : List Term) : Prop := List.Forall₂ (fun t t' => t.eval M = t'.eval N) ts us

theorem interp_same (h : Simulates g g' M N R) {left right : String} {ns : List Node} {qs : List Request}
    {st : g.State} {st' : g'.State} (hR : R (requestsOf left right ns ++ qs) st st') :
    SameValues M N (interp g left ns st).1 (interp g' right ns st').1 ∧
      R qs (interp g left ns st).2 (interp g' right ns st').2 := by
  induction ns generalizing st st' with
  | nil => exact ⟨.nil, hR⟩
  | cons n ns ih =>
    have hvalue := h.value ⟨n, left, right⟩ _ _ _ hR
    obtain ⟨hrest, hR'⟩ := ih (h.next ⟨n, left, right⟩ _ _ _ hR)
    exact ⟨.cons hvalue hrest, hR'⟩

theorem SameValues.zipWith_eq {as bs cs ds : List Term} (hab : SameValues M N as bs) (hcd : SameValues M N cs ds) :
    SameValues M N (List.zipWith Term.eq as cs) (List.zipWith Term.eq bs ds) := by
  induction hab generalizing cs ds with
  | nil => exact .nil
  | cons hhead _ ih =>
    cases hcd with
    | nil => exact .nil
    | cons hhead' htail =>
      refine .cons ?_ (ih htail)
      simp only [Term.eq, Term.eval, Term.evalList, hhead, hhead']

theorem oneStep_same (h : Simulates g g' M N R) {i : Nat} {qs : List Request} {st : g.State} {st' : g'.State}
    (hR : R (stepRequests u tr l r i ++ qs) st st') :
    SameValues M N (oneStep g u tr (l i) (l (i + 1)) i st).1 (oneStep g' u tr (r i) (r (i + 1)) i st').1 ∧
      R qs (oneStep g u tr (l i) (l (i + 1)) i st).2 (oneStep g' u tr (r i) (r (i + 1)) i st').2 := by
  rw [stepRequests, requestsOf, List.map_append, List.append_assoc, List.append_assoc] at hR
  obtain ⟨hpreds, hR₁⟩ := interp_same h hR
  obtain ⟨hvals, hR₂⟩ := interp_same h hR₁
  obtain ⟨hvars, hR₃⟩ := interp_same h hR₂
  exact ⟨List.rel_append hpreds (hvals.zipWith_eq hvars), hR₃⟩

theorem steps_same (h : Simulates g g' M N R) {len : Nat} {qs : List Request} {st : g.State} {st' : g'.State}
    (hR : R ((List.range len).flatMap (stepRequests u tr l r) ++ qs) st st') :
    SameValues M N (steps g u tr l len st).1 (steps g' u tr r len st').1 ∧
      R qs (steps g u tr l len st).2 (steps g' u tr r len st').2 := by
  induction len generalizing qs with
  | zero => exact ⟨.nil, hR⟩
  | succ i ih =>
    rw [List.range_succ, List.flatMap_append, List.flatMap_singleton, List.append_assoc] at hR
    obtain ⟨hbefore, hR'⟩ := ih hR
    obtain ⟨hlast, hR''⟩ := oneStep_same h hR'
    exact ⟨List.rel_append hbefore hlast, hR''⟩

theorem SameValues.forall_sat {ts us : List Term} (h : SameValues M N ts us) :
    (∀ t ∈ ts, M.Sat t) ↔ ∀ t ∈ us, N.Sat t := by
  induction h with
  | nil => simp
  | cons hhead _ ih => rw [List.forall_mem_cons, List.forall_mem_cons, ih, Model.Sat, hhead, Model.Sat]

theorem sat_unrollAt_iff (h : Simulates g g' M N R) {finL finR : String} {len : Nat} {st : g.State} {st' : g'.State}
    (hR : R (requests u tr l r finL finR len) st st') :
    M.Sat (unrollAt g u tr l finL len st) ↔ N.Sat (unrollAt g' u tr r finR len st') := by
  obtain ⟨hbody, hR'⟩ := steps_same h hR
  rw [← List.append_nil (requestsOf finL finR (u.endPreds len))] at hR'
  obtain ⟨hfin, -⟩ := interp_same h hR'
  rw [unrollAt, unrollAt, Term.sat_foldl_conj, Term.sat_foldl_conj, Model.Sat, h.boolTrue, ← Model.Sat,
    SameValues.forall_sat (List.rel_append hbody hfin)]

/-! ### smt-switch against Z3 -/

/-- Every request has a suffix under which its variables and functions are met first. -/
def FreshEach : List (Node × String) → List Request → Prop
  | _, [] => True
  | seen, q :: qs => SmtSwitchItf.Fresh seen q.node q.left ∧ FreshEach (seen ++ [(q.node, q.left)]) qs

instance decidableFreshEach : ∀ (seen : List (Node × String)) (qs : List Request), Decidable (FreshEach seen qs)
  | _, [] => isTrue trivial
  | seen, q :: qs =>
    have := decidableFreshEach (seen ++ [(q.node, q.left)]) qs
    inferInstanceAs (Decidable (_ ∧ _))

/-- The meaning that one model gives to the symbols of smt-switch, another gives to those of Z3. They differ
only in functions, which Z3 names without the suffix. -/
def Agree (M N : Model) (n : Node) (suffix : String) : Prop :=
  (∀ a ∈ n.expr.atoms, (smtFrame M suffix).atom a = (frame N suffix).atom a) ∧
  ∀ f ∈ n.expr.funcs, (smtFrame M suffix).func f = (frame N suffix).func f

/-- The state of smt-switch with the requests to come. -/
def Ready (heap : Nat → Node) (M N : Model) (qs : List Request) (st : SmtSwitchItf) : Prop :=
  (∃ seen, SmtSwitchItf.Holds heap seen st ∧ FreshEach seen qs) ∧
  ∀ q ∈ qs, q.left = q.right ∧ q.node.InHeap heap ∧ q.node.Applied ∧ q.node.ReadsAlike ∧
    q.node.expr.check ≠ none ∧ Agree M N q.node q.left

theorem simulates_z3 (z3 : Z3) (heap : Nat → Node) (M N : Model) :
    Simulates smtSwitchGenerator (z3Generator z3) M N fun qs st _ => Ready heap M N qs st := by
  refine ⟨fun q qs st _ hR => ?_, fun q qs st _ hR => ?_, ?_⟩
  · obtain ⟨⟨seen, hholds, hfresh, -⟩, hqs⟩ := hR
    obtain ⟨hsuffix, hheap, happ, hread, hcheck, hatoms, hfuncs⟩ := hqs q List.mem_cons_self
    obtain ⟨s, hs⟩ := Option.ne_none_iff_exists'.mp hcheck
    obtain ⟨st', hans, -⟩ := hholds.getSmtTerm_eq hheap happ q.left
    rw [SmtSwitchItf.transBy_firstSuffixes_eq_iff.mpr hfresh] at hans
    simp only [smtSwitchGenerator, z3Generator, hans, Option.getD_some, ← hsuffix]
    rw [trans_eval M q.left hs hread, getExpr_eval z3 N q.left hs]
    exact Expr.eval_congr hfuncs hatoms
  · obtain ⟨⟨seen, hholds, -, hrest⟩, hqs⟩ := hR
    obtain ⟨-, hheap, happ, -⟩ := hqs q List.mem_cons_self
    obtain ⟨st', hans, hholds'⟩ := hholds.getSmtTerm_eq hheap happ q.left
    simp only [smtSwitchGenerator, hans, Option.getD_some]
    exact ⟨⟨_, hholds', hrest⟩, fun p hp => hqs p (List.mem_cons_of_mem q hp)⟩
  · simp only [smtSwitchGenerator, z3Generator, getExpr, z3.eval_simplify]
    rfl

theorem mem_nodes {len : Nat} {n : Node} : n ∈ u.nodes tr len ↔
    (∃ i < len, n ∈ u.preds tr i ++ updateHolder tr i ∨ n ∈ varNodes tr) ∨ n ∈ u.endPreds len := by
  simp only [nodes, List.mem_append, List.mem_flatMap, List.mem_range]

theorem mem_requests {finL finR : String} {len : Nat} {q : Request} (hq : q ∈ requests u tr l r finL finR len) :
    q.node ∈ u.nodes tr len ∧
      ((∃ i, q.left = l i ∧ q.right = r i) ∨ (q.left = finL ∧ q.right = finR ∧ q.node ∈ u.endPreds len)) := by
  rcases List.mem_append.mp hq with hq | hq
  · obtain ⟨i, hi, hq⟩ := List.mem_flatMap.mp hq
    rcases List.mem_append.mp hq with hq | hq
    · obtain ⟨n, hn, rfl⟩ := List.mem_map.mp hq
      exact ⟨mem_nodes.mpr (.inl ⟨i, List.mem_range.mp hi, .inl hn⟩), .inl ⟨i, rfl, rfl⟩⟩
    · obtain ⟨n, hn, rfl⟩ := List.mem_map.mp hq
      exact ⟨mem_nodes.mpr (.inl ⟨i, List.mem_range.mp hi, .inr hn⟩), .inl ⟨i + 1, rfl, rfl⟩⟩
  · obtain ⟨n, hn, rfl⟩ := List.mem_map.mp hq
    exact ⟨mem_nodes.mpr (.inr hn), .inr ⟨rfl, rfl, hn⟩⟩

theorem Sorted.check_ne_none {len : Nat} {n : Node} (h : u.Sorted tr len) (hn : n ∈ u.nodes tr len) :
    n.expr.check ≠ none := by
  rcases mem_nodes.mp hn with ⟨i, hi, hn | hn⟩ | hn
  · rcases List.mem_append.mp hn with hn | hn
    · rw [(h.1 i hi).1 n hn]
      simp
    · obtain ⟨v, hv, rfl⟩ := List.mem_map.mp hn
      rw [(h.1 i hi).2 v hv]
      simp
  · obtain ⟨v, hv, rfl⟩ := List.mem_map.mp hn
    simp [VarNode.node, Node.expr, Expr.check]
  · rw [h.2 n hn]
    simp

/-- The requests of `Unroll_` for the generator of smt-switch. -/
def calls (u : UnrollerSmt) (tr : SmtTrans) (len begin : Nat) : List Request :=
  requests u tr (fun i => u.suffixCurrent (begin + i)) (fun i => u.suffixCurrent (begin + i))
    (u.suffixCurrent len) (u.suffixCurrent len) len

/-- A call of `GetSmtTerm` answers the translation with the suffix of the call exactly when every function in
its expression has arguments and no variable and no function was met first, since the last `Reset`, under
another suffix. An unrolling whose calls are all of this kind, and whose constants are the same as `int64_t`,
denotes the formula of the Z3 unroller. -/
theorem getSmtTerm_fresh_iff_and_unroll_z3 (heap : Nat → Node) (history : List SmtSwitchItf.Call)
    (hhistory : ∀ n suffix, .getSmtTerm n suffix ∈ history → n.InHeap heap) (st : SmtSwitchItf)
    (hrun : SmtSwitchItf.run history = some st) :
    (∀ n suffix, n.InHeap heap →
      ((SmtSwitchItf.getSmtTerm n suffix st).map Prod.fst = some (trans suffix n) ↔
        n.Applied ∧ SmtSwitchItf.Fresh (SmtSwitchItf.sinceReset history) n suffix)) ∧
    ∀ (z3 : Z3) (u : UnrollerSmt) (tr : SmtTrans) (len begin : Nat) (φ ψ : Term),
      (∀ n ∈ u.nodes tr len, n.InHeap heap ∧ n.ReadsAlike) →
      FreshEach (SmtSwitchItf.sinceReset history) (u.calls tr len begin) →
      unroll smtSwitchGenerator u tr len begin st = some φ →
      unroll (z3Generator z3) u tr len begin () = some ψ →
      ∀ M N : Model, (∀ q ∈ u.calls tr len begin, Agree M N q.node q.left) → (M.Sat φ ↔ N.Sat ψ) := by
  have hholds := SmtSwitchItf.holds_run hhistory hrun
  refine ⟨fun n suffix hn => hholds.getSmtTerm_eq_trans_iff hn suffix, ?_⟩
  intro z3 u tr len begin φ ψ hnodes hfresh hφ hψ M N hagree
  simp only [unroll, Option.ite_none_right_eq_some] at hφ hψ
  obtain ⟨⟨hsorted, haccepts⟩, hφ⟩ := hφ
  obtain rfl := Option.some.inj hφ
  obtain rfl := Option.some.inj hψ.2
  refine sat_unrollAt_iff (simulates_z3 z3 heap M N) ⟨⟨_, hholds, hfresh⟩, fun q hq => ?_⟩
  obtain ⟨hnode, hframe⟩ := mem_requests hq
  have hsuffix : q.left = q.right := by
    rcases hframe with ⟨i, hl, hr⟩ | ⟨hl, hr, -⟩
    · rw [hl, hr]
    · rw [hl, hr]
  obtain ⟨hheap, hread⟩ := hnodes q.node hnode
  exact ⟨hsuffix, hheap, of_decide_eq_true (haccepts q.node hnode), hread, hsorted.check_ne_none hnode, hagree q hq⟩

/-! ### One step of a toggle -/

def toggleVar : VarNode := ⟨0, 0, "x", some "m", .bool⟩

/-- An instruction that is always decoded, in an ILA with the Boolean state `x`. -/
def boolInstr (next : Node) : InstrNodes := ⟨[toggleVar], .leaf 2 (.const (.bool true)), [("x", some next)]⟩

/-- `x := ¬ x`. -/
def toggle : InstrNodes := boolInstr (.app 1 (.op .not) [toggleVar.node])

/-- `x := true`. -/
def setTrue : InstrNodes := boolInstr (.leaf 1 (.const (.bool true)))

def smtNew : UnrollerSmt := ⟨"", [], [], fun _ => []⟩

/-- The formula of one step, for the term of the next state. -/
def toggleFormula (next : Term) : Term :=
  ((Term.bool true).conj (.bool true)).conj ((Term.op .not [.const (toggleVar.var.sym "0_")]).eq next)

theorem unroll_toggle_smtSwitch : unroll smtSwitchGenerator smtNew (pathTrans [toggle]) 1 0 SmtSwitchItf.reset =
    some (toggleFormula (.const (toggleVar.var.sym "0_"))) := by
  unfold unroll
  rw [if_pos (by decide)]
  rfl

theorem unroll_toggle_z3 : unroll (z3Generator default) smtNew (pathTrans [toggle]) 1 0 () =
    some (toggleFormula (.const (toggleVar.var.sym "1_"))) := by
  unfold unroll
  rw [if_pos (by decide)]
  rfl

theorem sat_toggleFormula {M : Model} {c : Sym} : M.Sat (toggleFormula (.const c)) ↔
    (M.const (toggleVar.var.sym "0_") = .bool true ∧ M.const c = .bool false) ∨
      (M.const (toggleVar.var.sym "0_") = .bool false ∧ M.const c = .bool true) := by
  obtain ⟨b, hb⟩ : ∃ b, M.const (toggleVar.var.sym "0_") = .bool b := Value.exists_bool (M.const_sort _)
  rw [toggleFormula, Term.sat_conj, Term.sat_conj, Term.sat_eq]
  simp [Term.sat_bool_true, Term.eval, Term.evalList, hb]
  cases b <;> simp [eq_comm]

/-- The second translation of `x` still names frame 0, and one step of the toggle has no model, although
the formula of Z3 has one. -/
theorem getSmtTerm_keeps_first_suffix :
    ((SmtSwitchItf.run [.getSmtTerm toggleVar.node "0_"]).bind fun st =>
        (SmtSwitchItf.getSmtTerm toggleVar.node "1_" st).map Prod.fst) = some (trans "0_" toggleVar.node) ∧
    trans "0_" toggleVar.node ≠ trans "1_" toggleVar.node ∧
    ∃ φ ψ, unroll smtSwitchGenerator smtNew (pathTrans [toggle]) 1 0 SmtSwitchItf.reset = some φ ∧
      unroll (z3Generator default) smtNew (pathTrans [toggle]) 1 0 () = some ψ ∧
      (∀ M : Model, ¬M.Sat φ) ∧ ∃ N : Model, N.Sat ψ := by
  refine ⟨rfl, fun h => ?_, _, _, unroll_toggle_smtSwitch, unroll_toggle_z3, fun M hM => ?_, ?_⟩
  · have hsym : toggleVar.var.sym "0_" = toggleVar.var.sym "1_" := by
      injection h
    exact absurd hsym (by decide)
  · rcases sat_toggleFormula.mp hM with ⟨h0, h1⟩ | ⟨h0, h1⟩ <;> simp [h0] at h1
  · obtain ⟨N, -, hN⟩ := (default : Model).exists_assign_list
      [(toggleVar.var.sym "0_", .bool false), (toggleVar.var.sym "1_", .bool true)] (by decide) (by decide)
    exact ⟨N, sat_toggleFormula.mpr (.inr ⟨hN (_, _) List.mem_cons_self,
      hN (_, _) (List.mem_cons_of_mem _ List.mem_cons_self)⟩)⟩

/-- The nodes of `setTrue`, by their pointers. -/
def setTrueHeap (p : Nat) : Node := if p = 0 then toggleVar.node else .leaf p (.const (.bool true))

theorem leaf_inHeap {heap : Nat → Node} {p : Nat} {l : Leaf} (h : heap p = .leaf p l) : (Node.leaf p l).InHeap heap := by
  intro m hm
  rw [Node.mem_subs_leaf.mp hm]
  exact h

theorem leaf_readsAlike_bool (p : Nat) (b : Bool) : (Node.leaf p (.const (.bool b))).ReadsAlike := by
  intro q c hc
  cases Node.mem_subs_leaf.mp hc
  exact trivial

theorem varNode_readsAlike (v : VarNode) : v.node.ReadsAlike := by
  intro q c hc
  cases Node.mem_subs_leaf.mp hc

/-- After a `Reset` the suffix is that of the call, and one step of `x := true` meets `x` under one suffix. -/
theorem getSmtTerm_fresh_iff_and_unroll_z3_setTrue :
    ∃ st, SmtSwitchItf.run [.getSmtTerm toggleVar.node "0_", .reset] = some st ∧
    (SmtSwitchItf.getSmtTerm toggleVar.node "1_" st).map Prod.fst = some (trans "1_" toggleVar.node) ∧
    ∃ φ ψ, unroll smtSwitchGenerator smtNew (pathTrans [setTrue]) 1 0 st = some φ ∧
      unroll (z3Generator default) smtNew (pathTrans [setTrue]) 1 0 () = some ψ ∧ ∀ M : Model, M.Sat φ ↔ M.Sat ψ := by
  have hx : toggleVar.node.InHeap setTrueHeap := leaf_inHeap rfl
  have hboth := getSmtTerm_fresh_iff_and_unroll_z3 setTrueHeap [.getSmtTerm toggleVar.node "0_", .reset] (by
    intro n suffix hn
    obtain ⟨rfl, -⟩ : n = toggleVar.node ∧ suffix = "0_" := by simpa using hn
    exact hx) SmtSwitchItf.reset rfl
  have hlist : smtNew.calls (pathTrans [setTrue]) 1 0 =
      [⟨.leaf 2 (.const (.bool true)), "0_", "0_"⟩, ⟨.leaf 1 (.const (.bool true)), "0_", "0_"⟩,
        ⟨toggleVar.node, "1_", "1_"⟩] := rfl
  have hcalls : ∀ q ∈ smtNew.calls (pathTrans [setTrue]) 1 0,
      q = ⟨.leaf 2 (.const (.bool true)), "0_", "0_"⟩ ∨ q = ⟨.leaf 1 (.const (.bool true)), "0_", "0_"⟩ ∨
        q = ⟨toggleVar.node, "1_", "1_"⟩ := by simp [hlist]
  refine ⟨_, rfl, (hboth.1 _ _ hx).mpr (by decide), _, _, if_pos (by decide), if_pos (by decide), fun M => ?_⟩
  refine hboth.2 default smtNew (pathTrans [setTrue]) 1 0 _ _ (fun n hn => ?_) (by decide) (if_pos (by decide))
    (if_pos (by decide)) M M fun q hq => ?_
  · have hnodes : smtNew.nodes (pathTrans [setTrue]) 1 =
        [.leaf 2 (.const (.bool true)), .leaf 1 (.const (.bool true)), toggleVar.node] := rfl
    rw [hnodes] at hn
    simp only [List.mem_cons, List.not_mem_nil, or_false] at hn
    rcases hn with rfl | rfl | rfl
    · exact ⟨leaf_inHeap rfl, leaf_readsAlike_bool 2 true⟩
    · exact ⟨leaf_inHeap rfl, leaf_readsAlike_bool 1 true⟩
    · exact ⟨hx, varNode_readsAlike toggleVar⟩
  · rcases hcalls q hq with rfl | rfl | rfl
    · simp [Agree, Node.expr, Expr.atoms, Expr.funcs]
    · simp [Agree, Node.expr, Expr.atoms, Expr.funcs]
    · simp [Agree, toggleVar, VarNode.node, Node.expr, Expr.atoms, Expr.funcs, smtFrame]

end UnrollerSmt

end Ilang
