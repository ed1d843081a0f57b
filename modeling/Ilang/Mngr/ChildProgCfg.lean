import Ilang.Ila.AstHub
import Ilang.Ila.Hierarchy
import Ilang.Mngr.PathExec

/-!
# The control flow of child-programs

`InferChildProgCFG` goes through the ILAs below the top. For one that has no instruction sequence yet, the solver decides
for every ordered pair of instructions whether the second can be decoded right after the first, and a transition is
added if so. The two frames are those of `PathUnroll`, which follows the states of the host only.
-/

namespace Ilang

open Smt

/-! ### Instruction sequences -/

/-- `InstrTranNode`, with instructions by identity. -/
structure TranNode where
  instr : Nat
  next : List Nat
  prev : List Nat

/-- `InstrSeq`. -/
structure InstrSeq where
  edges : List SeqTran
  nodes : List TranNode

namespace InstrSeq

def new : InstrSeq := ⟨[], []⟩

/-- The node of an instruction is made when it is first seen. -/
def findNode (nodes : List TranNode) (i : Nat) : List TranNode :=
  if i ∈ nodes.map TranNode.instr then nodes else nodes ++ [⟨i, [], []⟩]

def addNext (nodes : List TranNode) (src dst : Nat) : List TranNode :=
  nodes.map fun n => if n.instr = src then { n with next := n.next ++ [dst] } else n

def addPrev (nodes : List TranNode) (dst src : Nat) : List TranNode :=
  nodes.map fun n => if n.instr = dst then { n with prev := n.prev ++ [src] } else n

/-- `InstrSeq::AddTran`. -/
def addTran (s : InstrSeq) (t : SeqTran) : InstrSeq :=
  ⟨s.edges ++ [t], addPrev (addNext (findNode (findNode s.nodes t.src) t.dst) t.src t.dst) t.dst t.src⟩

/-- The sequence after transitions were added one by one. -/
def ofTrans (ts : List SeqTran) : InstrSeq := ts.foldl addTran new

def HasEdge (s : InstrSeq) (a b : Nat) : Prop := ∃ t ∈ s.edges, t.src = a ∧ t.dst = b

def HasNext (nodes : List TranNode) (a b : Nat) : Prop := ∃ n ∈ nodes, n.instr = a ∧ b ∈ n.next

def HasPrev (nodes : List TranNode) (b a : Nat) : Prop := ∃ n ∈ nodes, n.instr = b ∧ a ∈ n.prev

/-- The edges say that there is a transition, and so do the nodes at both ends. -/
structure Contains (s : InstrSeq) (a b : Nat) : Prop where
  edge : s.HasEdge a b
  next : HasNext s.nodes a b
  prev : HasPrev s.nodes b a

/-- Edges and nodes agree. -/
structure Inv (s : InstrSeq) : Prop where
  next : ∀ a b, HasNext s.nodes a b ↔ s.HasEdge a b
  prev : ∀ a b, HasPrev s.nodes b a ↔ s.HasEdge a b

variable {nodes : List TranNode} {a b i src dst : Nat}

theorem mem_findNode : i ∈ (findNode nodes i).map TranNode.instr := by
  unfold findNode
  split
  · assumption
  · simp

theorem mem_findNode_of_mem (h : a ∈ nodes.map TranNode.instr) : a ∈ (findNode nodes i).map TranNode.instr := by
  unfold findNode
  split
  · exact h
  · rw [List.map_append]
    exact List.mem_append_left _ h

theorem hasNext_findNode : HasNext (findNode nodes i) a b ↔ HasNext nodes a b := by
  unfold findNode
  split
  · exact Iff.rfl
  · simp [HasNext, or_and_right, exists_or]

theorem hasPrev_findNode : HasPrev (findNode nodes i) b a ↔ HasPrev nodes b a := by
  unfold findNode
  split
  · exact Iff.rfl
  · simp [HasPrev, or_and_right, exists_or]

theorem map_instr_addNext : (addNext nodes src dst).map TranNode.instr = nodes.map TranNode.instr := by
  rw [addNext, List.map_map]
  apply List.map_congr_left
  intro n _
  simp only [Function.comp_apply]
  split <;> rfl

theorem hasNext_addNext (h : src ∈ nodes.map TranNode.instr) :
    HasNext (addNext nodes src dst) a b ↔ HasNext nodes a b ∨ (src = a ∧ dst = b) := by
  simp only [HasNext, addNext, List.mem_map, exists_exists_and_eq_and]
  constructor
  · rintro ⟨n, hn, ha, hb⟩
    split at ha <;> rename_i hsrc
    · rw [if_pos hsrc, List.mem_append, List.mem_singleton] at hb
      rcases hb with hb | rfl
      · exact .inl ⟨n, hn, ha, hb⟩
      · exact .inr ⟨hsrc.symm.trans ha, rfl⟩
    · rw [if_neg hsrc] at hb
      exact .inl ⟨n, hn, ha, hb⟩
  · rintro (⟨n, hn, ha, hb⟩ | ⟨rfl, rfl⟩)
    · refine ⟨n, hn, ?_⟩
      split
      · exact ⟨ha, List.mem_append_left _ hb⟩
      · exact ⟨ha, hb⟩
    · obtain ⟨n, hn, hsrc⟩ := List.mem_map.mp h
      exact ⟨n, hn, by rw [if_pos hsrc]; exact ⟨hsrc, by simp⟩⟩

theorem hasPrev_addNext : HasPrev (addNext nodes src dst) b a ↔ HasPrev nodes b a := by
  simp only [HasPrev, addNext, List.mem_map, exists_exists_and_eq_and]
  refine exists_congr fun n => and_congr_right fun _ => ?_
  split <;> exact Iff.rfl

theorem hasPrev_addPrev (h : dst ∈ nodes.map TranNode.instr) :
    HasPrev (addPrev nodes dst src) b a ↔ HasPrev nodes b a ∨ (dst = b ∧ src = a) := by
  simp only [HasPrev, addPrev, List.mem_map, exists_exists_and_eq_and]
  constructor
  · rintro ⟨n, hn, hb, ha⟩
    split at hb <;> rename_i hdst
    · rw [if_pos hdst, List.mem_append, List.mem_singleton] at ha
      rcases ha with ha | rfl
      · exact .inl ⟨n, hn, hb, ha⟩
      · exact .inr ⟨hdst.symm.trans hb, rfl⟩
    · rw [if_neg hdst] at ha
      exact .inl ⟨n, hn, hb, ha⟩
  · rintro (⟨n, hn, hb, ha⟩ | ⟨rfl, rfl⟩)
    · refine ⟨n, hn, ?_⟩
      split
      · exact ⟨hb, List.mem_append_left _ ha⟩
      · exact ⟨hb, ha⟩
    · obtain ⟨n, hn, hdst⟩ := List.mem_map.mp h
      exact ⟨n, hn, by rw [if_pos hdst]; exact ⟨hdst, by simp⟩⟩

theorem hasNext_addPrev : HasNext (addPrev nodes dst src) a b ↔ HasNext nodes a b := by
  simp only [HasNext, addPrev, List.mem_map, exists_exists_and_eq_and]
  refine exists_congr fun n => and_congr_right fun _ => ?_
  split <;> exact Iff.rfl

theorem hasEdge_addTran {s : InstrSeq} {t : SeqTran} : (s.addTran t).HasEdge a b ↔ s.HasEdge a b ∨ (t.src = a ∧ t.dst = b) := by
  simp [HasEdge, addTran, or_and_right, exists_or]

theorem Inv.addTran {s : InstrSeq} (h : s.Inv) (t : SeqTran) : (s.addTran t).Inv := by
  constructor
  · intro a b
    rw [hasEdge_addTran, ← h.next, InstrSeq.addTran, hasNext_addPrev, hasNext_addNext (mem_findNode_of_mem mem_findNode),
      hasNext_findNode, hasNext_findNode]
  · intro a b
    have hdst : t.dst ∈ (addNext (findNode (findNode s.nodes t.src) t.dst) t.src t.dst).map TranNode.instr := by
      rw [map_instr_addNext]
      exact mem_findNode
    rw [hasEdge_addTran, ← h.prev, InstrSeq.addTran, hasPrev_addPrev hdst, hasPrev_addNext, hasPrev_findNode,
      hasPrev_findNode, and_comm (a := t.dst = b)]

theorem foldl_addTran_spec (ts : List SeqTran) {s : InstrSeq} (hs : s.Inv) :
    (ts.foldl addTran s).Inv ∧ (ts.foldl addTran s).edges = s.edges ++ ts := by
  induction ts generalizing s with
  | nil => exact ⟨hs, by simp⟩
  | cons t ts ih =>
    obtain ⟨hinv, hedges⟩ := ih (hs.addTran t)
    exact ⟨hinv, by rw [List.foldl_cons, hedges, InstrSeq.addTran, List.append_assoc, List.singleton_append]⟩

theorem contains_ofTrans {ts : List SeqTran} : (ofTrans ts).Contains a b ↔ ∃ t ∈ ts, t.src = a ∧ t.dst = b := by
  have hnew : new.Inv := ⟨by simp [HasNext, HasEdge, new], by simp [HasPrev, HasEdge, new]⟩
  obtain ⟨hinv, hedges⟩ := foldl_addTran_spec ts hnew
  have hedge : (ofTrans ts).HasEdge a b ↔ ∃ t ∈ ts, t.src = a ∧ t.dst = b := by
    rw [HasEdge, ofTrans, hedges]
    rfl
  rw [← hedge]
  exact ⟨fun h => h.edge, fun h => ⟨h, (hinv.next a b).mpr h, (hinv.prev a b).mpr h⟩⟩

end InstrSeq

/-! ### The pass -/

section Pass

variable (z3 : Z3) (o : Oracle)

/-- The unroller that each query makes. -/
def cfgUnroller : Unroller := .new ""

/-- `CheckCausality`, without the transition. A decode that is not set stops the program. -/
def checkCausality (d : IlaData) (a b : Instr) : Option Bool :=
  (PathUnroll.pathAssn z3 cfgUnroller [⟨d, a⟩] 0).bind fun path => b.decode.map fun decode =>
    o.sat [path.conj (getExpr z3 (cfgUnroller.suffCurr 1) decode)]

/-- The pairs in the order of the loops. -/
def causePairs : List Instr → List (Instr × Instr)
  | [] => []
  | j :: is => (j, j) :: is.flatMap (fun k => [(j, k), (k, j)]) ++ causePairs is

def inferTrans (d : IlaData) : List (Instr × Instr) → List SeqTran → Option (List SeqTran)
  | [], seq => some seq
  | p :: ps, seq => (checkCausality z3 o d p.1 p.2).bind fun sat =>
    inferTrans d ps (if sat then seq ++ [⟨p.1.id, p.2.id, .boolConst true⟩] else seq)

/-- The loop body on one child. -/
def inferSeq (d : IlaData) : Option IlaData :=
  if d.instrSeq = [] then (inferTrans z3 o d (causePairs d.instrs) d.instrSeq).map fun seq => { d with instrSeq := seq }
  else some d

/-- The loop over the children, each followed by the ILAs below it. -/
def inferChilds : List Ila → Option (List Ila)
  | [] => some []
  | .mk d cs :: rest => (inferSeq z3 o d).bind fun d' => (inferChilds cs).bind fun cs' =>
    (inferChilds rest).map (.mk d' cs' :: ·)

/-- `InferChildProgCFG`. -/
def inferChildProgCFG : Ila → Option Ila
  | .mk d cs => (inferChilds z3 o cs).map (.mk d)

end Pass

/-! ### What a transition stands for -/

/-- In some state the first instruction is decoded, and the second one is in the state that its updates produce. The inputs
of the second step are new; the states that the ILA does not have stay as they are. -/
def Triggers (top : Ila) (d : IlaData) (a b : Instr) : Prop :=
  ∃ ν ν' : Valuation, ν'.func = ν.func ∧ (∀ e ∈ a.decode, ν.Holds e) ∧ (∀ e ∈ b.decode, ν'.Holds e) ∧
    (∀ v ∈ d.states, (stateUpdCmpl a v).eval ν = some (ν'.atom (.var v))) ∧
    ∀ v ∈ top.getSttTree, v ∉ d.states → ν'.atom (.var v) = ν.atom (.var v)

/-- The expressions that the queries on an ILA translate. -/
def IlaData.cfgExprs (d : IlaData) : List Expr :=
  d.instrs.flatMap (fun i => i.decode.toList ++ d.states.map (stateUpdCmpl i)) ++ d.states.map .var

/-- What the pass needs of an ILA to go through: decodes are set, and everything is well-sorted. -/
structure IlaData.CfgSorted (d : IlaData) : Prop where
  decode : ∀ i ∈ d.instrs, ∃ e, i.decode = some e ∧ e.check = some .bool
  update : ∀ i ∈ d.instrs, ∀ v ∈ d.states, (stateUpdCmpl i v).check = some v.sort
  ids : (d.instrs.map Instr.id).Nodup

/-- Further, a decode reads no state of the hierarchy that the ILA does not have, and what is read has different names in
the solver. -/
structure IlaData.CfgReady (top : Ila) (d : IlaData) : Prop where
  sorted : d.CfgSorted
  own : ∀ i ∈ d.instrs, ∀ e ∈ i.decode, ∀ v ∈ top.getSttTree, .var v ∈ e.atoms → v ∈ d.states
  names : Separate (d.cfgExprs.flatMap Expr.atoms) (d.cfgExprs.flatMap Expr.funcs)

/-- What the pass does to an ILA below the top, given which instructions follow each other. -/
structure IlaData.Inferred (T : Instr → Instr → Prop) (d d' : IlaData) : Prop where
  same : { d' with instrSeq := d.instrSeq } = d
  kept : d.instrSeq ≠ [] → d'.instrSeq = d.instrSeq
  exact : d.instrSeq = [] → ∀ a ∈ d.instrs, ∀ b ∈ d.instrs,
    (InstrSeq.ofTrans d'.instrSeq).Contains a.id b.id ↔ T a b

/-! ### One query -/

section Query

variable (z3 : Z3) (o : Oracle) {top : Ila} {d : IlaData} {a b : Instr}

theorem mem_cfgExprs_decode {i : Instr} (hi : i ∈ d.instrs) {e : Expr} (he : i.decode = some e) : e ∈ d.cfgExprs := by
  simp only [IlaData.cfgExprs, List.mem_append, List.mem_flatMap]
  exact .inl ⟨i, hi, .inl (by simp [he])⟩

theorem mem_cfgExprs_update {i : Instr} (hi : i ∈ d.instrs) {v : Var} (hv : v ∈ d.states) : stateUpdCmpl i v ∈ d.cfgExprs := by
  simp only [IlaData.cfgExprs, List.mem_append, List.mem_flatMap]
  exact .inl ⟨i, hi, .inr (List.mem_map_of_mem hv)⟩

theorem mem_cfgExprs_var {v : Var} (hv : v ∈ d.states) : .var v ∈ d.cfgExprs :=
  List.mem_append_right _ (List.mem_map_of_mem hv)

theorem mem_defineDepVar {v : Var} : v ∈ PathUnroll.defineDepVar [⟨d, a⟩] ↔ v ∈ d.states := by
  simp [PathUnroll.defineDepVar]

theorem stepPred_single {da : Expr} (hda : a.decode = some da) :
    cfgUnroller.stepPred (PathUnroll.transition [⟨d, a⟩]) 0 = [da] := by
  simp [Unroller.stepPred, Unroller.initPred, cfgUnroller, Unroller.new, PathUnroll.transition, hda]

theorem exists_pathAssn {da : Expr} (hda : a.decode = some da) (hcheck : da.check = some .bool)
    (hupdate : ∀ v ∈ d.states, (stateUpdCmpl a v).check = some v.sort) :
    ∃ φ, PathUnroll.pathAssn z3 cfgUnroller [⟨d, a⟩] 0 = some φ := by
  apply Option.isSome_iff_exists.mp
  rw [PathUnroll.isSome_pathAssn]
  refine ⟨by simp [hda], fun i hi => ?_, by simp [Unroller.endPred, cfgUnroller, Unroller.new]⟩
  obtain rfl : i = 0 := by simpa using hi
  rw [stepPred_single hda, List.forall_mem_singleton]
  exact ⟨hcheck, fun v hv => hupdate v (mem_defineDepVar.mp hv)⟩

theorem sat_path {da db : Expr} {φ : Term} (hda : a.decode = some da) (hdb : db.check = some .bool)
    (hφ : PathUnroll.pathAssn z3 cfgUnroller [⟨d, a⟩] 0 = some φ) {M : Model} :
    M.Sat (φ.conj (getExpr z3 (cfgUnroller.suffCurr 1) db)) ↔
      (frame M (cfgUnroller.suffCurr 0)).Holds da ∧ (frame M (cfgUnroller.suffCurr 1)).Holds db ∧
        ∀ v ∈ d.states, (stateUpdCmpl a v).eval (frame M (cfgUnroller.suffCurr 0)) =
          some (M.const (v.sym (cfgUnroller.suffCurr 1))) := by
  obtain ⟨tr, htr, hφ⟩ := Option.bind_eq_some_iff.mp hφ
  obtain rfl := PathUnroll.trans_eq_some htr
  rw [Term.sat_conj, sat_getExpr hdb, Unroller.sat_unrollAssn hφ]
  have hend : cfgUnroller.EndHolds [(⟨d, a⟩ : HostedInstr)].length (frame M (cfgUnroller.suffCurr 1)) := by
    simp [Unroller.EndHolds, Unroller.endPred, cfgUnroller, Unroller.new]
  constructor
  · rintro ⟨⟨hstep, -⟩, hb⟩
    obtain ⟨hpred, hnext⟩ := hstep 0 (by simp)
    rw [stepPred_single hda, List.forall_mem_singleton] at hpred
    exact ⟨hpred, hb, fun v hv => hnext v (mem_defineDepVar.mpr hv)⟩
  · rintro ⟨ha, hb, hnext⟩
    refine ⟨⟨fun i hi => ?_, hend⟩, hb⟩
    obtain rfl : i = 0 := by simpa using hi
    refine ⟨?_, fun v hv => hnext v (mem_defineDepVar.mp hv)⟩
    rw [stepPred_single hda, List.forall_mem_singleton]
    exact ha

/-- The valuation of the second step, with the states of other ILAs as they were. -/
def keepStates (ks : List Var) (ν ν' : Valuation) : Valuation where
  atom x := if x ∈ ks.map Atom.var then ν.atom x else ν'.atom x
  atom_sort x := by
    split
    · exact ν.atom_sort x
    · exact ν'.atom_sort x
  func := ν'.func
  func_sort := ν'.func_sort

theorem keepStates_eval {ks : List Var} {ν ν' : Valuation} {e : Expr} (h : ∀ v ∈ ks, .var v ∉ e.atoms) :
    e.eval (keepStates ks ν ν') = e.eval ν' := by
  refine Expr.eval_congr (fun f _ => rfl) fun x hx => if_neg fun hmem => ?_
  obtain ⟨v, hv, rfl⟩ := List.mem_map.mp hmem
  exact h v hv hx

theorem exists_frames {as : List Atom} {fs : List Func} (hsep : Separate as fs) {ν ν' : Valuation} (hfunc : ν'.func = ν.func) :
    ∃ M : Model, ∀ e : Expr, (∀ x ∈ e.atoms, x ∈ as) → (∀ f ∈ e.funcs, f ∈ fs) →
      e.eval (frame M (cfgUnroller.suffCurr 0)) = e.eval ν ∧ e.eval (frame M (cfgUnroller.suffCurr 1)) = e.eval ν' := by
  let τ : Trace := ⟨fun i x => if i = 0 then ν.atom x else ν'.atom x, fun i x => by
    split
    · exact ν.atom_sort x
    · exact ν'.atom_sort x, ν.func, ν.func_sort⟩
  obtain ⟨M, hM⟩ := exists_realises cfgUnroller 0 hsep τ
  have hzero : τ.frame 0 = ν := rfl
  have hone : τ.frame 1 = ν' := by
    change (⟨ν'.atom, _, ν.func, _⟩ : Valuation) = ν'
    cases ν'
    cases hfunc
    rfl
  refine ⟨M, fun e hatoms hfuncs => ⟨?_, ?_⟩⟩
  · have h := hM.eval_eq 0 hatoms hfuncs
    rwa [hzero] at h
  · have h := hM.eval_eq 1 hatoms hfuncs
    rwa [hone] at h

/-- The solver finds values for the two frames. -/
def SolverTriggers (d : IlaData) (a b : Instr) : Prop :=
  ∃ M : Model, (∀ e ∈ a.decode, (frame M (cfgUnroller.suffCurr 0)).Holds e) ∧
    (∀ e ∈ b.decode, (frame M (cfgUnroller.suffCurr 1)).Holds e) ∧
    ∀ v ∈ d.states, (stateUpdCmpl a v).eval (frame M (cfgUnroller.suffCurr 0)) =
      some (M.const (v.sym (cfgUnroller.suffCurr 1)))

theorem checkCausality_iff (hd : d.CfgSorted) (ha : a ∈ d.instrs) (hb : b ∈ d.instrs) :
    ∃ sat, checkCausality z3 o d a b = some sat ∧ (sat = true ↔ SolverTriggers d a b) := by
  obtain ⟨da, hda, hdaCheck⟩ := hd.decode a ha
  obtain ⟨db, hdb, hdbCheck⟩ := hd.decode b hb
  obtain ⟨φ, hφ⟩ := exists_pathAssn z3 hda hdaCheck (hd.update a ha)
  refine ⟨_, by rw [checkCausality, hφ, Option.bind_some, hdb, Option.map_some], ?_⟩
  rw [o.sat_iff]
  simp only [List.forall_mem_singleton, sat_path z3 hda hdbCheck hφ, SolverTriggers, hda, hdb, Option.mem_def,
    Option.some.injEq, forall_eq']

theorem solverTriggers_iff (hd : d.CfgReady top) (ha : a ∈ d.instrs) (hb : b ∈ d.instrs) :
    SolverTriggers d a b ↔ Triggers top d a b := by
  constructor
  · rintro ⟨M, hholds, hholds', hnext⟩
    let ν := frame M (cfgUnroller.suffCurr 0)
    let ν' := frame M (cfgUnroller.suffCurr 1)
    let ks := top.getSttTree.filter (· ∉ d.states)
    have hks : ∀ v, v ∈ ks ↔ v ∈ top.getSttTree ∧ v ∉ d.states := fun v => by simp [ks]
    refine ⟨ν, keepStates ks ν ν', rfl, hholds, fun e he => ?_, fun v hv => ?_, fun v hv hnot => ?_⟩
    · have hread : ∀ v ∈ ks, .var v ∉ e.atoms := fun v hv hmem =>
        ((hks v).mp hv).2 (hd.own b hb e he v ((hks v).mp hv).1 hmem)
      rw [Valuation.Holds, keepStates_eval hread]
      exact hholds' e he
    · have hnot : Atom.var v ∉ ks.map Atom.var := fun hmem => by
        obtain ⟨w, hw, hvw⟩ := List.mem_map.mp hmem
        obtain rfl : w = v := Atom.var.inj hvw
        exact ((hks w).mp hw).2 hv
      exact (hnext v hv).trans (congrArg some (if_neg hnot).symm)
    · exact if_pos (List.mem_map_of_mem ((hks v).mpr ⟨hv, hnot⟩))
  · rintro ⟨ν, ν', hfunc, hholds, hholds', hnext, -⟩
    obtain ⟨M, hM⟩ := exists_frames hd.names hfunc
    have hframes : ∀ e ∈ d.cfgExprs, e.eval (frame M (cfgUnroller.suffCurr 0)) = e.eval ν ∧
        e.eval (frame M (cfgUnroller.suffCurr 1)) = e.eval ν' := fun e he =>
      hM e (fun x hx => List.mem_flatMap.mpr ⟨e, he, hx⟩) fun f hf => List.mem_flatMap.mpr ⟨e, he, hf⟩
    refine ⟨M, fun e he => ?_, fun e he => ?_, fun v hv => ?_⟩
    · exact (hframes e (mem_cfgExprs_decode ha he)).1.trans (hholds e he)
    · exact (hframes e (mem_cfgExprs_decode hb he)).2.trans (hholds' e he)
    · have h := (hframes _ (mem_cfgExprs_update ha hv)).1
      rw [hnext v hv] at h
      exact h.trans (hframes _ (mem_cfgExprs_var hv)).2.symm

end Query

/-! ### The whole pass -/

section Lift

variable (z3 : Z3) (o : Oracle) {top : Ila}

theorem mem_causePairs {is : List Instr} {p : Instr × Instr} : p ∈ causePairs is ↔ p.1 ∈ is ∧ p.2 ∈ is := by
  obtain ⟨a, b⟩ := p
  induction is with
  | nil => simp [causePairs]
  | cons j is ih =>
    simp only [causePairs, List.mem_append, List.mem_cons, List.mem_flatMap, List.not_mem_nil, or_false, Prod.mk.injEq, ih]
    constructor
    · rintro ((⟨rfl, rfl⟩ | ⟨k, hk, ⟨rfl, rfl⟩ | ⟨rfl, rfl⟩⟩) | ⟨ha, hb⟩)
      · exact ⟨.inl rfl, .inl rfl⟩
      · exact ⟨.inl rfl, .inr hk⟩
      · exact ⟨.inr hk, .inl rfl⟩
      · exact ⟨.inr ha, .inr hb⟩
    · rintro ⟨rfl | ha, rfl | hb⟩
      · exact .inl (.inl ⟨rfl, rfl⟩)
      · exact .inl (.inr ⟨b, hb, .inl ⟨rfl, rfl⟩⟩)
      · exact .inl (.inr ⟨a, ha, .inr ⟨rfl, rfl⟩⟩)
      · exact .inr ⟨ha, hb⟩

theorem inferTrans_spec {d : IlaData} (hd : d.CfgSorted) {ps : List (Instr × Instr)}
    (hps : ∀ p ∈ ps, p.1 ∈ d.instrs ∧ p.2 ∈ d.instrs) (seq : List SeqTran) :
    ∃ seq', inferTrans z3 o d ps seq = some seq' ∧ ∀ x y, (∃ t ∈ seq', t.src = x ∧ t.dst = y) ↔
      (∃ t ∈ seq, t.src = x ∧ t.dst = y) ∨ ∃ p ∈ ps, (p.1.id = x ∧ p.2.id = y) ∧ SolverTriggers d p.1 p.2 := by
  induction ps generalizing seq with
  | nil => exact ⟨seq, rfl, by simp⟩
  | cons p ps ih =>
    obtain ⟨hp, hps⟩ := List.forall_mem_cons.mp hps
    obtain ⟨sat, hsat, hiff⟩ := checkCausality_iff z3 o hd hp.1 hp.2
    rw [inferTrans, hsat, Option.bind_some]
    cases sat with
    | false =>
      obtain ⟨seq', hseq, hmem⟩ := ih hps seq
      have hnot : ¬SolverTriggers d p.1 p.2 := fun h => Bool.false_ne_true (hiff.mpr h)
      refine ⟨seq', hseq, fun x y => ?_⟩
      rw [hmem, List.exists_mem_cons_iff]
      simp [hnot]
    | true =>
      obtain ⟨seq', hseq, hmem⟩ := ih hps (seq ++ [⟨p.1.id, p.2.id, .boolConst true⟩])
      refine ⟨seq', hseq, fun x y => ?_⟩
      rw [hmem, List.exists_mem_cons_iff]
      simp only [List.mem_append, List.mem_singleton, or_and_right, exists_or, exists_eq_left, hiff.mp rfl, and_true, or_assoc]

theorem inferSeq_spec {d : IlaData} (hd : d.instrSeq = [] → d.CfgSorted) :
    ∃ d', inferSeq z3 o d = some d' ∧ d.Inferred (SolverTriggers d) d' := by
  by_cases hseq : d.instrSeq = []
  · obtain ⟨seq, htrans, hmem⟩ := inferTrans_spec z3 o (hd hseq) (fun p hp => mem_causePairs.mp hp) d.instrSeq
    refine ⟨{ d with instrSeq := seq }, by rw [inferSeq, if_pos hseq, htrans, Option.map_some], rfl,
      fun h => absurd hseq h, fun _ a ha b hb => ?_⟩
    rw [InstrSeq.contains_ofTrans, hmem, hseq]
    constructor
    · rintro (⟨t, ht, -⟩ | ⟨p, hp, ⟨hpa, hpb⟩, htrig⟩)
      · cases ht
      · obtain ⟨hpi, hpj⟩ := mem_causePairs.mp hp
        have hids := (hd hseq).ids
        rw [List.inj_on_of_nodup_map hids hpi ha hpa, List.inj_on_of_nodup_map hids hpj hb hpb] at htrig
        exact htrig
    · exact fun htrig => .inr ⟨(a, b), mem_causePairs.mpr ⟨ha, hb⟩, ⟨rfl, rfl⟩, htrig⟩
  · exact ⟨d, by rw [inferSeq, if_neg hseq], rfl, fun _ => rfl, fun h => absurd h hseq⟩

theorem inferChilds_spec : ∀ (cs : List Ila), (∀ c ∈ Ila.preOrderList cs, c.data.instrSeq = [] → c.data.CfgSorted) →
    ∃ cs', inferChilds z3 o cs = some cs' ∧
      List.Forall₂ (fun c c' => c.data.Inferred (SolverTriggers c.data) c'.data) (Ila.preOrderList cs) (Ila.preOrderList cs')
  | [], _ => ⟨[], by rw [inferChilds], .nil⟩
  | .mk d cs :: rest, h => by
    rw [Ila.preOrderList, List.forall_mem_append, Ila.preOrder, List.forall_mem_cons] at h
    obtain ⟨⟨hd, hcs⟩, hrest⟩ := h
    obtain ⟨d', hd', hinferred⟩ := inferSeq_spec (d := d) z3 o hd
    obtain ⟨cs', hcs', hrel⟩ := inferChilds_spec cs hcs
    obtain ⟨rest', hrest', hrels⟩ := inferChilds_spec rest hrest
    refine ⟨.mk d' cs' :: rest', by rw [inferChilds, hd', Option.bind_some, hcs', Option.bind_some, hrest', Option.map_some], ?_⟩
    rw [Ila.preOrderList, Ila.preOrder, Ila.preOrderList, Ila.preOrder]
    exact .cons hinferred (List.rel_append hrel hrels)

theorem inferChildProgCFG_spec (m : Ila) (hm : ∀ c ∈ Ila.preOrderList m.childs, c.data.instrSeq = [] → c.data.CfgSorted) :
    ∃ m', inferChildProgCFG z3 o m = some m' ∧ m'.data = m.data ∧
      List.Forall₂ (fun c c' => c.data.Inferred (SolverTriggers c.data) c'.data) (Ila.preOrderList m.childs)
        (Ila.preOrderList m'.childs) := by
  obtain ⟨d, cs⟩ := m
  obtain ⟨cs', hcs', hrel⟩ := inferChilds_spec z3 o cs hm
  exact ⟨.mk d cs', by rw [inferChildProgCFG, hcs', Option.map_some], rfl, hrel⟩

end Lift

theorem IlaData.Inferred.imp {T T' : Instr → Instr → Prop} {d d' : IlaData} (h : d.Inferred T d')
    (hT : d.instrSeq = [] → ∀ a ∈ d.instrs, ∀ b ∈ d.instrs, T a b ↔ T' a b) : d.Inferred T' d' :=
  ⟨h.same, h.kept, fun hseq a ha b hb => (h.exact hseq a ha b hb).trans (hT hseq a ha b hb)⟩

/-- The pass goes through, leaves the top and the sequences that are there alone, and gives every other ILA below the top
whose decodes and names allow it exactly the transitions between instructions that can follow each other. -/
theorem inferChildProgCFG_exact (z3 : Z3) (o : Oracle) (m : Ila)
    (hm : ∀ c ∈ Ila.preOrderList m.childs, c.data.instrSeq = [] → c.data.CfgSorted) :
    ∃ m', inferChildProgCFG z3 o m = some m' ∧ m'.data = m.data ∧
      List.Forall₂ (fun c c' => (c.data.instrSeq = [] → c.data.CfgReady m) → c.data.Inferred (Triggers m c.data) c'.data)
        (Ila.preOrderList m.childs) (Ila.preOrderList m'.childs) := by
  obtain ⟨m', hinfer, hdata, hrel⟩ := inferChildProgCFG_spec z3 o m hm
  refine ⟨m', hinfer, hdata, hrel.imp fun c c' h hready => ?_⟩
  exact h.imp fun hseq a ha b hb => solverTriggers_iff (hready hseq) ha hb

namespace CfgTest

def childVar : Var := ⟨1, "x", some "P.C", .bool⟩

/-- A parent, whose states were declared after the child was created, and a child with one state. -/
def family (states : List Var) (instrs : List Instr) : Ila :=
  .mk { IlaData.new 0 "P" with states := states }
    [.mk { IlaData.new 1 "C" with
      rootName := "P.C"
      states := [childVar]
      instrs := instrs } []]

/-- The child sets and clears its state in turn. -/
def toggling : Ila := family []
  [⟨10, "set", some (.not (.var childVar)), [("x", some (.boolConst true))], none⟩,
    ⟨11, "clear", some (.var childVar), [("x", some (.boolConst false))], none⟩]

end CfgTest

open CfgTest in
theorem inferChildProgCFG_exact_toggling : ∃ m', inferChildProgCFG default default toggling = some m' ∧
    m'.data = toggling.data ∧ List.Forall₂ (fun c c' => c.data.Inferred (Triggers toggling c.data) c'.data)
      (Ila.preOrderList toggling.childs) (Ila.preOrderList m'.childs) := by
  have hready : ∀ c ∈ Ila.preOrderList toggling.childs, c.data.CfgReady toggling := by
    intro c hc
    obtain rfl := List.mem_singleton.mp hc
    refine ⟨⟨?_, by decide, by decide⟩, by decide, ⟨by decide, by decide⟩⟩
    simp only [Ila.data_mk, List.forall_mem_cons]
    exact ⟨⟨_, rfl, rfl⟩, ⟨_, rfl, rfl⟩, by simp⟩
  obtain ⟨m', hinfer, hdata, hrel⟩ := inferChildProgCFG_exact default default toggling fun c hc _ => (hready c hc).sorted
  exact ⟨m', hinfer, hdata, ((List.forall₂_and_left _ _).mpr ⟨hready, hrel⟩).imp fun c c' h => h.2 fun _ => h.1⟩

namespace CfgTest

def parentVar : Var := ⟨2, "p", some "P", .bool⟩

/-- The two instructions are told apart by a state that only the parent has. -/
def on : Instr := ⟨10, "on", some (.var parentVar), [], none⟩
def off : Instr := ⟨11, "off", some (.not (.var parentVar)), [], none⟩

/-- A variable without a host, under the solver name of the state of the child. -/
def freeVar : Var := ⟨3, "P.C_sEp_x", none, .bool⟩

def set : Instr := ⟨10, "set", some (.boolConst true), [("x", some (.boolConst true))], none⟩
def odd : Instr := ⟨11, "odd", some (.and (.var childVar) (.not (.var freeVar))), [], none⟩

theorem exists_inexact (states : List Var) {a b : Instr} (hsorted : ∀ c ∈ (family states [a, b]).childs, c.data.CfgSorted)
    (hne : ∀ c ∈ (family states [a, b]).childs, ¬(SolverTriggers c.data a b ↔ Triggers (family states [a, b]) c.data a b)) :
    ∃ m', inferChildProgCFG default default (family states [a, b]) = some m' ∧
      ¬List.Forall₂ (fun c c' => c.data.Inferred (Triggers (family states [a, b]) c.data) c'.data)
        (Ila.preOrderList (family states [a, b]).childs) (Ila.preOrderList m'.childs) := by
  have hbelow : Ila.preOrderList (family states [a, b]).childs = (family states [a, b]).childs := rfl
  obtain ⟨m', hinfer, -, hrel⟩ := inferChildProgCFG_spec default default (family states [a, b])
    fun c hc _ => hsorted c (hbelow ▸ hc)
  refine ⟨m', hinfer, fun hexact => ?_⟩
  generalize Ila.preOrderList m'.childs = below at hrel hexact
  cases hrel with
  | cons hsolver _ =>
    cases hexact with
    | cons htriggers _ =>
      refine hne _ List.mem_cons_self ?_
      exact (hsolver.exact rfl a (by simp) b (by simp)).symm.trans (htriggers.exact rfl a (by simp) b (by simp))

theorem on_triggers_off {d : IlaData} (hd : d.states = [childVar]) : SolverTriggers d on off := by
  let M : Model := (default : Model).override fun c =>
    if c = parentVar.sym (cfgUnroller.suffCurr 0) then some (.bool true) else none
  have hzero : M.const (parentVar.sym (cfgUnroller.suffCurr 0)) = .bool true := Model.override_some (if_pos rfl) rfl
  have hother : ∀ {v : Var} {t : Int}, ¬(t = 0 ∧ v.sym "" = parentVar.sym "") →
      M.const (v.sym (cfgUnroller.suffCurr t)) = v.sort.default := fun h =>
    Model.override_none (if_neg fun heq => h (Unroller.sym_var_inj.mp heq))
  refine ⟨M, fun e he => ?_, fun e he => ?_, fun v hv => ?_⟩
  · obtain rfl := Option.some.inj he
    exact congrArg some hzero
  · obtain rfl := Option.some.inj he
    rw [Expr.holds_not rfl]
    intro h
    have hone : M.const (parentVar.sym (cfgUnroller.suffCurr 1)) = .bool true := Option.some.inj h
    rw [hother (by decide)] at hone
    cases hone
  · rw [hd, List.mem_singleton] at hv
    subst hv
    have hchild : ∀ t, M.const (childVar.sym (cfgUnroller.suffCurr t)) = childVar.sort.default := fun t =>
      hother fun h => absurd h.2 (by decide)
    exact congrArg some ((hchild 0).trans (hchild 1).symm)

theorem not_on_triggers_off {top : Ila} {d : IlaData} (htop : parentVar ∈ top.getSttTree) (hd : d.states = [childVar]) :
    ¬Triggers top d on off := by
  rintro ⟨ν, ν', -, hon, hoff, -, hkeep⟩
  have hnot := (Expr.holds_not rfl).mp (hoff _ rfl)
  have hsame := hkeep parentVar htop (by rw [hd]; decide)
  refine hnot ?_
  have hset : ν.Holds (.var parentVar) := hon _ rfl
  rw [Valuation.Holds, Expr.eval, hsame]
  exact hset

theorem not_solver_set_odd {d : IlaData} : ¬SolverTriggers d set odd := by
  rintro ⟨M, -, hodd, -⟩
  obtain ⟨hset, hnot⟩ := Expr.holds_and.mp (hodd _ rfl)
  refine (Expr.holds_not rfl).mp hnot ?_
  have hsym : freeVar.sym (cfgUnroller.suffCurr 1) = childVar.sym (cfgUnroller.suffCurr 1) :=
    Unroller.sym_var_inj.mpr ⟨rfl, by decide⟩
  rw [Valuation.Holds, Expr.eval, frame_atom, Atom.sym_var, hsym]
  exact hset

/-- Only the state of the child is true. -/
def childSet : Valuation where
  atom a := if a = .var childVar then .bool true else a.sort.default
  atom_sort a := by
    split
    · rename_i h
      rw [h]
      rfl
    · exact a.sort.sort_default
  func f _ := f.out.default
  func_sort := func_default_sort

theorem set_triggers_odd {top : Ila} {d : IlaData} (hd : d.states = [childVar]) : Triggers top d set odd := by
  refine ⟨childSet, childSet, rfl, fun e he => ?_, fun e he => ?_, fun v hv => ?_, fun v _ _ => rfl⟩
  · obtain rfl := Option.some.inj he
    rfl
  · obtain rfl := Option.some.inj he
    rfl
  · rw [hd, List.mem_singleton] at hv
    subst hv
    rfl

end CfgTest

open CfgTest in
/-- A transition that is not there, by a state that only the parent has, and one that is missed, by a name. -/
theorem inferChildProgCFG_inexact :
    (∃ m', inferChildProgCFG default default (family [parentVar] [on, off]) = some m' ∧
      ¬List.Forall₂ (fun c c' => c.data.Inferred (Triggers (family [parentVar] [on, off]) c.data) c'.data)
        (Ila.preOrderList (family [parentVar] [on, off]).childs) (Ila.preOrderList m'.childs)) ∧
    ∃ m', inferChildProgCFG default default (family [] [set, odd]) = some m' ∧
      ¬List.Forall₂ (fun c c' => c.data.Inferred (Triggers (family [] [set, odd]) c.data) c'.data)
        (Ila.preOrderList (family [] [set, odd]).childs) (Ila.preOrderList m'.childs) := by
  constructor
  · refine exists_inexact [parentVar] (fun c hc => ?_) fun c hc hiff => ?_
    · obtain rfl := List.mem_singleton.mp hc
      refine ⟨?_, by decide, by decide⟩
      simp only [Ila.data_mk, List.forall_mem_cons]
      exact ⟨⟨_, rfl, rfl⟩, ⟨_, rfl, rfl⟩, by simp⟩
    · obtain rfl := List.mem_singleton.mp hc
      exact not_on_triggers_off (by decide) rfl (hiff.mp (on_triggers_off rfl))
  · refine exists_inexact [] (fun c hc => ?_) fun c hc hiff => ?_
    · obtain rfl := List.mem_singleton.mp hc
      refine ⟨?_, by decide, by decide⟩
      simp only [Ila.data_mk, List.forall_mem_cons]
      exact ⟨⟨_, rfl, rfl⟩, ⟨_, rfl, rfl⟩, by simp⟩
    · obtain rfl := List.mem_singleton.mp hc
      exact not_solver_set_odd (hiff.mpr (set_triggers_odd rfl))

end Ilang
