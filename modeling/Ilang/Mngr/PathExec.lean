import Ilang.Mngr.PathUnroll
import Ilang.Mngr.Trace

/-!
# Executions of a path

An execution of a sequence of instructions over a hierarchy: every instruction changes the states of
its own host that it has an update for, and every other state of the hosts in the sequence keeps its
value. `PathUnroll` describes these executions, except that it finds the update of a state by name: an
instruction also updates the states of foreign hosts that happen to have the name.
-/

namespace Ilang

open Smt

namespace PathUnroll

/-- The update that an instruction defines for a state variable, as seen from its host. -/
def ownUpdate (h : HostedInstr) (v : Var) : Option Expr :=
  if v ∈ h.host.states then h.instr.update v.name else none

/-- The executions of a sequence of instructions, under the predicates of the unroller. -/
structure Execution (u : Unroller) (seq : List HostedInstr) (τ : Trace) : Prop where
  decode : ∀ i h, seq[i]? = some h → ∀ d ∈ h.instr.decode, (τ.frame i).Holds d
  update : ∀ i h, seq[i]? = some h → ∀ v ∈ defineDepVar seq, ∀ e ∈ ownUpdate h v,
    e.eval (τ.frame i) = some (τ.atom (i + 1) (.var v))
  keep : ∀ i h, seq[i]? = some h → ∀ v ∈ defineDepVar seq, ownUpdate h v = none →
    τ.atom (i + 1) (.var v) = τ.atom i (.var v)
  init : 0 < seq.length → ∀ e ∈ u.iPred, (τ.frame 0).Holds e
  glob : ∀ i ≤ seq.length, ∀ e ∈ u.gPred, (τ.frame i).Holds e
  step : ∀ i ≤ seq.length, ∀ e ∈ u.sPred i, (τ.frame i).Holds e

/-- The expressions that the unrolling of a sequence translates. -/
def exprs (u : Unroller) (seq : List HostedInstr) : List Expr :=
  ((List.range seq.length).flatMap fun i =>
      u.stepPred (transition seq) i ++ (defineDepVar seq).map ((transition seq).next i))
    ++ u.endPred seq.length ++ (defineDepVar seq).map .var

def atoms (u : Unroller) (seq : List HostedInstr) : List Atom := (exprs u seq).flatMap Expr.atoms

def funcs (u : Unroller) (seq : List HostedInstr) : List Func := (exprs u seq).flatMap Expr.funcs

variable {u : Unroller} {seq : List HostedInstr}

/-- The frames of a trace satisfy what the unrolling asserts of the constants. -/
def Follows (u : Unroller) (seq : List HostedInstr) (τ : Trace) : Prop :=
  (∀ i < seq.length, u.StepHolds (transition seq) i (τ.frame i) fun v => τ.atom (i + 1) (.var v)) ∧
    u.EndHolds seq.length (τ.frame seq.length)

theorem mem_exprs_step {i : Nat} (hi : i < seq.length) {e : Expr}
    (he : e ∈ u.stepPred (transition seq) i) : e ∈ exprs u seq := by
  simp only [exprs, List.mem_append, List.mem_flatMap, List.mem_range]
  exact .inl (.inl ⟨i, hi, .inl he⟩)

theorem mem_exprs_next {i : Nat} (hi : i < seq.length) {v : Var} (hv : v ∈ defineDepVar seq) :
    (transition seq).next i v ∈ exprs u seq := by
  simp only [exprs, List.mem_append, List.mem_flatMap, List.mem_range, List.mem_map]
  exact .inl (.inl ⟨i, hi, .inr ⟨v, hv, rfl⟩⟩)

theorem mem_exprs_end {e : Expr} (he : e ∈ u.endPred seq.length) : e ∈ exprs u seq := by
  simp only [exprs, List.mem_append]
  exact .inl (.inr he)

theorem var_mem_atoms {v : Var} (hv : v ∈ defineDepVar seq) : Atom.var v ∈ atoms u seq := by
  simp only [atoms, exprs, List.mem_flatMap, List.mem_append, List.mem_map]
  exact ⟨.var v, .inr ⟨v, hv, rfl⟩, by simp [Expr.atoms]⟩

theorem sat_pathAssn_iff_follows {z3 : Z3} {φ : Term} (hφ : pathAssn z3 u seq 0 = some φ) {M : Model}
    {τ : Trace} (hM : Realises u 0 (atoms u seq) (funcs u seq) M τ) : M.Sat φ ↔ Follows u seq τ := by
  obtain ⟨tr, htr, hφ⟩ := Option.bind_eq_some_iff.mp hφ
  obtain rfl := trans_eq_some htr
  have hatoms : ∀ e ∈ exprs u seq, ∀ a ∈ e.atoms, a ∈ atoms u seq :=
    fun e he a ha => List.mem_flatMap.mpr ⟨e, he, ha⟩
  have hfuncs : ∀ e ∈ exprs u seq, ∀ f ∈ e.funcs, f ∈ funcs u seq :=
    fun e he f hf => List.mem_flatMap.mpr ⟨e, he, hf⟩
  rw [Unroller.sat_unrollAssn hφ, Follows]
  refine and_congr (forall₂_congr fun i hi => and_congr ?_ ?_) ?_
  · exact forall₂_congr fun e he =>
      hM.holds_iff i (hatoms e (mem_exprs_step hi he)) (hfuncs e (mem_exprs_step hi he))
  · refine forall₂_congr fun v hv => ?_
    have hnext := mem_exprs_next (u := u) hi hv
    have hval : M.const (v.sym (u.suffCurr (0 + i + 1))) = τ.atom (i + 1) (.var v) :=
      hM.atom (i + 1) (.var v) (var_mem_atoms hv)
    simp only [hM.eval_eq i (hatoms _ hnext) (hfuncs _ hnext), hval]
  · refine forall₂_congr fun e he => ?_
    have hend := hM.holds_iff seq.length (hatoms e (mem_exprs_end he)) (hfuncs e (mem_exprs_end he))
    rwa [Int.zero_add] at hend

theorem follows_iff_execution {τ : Trace}
    (hown : ∀ h ∈ seq, ∀ v ∈ defineDepVar seq, (h.instr.update v.name).isSome → v ∈ h.host.states) :
    Follows u seq τ ↔ Execution u seq τ := by
  have hupd : ∀ h ∈ seq, ∀ v ∈ defineDepVar seq, stateUpdCmpl h.instr v = (ownUpdate h v).getD (.var v) := by
    intro h hh v hv
    rw [stateUpdCmpl, ownUpdate]
    split
    · rfl
    · rename_i hnot
      cases hu : h.instr.update v.name with
      | none => rfl
      | some e => exact absurd (hown h hh v hv (by rw [hu]; rfl)) hnot
  have hnext : ∀ i h, seq[i]? = some h → ∀ v ∈ defineDepVar seq,
      (transition seq).next i v = (ownUpdate h v).getD (.var v) := by
    intro i h hi v hv
    rw [← hupd h (List.mem_of_getElem? hi) v hv]
    simp only [transition, hi, Option.elim_some]
  constructor
  · rintro ⟨hsteps, hend⟩
    have hlt : ∀ {i h}, seq[i]? = some h → i < seq.length := fun hi => (List.getElem?_eq_some_iff.mp hi).1
    have hpreds := fun i hi => Unroller.forall_mem_stepPred.mp (hsteps i hi).1
    rw [Unroller.EndHolds, Unroller.endPred, List.forall_mem_append] at hend
    refine ⟨fun i h hi d hd => ?_, fun i h hi v hv e he => ?_, fun i h hi v hv hnone => ?_,
      fun hpos e he => ?_, fun i hi => ?_, fun i hi => ?_⟩
    · refine (hpreds i (hlt hi)).2.2.1 d ?_
      simp only [transition, hi, Option.elim_some, Option.mem_toList]
      exact hd
    · have hval := (hsteps i (hlt hi)).2 v hv
      rwa [hnext i h hi v hv, show ownUpdate h v = some e from he] at hval
    · have hval := (hsteps i (hlt hi)).2 v hv
      rw [hnext i h hi v hv, hnone] at hval
      exact (Option.some.inj hval).symm
    · exact (hpreds 0 hpos).1 e he
    · rcases Nat.lt_or_eq_of_le hi with hi | rfl
      · exact (hpreds i hi).2.1
      · exact hend.1
    · rcases Nat.lt_or_eq_of_le hi with hi | rfl
      · exact (hpreds i hi).2.2.2
      · exact hend.2
  · intro hex
    refine ⟨fun i hi => ⟨Unroller.forall_mem_stepPred.mpr ⟨?_, hex.glob i (Nat.le_of_lt hi), ?_,
      hex.step i (Nat.le_of_lt hi)⟩, fun v hv => ?_⟩, ?_⟩
    · intro e he
      rw [Unroller.initPred] at he
      split at he
      · rename_i hzero
        subst hzero
        exact hex.init hi e he
      · simp at he
    · intro d hd
      simp only [transition, List.getElem?_eq_getElem hi, Option.elim_some, Option.mem_toList] at hd
      exact hex.decode i _ (List.getElem?_eq_getElem hi) d hd
    · have hi' := List.getElem?_eq_getElem hi
      rw [hnext i _ hi' v hv]
      cases hu : ownUpdate seq[i] v with
      | none => exact congrArg some (hex.keep i _ hi' v hv hu).symm
      | some e => exact hex.update i _ hi' v hv e hu
    · rw [Unroller.EndHolds, Unroller.endPred, List.forall_mem_append]
      exact ⟨hex.glob _ le_rfl, hex.step _ le_rfl⟩

/-- The models of `PathAssn` are exactly the executions of the sequence, when no instruction has an update
under the name of a state that another host of the sequence has and its own host has not, and the
variables and functions that occur have different names in the solver. -/
theorem pathAssn_models_are_executions (z3 : Z3) (u : Unroller) (seq : List HostedInstr) {φ : Term}
    (hφ : pathAssn z3 u seq 0 = some φ)
    (hown : ∀ h ∈ seq, ∀ v ∈ defineDepVar seq, (h.instr.update v.name).isSome → v ∈ h.host.states)
    (hsep : Separate (atoms u seq) (funcs u seq)) :
    (∀ M : Model, M.Sat φ ↔ Execution u seq (traceOf u M)) ∧
      ∀ τ : Trace, (∃ M : Model, M.Sat φ ∧ Realises u 0 (atoms u seq) (funcs u seq) M τ) ↔
        Execution u seq τ := by
  refine ⟨fun M => ?_, fun τ => ⟨?_, fun hτ => ?_⟩⟩
  · rw [sat_pathAssn_iff_follows hφ (realises_traceOf u _ _ M), follows_iff_execution hown]
  · rintro ⟨M, hsat, hM⟩
    rwa [sat_pathAssn_iff_follows hφ hM, follows_iff_execution hown] at hsat
  · obtain ⟨M, hM⟩ := exists_realises u 0 hsep τ
    exact ⟨M, (sat_pathAssn_iff_follows hφ hM).mpr ((follows_iff_execution hown).mpr hτ), hM⟩

/-! ### A foreign state of the same name -/

/-- The state `x` of `P`, declared after the child `C` was created. -/
def parentX : Var := ⟨0, "x", some "P", .bool⟩

/-- A state of the child itself. -/
def childState (name : String) : Var := ⟨1, name, some "P.C", .bool⟩

/-- The parent sets its `x`; the child has a state of its own and an instruction without updates. -/
def parentChild (name : String) : Ila :=
  .mk { IlaData.new 0 "P" with
        states := [parentX]
        instrs := [⟨2, "set", some (.const (.bool true)), [("x", some (.const (.bool true)))], none⟩] }
    [.mk { IlaData.new 1 "C" with
        rootName := "P.C"
        states := [childState name]
        instrs := [⟨3, "idle", some (.const (.bool true)), [], none⟩] } []]

/-- The instruction of the parent, then that of the child. -/
def parentChildSeq (name : String) : List HostedInstr := (parentChild name).getInstrTree.reverse

/-- All Boolean atoms are false, except that `x` of the parent is set from frame 1 on. -/
def setParent : Trace where
  atom i a := if a = .var parentX then .bool (i ≠ 0) else a.sort.default
  atom_sort i a := by
    split
    · rename_i ha
      rw [ha]
      rfl
    · exact a.sort.sort_default
  func f _ := f.out.default
  func_sort := func_default_sort

theorem parentChild_vars : ∀ v ∈ defineDepVar (parentChildSeq "x"), v = parentX ∨ v = childState "x" := by
  decide

theorem setParent_execution : Execution (Unroller.new "") (parentChildSeq "x") setParent where
  decode i h hi d hd := by
    match i, hi with
    | 0, hi | 1, hi =>
      obtain rfl := Option.some.inj hi
      obtain rfl := Option.some.inj hd
      rfl
  update i h hi v hv e he := by
    match i, hi with
    | 0, hi =>
      obtain rfl := Option.some.inj hi
      rcases parentChild_vars v hv with rfl | rfl
      · obtain rfl := Option.some.inj he
        rfl
      · simp [ownUpdate, parentX, childState] at he
    | 1, hi =>
      obtain rfl := Option.some.inj hi
      rcases parentChild_vars v hv with rfl | rfl <;> simp [ownUpdate, parentX, childState, Instr.update] at he
  keep i h hi v hv hnone := by
    match i, hi with
    | 0, hi =>
      obtain rfl := Option.some.inj hi
      rcases parentChild_vars v hv with rfl | rfl
      · simp [ownUpdate, parentX, Instr.update] at hnone
      · rfl
    | 1, hi => rcases parentChild_vars v hv with rfl | rfl <;> rfl
  init _ e he := by simp [Unroller.new] at he
  glob _ _ e he := by simp [Unroller.new] at he
  step _ _ e he := by simp [Unroller.new] at he

/-- The child's `x` is set along with the parent's, although the parent does not have it: the execution
in which it keeps its value is not among the models. -/
theorem pathAssn_updates_foreign_state : ∃ φ,
    pathAssn default (Unroller.new "") (parentChildSeq "x") 0 = some φ ∧
    Execution (Unroller.new "") (parentChildSeq "x") setParent ∧
    ¬∃ M : Model, M.Sat φ ∧ Realises (Unroller.new "") 0 (atoms (Unroller.new "") (parentChildSeq "x"))
      (funcs (Unroller.new "") (parentChildSeq "x")) M setParent := by
  generalize (default : Z3) = z3
  obtain ⟨φ, hφ⟩ := Option.isSome_iff_exists.mp
    ((isSome_pathAssn z3 (Unroller.new "") (parentChildSeq "x") 0).mpr (by decide))
  refine ⟨φ, hφ, setParent_execution, ?_⟩
  rintro ⟨M, hsat, hM⟩
  obtain ⟨hsteps, -⟩ := (sat_pathAssn_iff_follows hφ hM).mp hsat
  have hset := (hsteps 0 (by decide)).2 (childState "x") (by decide)
  have hval : Value.bool true = setParent.atom 1 (.var (childState "x")) := Option.some.inj hset
  simp [setParent, parentX, childState, Atom.sort, Srt.default] at hval

/-- With another name for the state of the child the models are the executions. -/
theorem pathAssn_models_are_executions_distinct : ∃ φ,
    pathAssn default (Unroller.new "") (parentChildSeq "y") 0 = some φ ∧
    ∀ M : Model, M.Sat φ ↔ Execution (Unroller.new "") (parentChildSeq "y") (traceOf (Unroller.new "") M) := by
  obtain ⟨φ, hφ⟩ := Option.isSome_iff_exists.mp
    ((isSome_pathAssn default (Unroller.new "") (parentChildSeq "y") 0).mpr (by decide))
  exact ⟨φ, hφ, (pathAssn_models_are_executions default (Unroller.new "") (parentChildSeq "y") hφ
    (by decide) ⟨by decide, by decide⟩).1⟩

end PathUnroll

end Ilang
