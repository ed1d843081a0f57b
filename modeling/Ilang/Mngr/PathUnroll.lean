import Ilang.Ila.Abs
import Ilang.Mngr.Unroller

/-!
# Unrolling a sequence of instructions

`PathUnroll` unrolls a fixed sequence of instructions over the states of all their hosts. Substituting
the next states forward and asserting them frame by frame describe the same executions as long as two
states that the solver sees as one constant are also updated as one: the next state is looked up by
name.
-/

namespace Ilang

open Smt

namespace Unroller

/-! ### Substitution against assertion, for any transition function -/

variable {z3 : Z3} {u : Unroller} {tr : Trans}

/-- Two state variables with one constant are updated alike. -/
def Coherent (tr : Trans) : Prop :=
  ∀ i, ∀ v ∈ tr.vars, ∀ w ∈ tr.vars, v.sym "" = w.sym "" →
    tr.next i v = tr.next i w ∨ (tr.next i v = .var v ∧ tr.next i w = .var w)

theorem sym_var_inj {v w : Var} {s t : Int} :
    v.sym (u.suffCurr s) = w.sym (u.suffCurr t) ↔ s = t ∧ v.sym "" = w.sym "" :=
  sym_suffCurr_inj (a := .var v) (b := .var w)

theorem subsModel_func (pos : Int) (M : Model) (i : Nat) : (subsModel z3 u tr pos M i).func = M.func := rfl

theorem frame_subsModel_eq {M : Model} {pos : Int} {i : Nat}
    (hval : ∀ v ∈ tr.vars,
      ((subsLoop z3 u tr pos i).1 v).eval M = some (M.const (v.sym (u.suffCurr (pos + i))))) :
    frame (subsModel z3 u tr pos M i) (u.suffCurr (pos + i)) = frame M (u.suffCurr (pos + i)) := by
  refine frame_congr (subsModel_func pos M i) fun a => ?_
  cases hσ : substOf tr.vars (u.suffCurr (pos + i)) (subsLoop z3 u tr pos i).1 (a.sym (u.suffCurr (pos + i))) with
  | none => exact Term.substModel_none hσ
  | some t =>
    obtain ⟨v, hv, hsym, rfl⟩ := substOf_some hσ
    rw [← hsym] at hσ ⊢
    exact Term.substModel_some hσ (hval v hv) (M.const_sort _)

theorem sat_unrollSubs_of_unrollAssn {M : Model} {len : Nat} {φ ψ : Term}
    (hφ : unrollSubs z3 u tr len 0 = some φ) (hψ : unrollAssn z3 u tr len 0 = some ψ) (hM : M.Sat ψ) :
    M.Sat φ := by
  have hsorted : u.Sorted tr len (u.endPred len) := by
    rw [unrollSubs, Option.ite_none_right_eq_some] at hφ
    exact hφ.1
  obtain ⟨hsteps, hend⟩ := (sat_unrollAssn hψ).mp hM
  have hval : ∀ i ≤ len, ∀ v ∈ tr.vars,
      ((subsLoop z3 u tr 0 i).1 v).eval M = some (M.const (v.sym (u.suffCurr (0 + i)))) := by
    intro i
    induction i with
    | zero => exact fun _ v _ => subsLoop_zero_eval M 0 v
    | succ i ih =>
      intro hi v hv
      rw [subsLoop_succ_eval hsorted hi hv, frame_subsModel_eq (ih (Nat.le_of_lt hi)), (hsteps i hi).2 v hv]
      congr 4
  rw [sat_unrollSubs hφ]
  refine ⟨fun i hi e he => ?_, fun v hv => ?_, hend⟩
  · rw [frame_subsModel_eq (hval i (Nat.le_of_lt hi))]
    exact (hsteps i hi).1 e he
  · rw [hval len le_rfl v hv, Int.zero_add]

theorem subsLoop_coherent {M : Model} {len : Nat} {ends : List Expr} (hcoh : Coherent tr)
    (h : u.Sorted tr len ends) {i : Nat} (hi : i ≤ len) {v w : Var} (hv : v ∈ tr.vars) (hw : w ∈ tr.vars)
    (hsym : v.sym "" = w.sym "") :
    ((subsLoop z3 u tr 0 i).1 v).eval M = ((subsLoop z3 u tr 0 i).1 w).eval M := by
  have hframe : ∀ t, v.sym (u.suffCurr t) = w.sym (u.suffCurr t) := fun t => sym_var_inj.mpr ⟨rfl, hsym⟩
  cases i with
  | zero => rw [subsLoop_zero_eval, subsLoop_zero_eval, hframe]
  | succ i =>
    rw [subsLoop_succ_eval h hi hv, subsLoop_succ_eval h hi hw]
    rcases hcoh i v hv w hw hsym with hnext | ⟨hnv, hnw⟩
    · rw [hnext]
    · rw [hnv, hnw, Expr.eval, Expr.eval, frame_atom, frame_atom, Atom.sym_var, Atom.sym_var, hframe]

/-- The frames strictly between the first and the last. -/
def Inner (tr : Trans) (len : Nat) : Type := { p : Nat × Var // 0 < p.1 ∧ p.1 < len ∧ p.2 ∈ tr.vars }

def Inner.sym {len : Nat} (u : Unroller) (p : Inner tr len) : Sym := p.1.2.sym (u.suffCurr p.1.1)

/-- A model of the substituted frames gives a model of the asserted ones, in which only the states of
the frames in between have other values. -/
theorem exists_sat_unrollAssn_of_unrollSubs {M : Model} {len : Nat} {φ ψ : Term} (hcoh : Coherent tr)
    (hφ : unrollSubs z3 u tr len 0 = some φ) (hψ : unrollAssn z3 u tr len 0 = some ψ) (hM : M.Sat φ) :
    ∃ N : Model, N.Sat ψ ∧ ∀ c, (∀ p : Inner tr len, p.sym u ≠ c) → N.const c = M.const c := by
  have hsorted : u.Sorted tr len (u.endPred len) := by
    rw [unrollSubs, Option.ite_none_right_eq_some] at hφ
    exact hφ.1
  obtain ⟨hpreds, hlast, hend⟩ := (sat_unrollSubs hφ).mp hM
  -- the value that is substituted for a state of a frame
  have hvals : ∀ i ≤ len, ∀ v ∈ tr.vars, ∃ w, ((subsLoop z3 u tr 0 i).1 v).eval M = some w ∧ w.sort = v.sort := by
    intro i hi v hv
    cases i with
    | zero => exact ⟨_, subsLoop_zero_eval M 0 v, M.const_sort _⟩
    | succ i =>
      rw [subsLoop_succ_eval hsorted hi hv]
      exact Expr.eval_of_check (hsorted.next hi hv) _
  have hinner : ∀ p : Inner tr len, ∃ w,
      ((subsLoop z3 u tr 0 p.1.1).1 p.1.2).eval M = some w ∧ w.sort = p.1.2.sort :=
    fun p => hvals p.1.1 (Nat.le_of_lt p.2.2.1) p.1.2 p.2.2.2
  choose val hval hvalSort using hinner
  obtain ⟨N, hfunc, hN, hother⟩ := M.exists_assign (fun p : Inner tr len => p.sym u) val
    (fun p => hvalSort p) (by
      intro p q hpq
      obtain ⟨hi, hsym⟩ := sym_var_inj.mp hpq
      have hpq' : ((subsLoop z3 u tr 0 p.1.1).1 p.1.2).eval M = ((subsLoop z3 u tr 0 q.1.1).1 q.1.2).eval M := by
        rw [← Int.ofNat_inj.mp hi]
        exact subsLoop_coherent hcoh hsorted (Nat.le_of_lt p.2.2.1) p.2.2.2 q.2.2.2 hsym
      rw [hval, hval] at hpq'
      exact Option.some.inj hpq')
  -- the constants of a frame that is not in between are untouched
  have houter : ∀ (i : Nat) (a : Atom), (i = 0 ∨ i = len) →
      N.const (a.sym (u.suffCurr i)) = M.const (a.sym (u.suffCurr i)) := by
    intro i a hi
    refine hother _ fun p hp => ?_
    obtain ⟨hpi, -⟩ := (sym_suffCurr_inj (a := .var p.1.2)).mp hp
    have h1 := p.2.1
    have h2 := p.2.2.1
    omega
  have hstate : ∀ i ≤ len, ∀ v ∈ tr.vars,
      ((subsLoop z3 u tr 0 i).1 v).eval M = some (N.const (v.sym (u.suffCurr i))) := by
    intro i hi v hv
    rcases Nat.eq_zero_or_pos i with rfl | hpos
    · rw [subsLoop_zero_eval]
      exact congrArg some (houter 0 (.var v) (.inl rfl)).symm
    rcases Nat.lt_or_eq_of_le hi with hlt | rfl
    · have hp := hN ⟨(i, v), hpos, hlt, hv⟩
      rw [hval ⟨(i, v), hpos, hlt, hv⟩, ← hp]
      rfl
    · rw [hlast v hv]
      exact congrArg some (houter i (.var v) (.inr rfl)).symm
  have hframe : ∀ i < len, frame N (u.suffCurr (0 + i)) = frame (subsModel z3 u tr 0 M i) (u.suffCurr (0 + i)) := by
    intro i hi
    refine frame_congr hfunc fun a => ?_
    cases hσ : substOf tr.vars (u.suffCurr (0 + i)) (subsLoop z3 u tr 0 i).1 (a.sym (u.suffCurr (0 + i))) with
    | none =>
      rw [subsModel, Term.substModel_none hσ]
      refine hother _ fun p hp => ?_
      obtain ⟨hpi, -⟩ := (sym_suffCurr_inj (a := .var p.1.2)).mp hp
      refine substOf_none hσ p.1.2 p.2.2.2 ?_
      rw [← hp, ← hpi]
      rfl
    | some t =>
      obtain ⟨v, hv, hsym, rfl⟩ := substOf_some hσ
      rw [← hsym] at hσ ⊢
      rw [subsModel, Term.substModel_some hσ (hstate i (Nat.le_of_lt hi) v hv) (N.const_sort _), Int.zero_add]
  refine ⟨N, (sat_unrollAssn hψ).mpr ⟨fun i hi => ⟨fun e he => ?_, fun v hv => ?_⟩, ?_⟩, hother⟩
  · rw [hframe i hi]
    exact hpreds i hi e he
  · rw [hframe i hi, ← subsLoop_succ_eval hsorted hi hv, Int.zero_add]
    exact hstate (i + 1) hi v hv
  · have hlast : frame N (u.suffCurr len) = frame M (u.suffCurr len) :=
      frame_congr hfunc fun a => houter len a (.inr rfl)
    rw [hlast]
    exact hend

theorem isSome_unrollSubs (len : Nat) (pos : Int) :
    (unrollSubs z3 u tr len pos).isSome = (unrollAssn z3 u tr len pos).isSome := by
  rw [unrollSubs, unrollAssn]
  split <;> rfl

end Unroller

/-! ### Paths -/

namespace PathUnroll

/-- `PathUnroll::DefineDepVar`. -/
def defineDepVar (seq : List HostedInstr) : List Var := (seq.flatMap fun h => h.host.states).dedup

/-- `PathUnroll::Transition`. -/
def transition (seq : List HostedInstr) : Trans where
  vars := defineDepVar seq
  next i v := (seq[i]?).elim (.var v) fun h => stateUpdCmpl h.instr v
  pred i := (seq[i]?).elim [] fun h => h.instr.decode.toList

/-- A null decode stops the program. -/
def trans (seq : List HostedInstr) : Option Trans :=
  if seq.all fun h => h.instr.decode.isSome then some (transition seq) else none

variable (z3 : Z3) (u : Unroller) (seq : List HostedInstr)

def pathSubs (pos : Int) : Option Term := (trans seq).bind fun tr => u.unrollSubs z3 tr seq.length pos

def pathAssn (pos : Int) : Option Term := (trans seq).bind fun tr => u.unrollAssn z3 tr seq.length pos

def pathNone (pos : Int) : Option Term := (trans seq).bind fun tr => u.unrollNone z3 tr seq.length pos

/-- The inputs of the hosts. -/
def inputs : List Var := seq.flatMap fun h => h.host.inputs

/-- The variables that a path exposes, each with its frame: the states of the first and the last frame,
and the inputs of all frames. -/
def observed : List (Nat × Var) :=
  (defineDepVar seq).flatMap (fun v => [(0, v), (seq.length, v)])
    ++ (inputs seq).flatMap fun x => (List.range (seq.length + 1)).map fun i => (i, x)

/-- The valuations of some variables that extend to a model of the formula. -/
def project (obs : List (Nat × Var)) (φ : Option Term) : Set (Nat → Var → Value) :=
  { κ | ∃ ψ ∈ φ, ∃ M : Model, M.Sat ψ ∧ ∀ p ∈ obs, M.const (p.2.sym (u.suffCurr p.1)) = κ p.1 p.2 }

variable {z3 u seq}

theorem trans_eq_some {tr : Trans} (h : trans seq = some tr) : tr = transition seq := by
  rw [trans, Option.ite_none_right_eq_some] at h
  exact (Option.some.inj h.2).symm

theorem isSome_pathAssn (z3 : Z3) (u : Unroller) (seq : List HostedInstr) (pos : Int) :
    (pathAssn z3 u seq pos).isSome ↔
    (∀ h ∈ seq, h.instr.decode.isSome) ∧ u.Sorted (transition seq) seq.length (u.endPred seq.length) := by
  rw [pathAssn, trans]
  split
  · rename_i hdec
    simp only [List.all_eq_true] at hdec
    simp only [Option.bind_some, Unroller.unrollAssn, Option.isSome_ite, and_iff_right hdec]
  · rename_i hdec
    simp only [List.all_eq_true] at hdec
    simp only [Option.bind_none, Option.isSome_none, Bool.false_eq_true, false_iff, not_and]
    exact fun h => absurd h hdec

theorem coherent_transition
    (hname : ∀ v ∈ defineDepVar seq, ∀ w ∈ defineDepVar seq, v.sym "" = w.sym "" → v.name = w.name) :
    Unroller.Coherent (transition seq) := by
  intro i v hv w hw hsym
  have hvw : v.name = w.name := hname v hv w hw hsym
  simp only [transition, stateUpdCmpl, hvw]
  cases seq[i]? with
  | none => exact .inr ⟨rfl, rfl⟩
  | some h =>
    rw [Option.elim_some, Option.elim_some]
    cases h.instr.update w.name with
    | none => exact .inr ⟨rfl, rfl⟩
    | some e => exact .inl rfl

theorem isSome_pathSubs (pos : Int) : (pathSubs z3 u seq pos).isSome = (pathAssn z3 u seq pos).isSome := by
  rw [pathSubs, pathAssn]
  cases trans seq with
  | none => rfl
  | some tr => exact Unroller.isSome_unrollSubs seq.length pos

/-- The two encodings of a path are defined together and describe the same relation between the states
of the first frame, the inputs of all frames and the states of the last frame, when states with one
constant have one name and no input has the constant of a state. -/
theorem project_pathSubs_eq_pathAssn (z3 : Z3) (u : Unroller) (seq : List HostedInstr)
    (hname : ∀ v ∈ defineDepVar seq, ∀ w ∈ defineDepVar seq, v.sym "" = w.sym "" → v.name = w.name)
    (hinput : ∀ x ∈ inputs seq, ∀ v ∈ defineDepVar seq, x.sym "" ≠ v.sym "") :
    (pathSubs z3 u seq 0).isSome = (pathAssn z3 u seq 0).isSome ∧
      project u (observed seq) (pathSubs z3 u seq 0) = project u (observed seq) (pathAssn z3 u seq 0) := by
  refine ⟨isSome_pathSubs 0, Set.ext fun κ => ⟨?_, ?_⟩⟩
  · rintro ⟨φ, hφ, M, hM, hobs⟩
    obtain ⟨ψ, hψ⟩ : ∃ ψ, pathAssn z3 u seq 0 = some ψ := by
      rw [← Option.isSome_iff_exists, ← isSome_pathSubs, Option.isSome_iff_exists]
      exact ⟨φ, hφ⟩
    obtain ⟨tr, htr, hφ⟩ := Option.bind_eq_some_iff.mp hφ
    obtain rfl := trans_eq_some htr
    have hψ' : u.unrollAssn z3 (transition seq) seq.length 0 = some ψ := by
      rw [pathAssn, htr] at hψ
      exact hψ
    obtain ⟨N, hN, hother⟩ :=
      Unroller.exists_sat_unrollAssn_of_unrollSubs (coherent_transition hname) hφ hψ' hM
    refine ⟨ψ, hψ, N, hN, fun p hp => ?_⟩
    rw [← hobs p hp]
    refine hother _ fun q hq => ?_
    obtain ⟨hframe, hsym⟩ := Unroller.sym_var_inj.mp hq
    have hpos := q.2.1
    have hlt := q.2.2.1
    rcases List.mem_append.mp hp with hp | hp
    · -- a state of the first or the last frame is in no frame between
      obtain ⟨v, -, hv⟩ := List.mem_flatMap.mp hp
      simp only [List.mem_cons, List.not_mem_nil, or_false] at hv
      rcases hv with rfl | rfl <;> omega
    · obtain ⟨x, hx, hp⟩ := List.mem_flatMap.mp hp
      obtain ⟨i, -, rfl⟩ := List.mem_map.mp hp
      exact hinput x hx q.1.2 q.2.2.2 hsym.symm
  · rintro ⟨ψ, hψ, M, hM, hobs⟩
    obtain ⟨φ, hφ⟩ : ∃ φ, pathSubs z3 u seq 0 = some φ := by
      rw [← Option.isSome_iff_exists, isSome_pathSubs, Option.isSome_iff_exists]
      exact ⟨ψ, hψ⟩
    obtain ⟨tr, htr, hψ⟩ := Option.bind_eq_some_iff.mp hψ
    have hφ' : u.unrollSubs z3 tr seq.length 0 = some φ := by
      rw [pathSubs, htr] at hφ
      exact hφ
    exact ⟨φ, hφ, M, Unroller.sat_unrollSubs_of_unrollAssn hφ' hψ hM, hobs⟩

/-- Two ILAs `m` and `m_sEp_a`: the state `a_sEp_x` of the first and the variable `x` of the second are
one constant for the solver. -/
def clashState : Var := ⟨0, "a_sEp_x", some "m", .bool⟩

def clashVar : Var := ⟨1, "x", some "m_sEp_a", .bool⟩

/-- One instruction in each of the two. The first sets `a_sEp_x`, the second sets both names. -/
def clashSeq (states inputs : List Var) : List HostedInstr :=
  [⟨{ IlaData.new 0 "m" with states := [clashState] },
      ⟨2, "set", some (.const (.bool true)), [("a_sEp_x", some (.const (.bool true)))], none⟩⟩,
    ⟨{ IlaData.new 1 "m_sEp_a" with states := states, inputs := inputs },
      ⟨3, "setBoth", some (.const (.bool true)),
        [("a_sEp_x", some (.const (.bool true))), ("x", some (.const (.bool true)))], none⟩⟩]

theorem clash_sym (t : Int) : clashState.sym ((Unroller.new "").suffCurr t) = clashVar.sym ((Unroller.new "").suffCurr t) :=
  Unroller.sym_var_inj.mpr ⟨rfl, by decide⟩

/-- All Boolean constants are true but the state `a_sEp_x` of one frame. -/
def clashModel (k : Int) : Model :=
  (default : Model).override fun c => some (.bool (c ≠ clashState.sym ((Unroller.new "").suffCurr k)))

theorem clashModel_const {k t : Int} {v : Var} (hv : v = clashState ∨ v = clashVar) :
    (clashModel k).const (v.sym ((Unroller.new "").suffCurr t)) = .bool (t ≠ k) := by
  have hsym : v.sym ((Unroller.new "").suffCurr t) = clashState.sym ((Unroller.new "").suffCurr t) := by
    rcases hv with rfl | rfl
    · rfl
    · exact (clash_sym t).symm
  rw [hsym, clashModel, Model.override_some rfl rfl]
  simp [Unroller.sym_var_inj]

theorem clashModel_sat (z3 : Z3) (k : Int) (hk : k ≠ 2) (states inputs : List Var)
    (hstates : ∀ v ∈ states, v = clashVar) :
    ∃ φ, pathSubs z3 (Unroller.new "") (clashSeq states inputs) 0 = some φ ∧ (clashModel k).Sat φ := by
  have hvars : ∀ v ∈ (transition (clashSeq states inputs)).vars, v = clashState ∨ v = clashVar := by
    intro v hv
    simp only [transition, defineDepVar, clashSeq, List.mem_dedup, List.mem_flatMap] at hv
    simp only [List.mem_cons, List.not_mem_nil, or_false, exists_eq_or_imp, exists_eq_left] at hv
    exact hv.imp id (hstates v)
  have hsorted : (Unroller.new "").Sorted (transition (clashSeq states inputs)) 2 ((Unroller.new "").endPred 2) := by
    refine ⟨fun i hi => ?_, fun e he => by simp [Unroller.endPred, Unroller.new] at he⟩
    interval_cases i
    · exact ⟨by simp [Unroller.stepPred, Unroller.initPred, Unroller.new, transition, clashSeq, Expr.check, ConstVal.sort],
        fun v hv => by rcases hvars v hv with rfl | rfl <;> rfl⟩
    · exact ⟨by simp [Unroller.stepPred, Unroller.initPred, Unroller.new, transition, clashSeq, Expr.check, ConstVal.sort],
        fun v hv => by rcases hvars v hv with rfl | rfl <;> rfl⟩
  have hφ : pathSubs z3 (Unroller.new "") (clashSeq states inputs) 0 = some _ := if_pos hsorted
  refine ⟨_, hφ, (Unroller.sat_unrollSubs hφ).mpr ⟨fun i hi e he => ?_, fun v hv => ?_, ?_⟩⟩
  · have hi : i < 2 := hi
    interval_cases i <;>
    · obtain rfl := List.mem_singleton.mp he
      rfl
  · have hnext : (transition (clashSeq states inputs)).next 1 v = .const (.bool true) := by
      rcases hvars v hv with rfl | rfl <;> rfl
    refine (Unroller.subsLoop_succ_eval hsorted (i := 1) (by decide) hv).trans ?_
    rw [hnext, clashModel_const (hvars v hv)]
    simp [clashSeq, Expr.eval, ConstVal.value, Ne.symm hk]
  · intro e he
    simp [Unroller.endPred, Unroller.new] at he

theorem clash_pathAssn {z3 : Z3} {M : Model} {states inputs : List Var} {φ : Term}
    (hφ : pathAssn z3 (Unroller.new "") (clashSeq states inputs) 0 = some φ) (hM : M.Sat φ) :
    M.const (clashVar.sym ((Unroller.new "").suffCurr 1)) = .bool true ∧
      (clashVar ∈ states → M.const (clashVar.sym ((Unroller.new "").suffCurr 0)) = .bool true) := by
  obtain ⟨tr, htr, hφ⟩ := Option.bind_eq_some_iff.mp hφ
  obtain rfl := trans_eq_some htr
  obtain ⟨-, hnext⟩ := ((Unroller.sat_unrollAssn hφ).mp hM).1 0 (by simp [clashSeq])
  have hset := hnext clashState (by simp [transition, defineDepVar, clashSeq])
  have hone : M.const (clashVar.sym ((Unroller.new "").suffCurr 1)) = .bool true := by
    rw [← clash_sym]
    exact (Option.some.inj hset).symm
  refine ⟨hone, fun hmem => ?_⟩
  have hkeep := hnext clashVar (by simp [transition, defineDepVar, clashSeq, hmem])
  exact (Option.some.inj hkeep).trans hone

/-- A path with a state and an input whose names do not meet. -/
theorem project_pathSubs_eq_pathAssn_distinct :
    project (Unroller.new "") (observed (clashSeq [] [⟨4, "y", some "m_sEp_a", .bv 8⟩]))
        (pathSubs default (Unroller.new "") (clashSeq [] [⟨4, "y", some "m_sEp_a", .bv 8⟩]) 0) =
      project (Unroller.new "") (observed (clashSeq [] [⟨4, "y", some "m_sEp_a", .bv 8⟩]))
        (pathAssn default (Unroller.new "") (clashSeq [] [⟨4, "y", some "m_sEp_a", .bv 8⟩]) 0) :=
  (project_pathSubs_eq_pathAssn default (Unroller.new "") _ (by decide) (by decide)).2

/-- The two encodings differ when two states with different names are one constant, and when a state
and an input are. -/
theorem project_pathSubs_ne_pathAssn :
    project (Unroller.new "") (observed (clashSeq [clashVar] []))
        (pathSubs default (Unroller.new "") (clashSeq [clashVar] []) 0) ≠
      project (Unroller.new "") (observed (clashSeq [clashVar] []))
        (pathAssn default (Unroller.new "") (clashSeq [clashVar] []) 0) ∧
    project (Unroller.new "") (observed (clashSeq [] [clashVar]))
        (pathSubs default (Unroller.new "") (clashSeq [] [clashVar]) 0) ≠
      project (Unroller.new "") (observed (clashSeq [] [clashVar]))
        (pathAssn default (Unroller.new "") (clashSeq [] [clashVar]) 0) := by
  generalize (default : Z3) = z3
  constructor
  · intro heq
    obtain ⟨φ, hφ, hsat⟩ := clashModel_sat z3 0 (by decide) [clashVar] [] (by simp)
    have hmem : (fun i _ => .bool (decide ((i : Int) ≠ 0))) ∈ project (Unroller.new "")
        (observed (clashSeq [clashVar] [])) (pathSubs z3 (Unroller.new "") (clashSeq [clashVar] []) 0) := by
      refine ⟨φ, hφ, clashModel 0, hsat, fun p hp => clashModel_const ?_⟩
      revert p
      decide
    rw [heq] at hmem
    obtain ⟨ψ, hψ, M, hM, hobs⟩ := hmem
    have hkeep := (clash_pathAssn hψ hM).2 (by simp)
    have hzero := hobs (0, clashVar) (by decide)
    simp only [Nat.cast_zero] at hzero
    rw [hkeep] at hzero
    simp at hzero
  · intro heq
    obtain ⟨φ, hφ, hsat⟩ := clashModel_sat z3 1 (by decide) [] [clashVar] (by simp)
    have hmem : (fun i _ => .bool (decide ((i : Int) ≠ 1))) ∈ project (Unroller.new "")
        (observed (clashSeq [] [clashVar])) (pathSubs z3 (Unroller.new "") (clashSeq [] [clashVar]) 0) := by
      refine ⟨φ, hφ, clashModel 1, hsat, fun p hp => clashModel_const ?_⟩
      revert p
      decide
    rw [heq] at hmem
    obtain ⟨ψ, hψ, M, hM, hobs⟩ := hmem
    have hset := (clash_pathAssn hψ hM).1
    have hone := hobs (1, clashVar) (by decide)
    simp only [Nat.cast_one] at hone
    rw [hset] at hone
    simp at hone

end PathUnroll

end Ilang
