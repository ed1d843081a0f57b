import Ilang.Mngr.Refinement
import Ilang.Smt.Solver

/-!
# Formulas of the commutative diagram

The formulas that the checks of `CommDiag` share. A completion point is marked by equating the state there
with constants without a number, over which the relation is then stated.
-/

namespace Ilang

open Smt

namespace CommDiag

/-- The suffix of a frame under a tag. -/
def curr (tag : String) (i : Nat) : String := (Unroller.new tag).suffCurr i

section Formulas

variable (z3 : Z3)

/-- The states are equal under two suffixes. -/
def eqStates (vars : List Var) (s t : String) : Term :=
  Term.conjAll (vars.map fun v => (getExpr z3 s (.var v)).eq (getExpr z3 t (.var v)))

/-- A completed frame has the state of the constants without a number. -/
def markAt (r : RefinementMap) (vars : List Var) (tag : String) (i : Nat) : Term :=
  (getExpr z3 (curr tag i) r.cmpl).implies (eqStates z3 vars tag (curr tag i))

/-- `AddGlobPred` for each of the expressions. -/
def globPreds (tag : String) (es : List Expr) : Unroller := es.foldl Unroller.addGlobPred (Unroller.new tag)

/-- `AddStepPred` for each of the frames. -/
def addStepPreds (u : Unroller) (p : Expr) (is : List Nat) : Unroller := is.foldl (fun u i => u.addStepPred p i) u

end Formulas

/-! ### What the formulas say -/

section Meaning

variable {z3 : Z3} {M : Model}

theorem sat_eqVar {v : Var} {s t : String} :
    M.Sat ((getExpr z3 s (.var v)).eq (getExpr z3 t (.var v))) ↔ M.const (v.sym s) = M.const (v.sym t) := by
  rw [Term.sat_eq, getExpr_var, getExpr_var, Term.eval, Term.eval]
  constructor
  · rintro ⟨w, hs, ht⟩
    rw [Option.some.inj hs, Option.some.inj ht]
  · exact fun h => ⟨_, rfl, by rw [h]⟩

theorem isBool_eqVar (v : Var) (s t : String) : ((getExpr z3 s (.var v)).eq (getExpr z3 t (.var v))).IsBool := by
  intro M
  have hsort : (M.const (v.sym s)).sort = (M.const (v.sym t)).sort := by
    rw [M.const_sort, M.const_sort]
    rfl
  obtain ⟨b, hb, -⟩ := Value.eq?_of_sort_eq hsort
  refine ⟨b, ?_⟩
  simp [Term.eq, Term.eval, Term.evalList_pair, getExpr_var, hb]

theorem isBool_eqStates (vars : List Var) (s t : String) : (eqStates z3 vars s t).IsBool :=
  Term.isBool_foldl_conj (Term.isBool_bool true) (List.forall_mem_map.mpr fun v _ => isBool_eqVar v s t)

theorem sat_eqStates {vars : List Var} {s t : String} :
    M.Sat (eqStates z3 vars s t) ↔ RefinementMap.SameOn vars (frame M s) (frame M t) := by
  rw [eqStates, Term.sat_conjAll, List.forall_mem_map]
  exact forall₂_congr fun v _ => sat_eqVar

theorem sat_markAt {r : RefinementMap} {vars : List Var} {tag : String} {i : Nat} :
    M.Sat (markAt z3 r vars tag i) ↔
      ((frame M (curr tag i)).Holds r.cmpl → RefinementMap.SameOn vars (frame M tag) (frame M (curr tag i))) := by
  rw [markAt, (isBool_getExpr r.cmpl_check _).sat_implies (isBool_eqStates vars _ _), sat_getExpr r.cmpl_check, sat_eqStates]

theorem foldl_addGlobPred (es : List Expr) (u : Unroller) :
    es.foldl Unroller.addGlobPred u = { u with gPred := u.gPred ++ es } := by
  induction es generalizing u with
  | nil => simp
  | cons e es ih =>
    rw [List.foldl_cons, ih, Unroller.addGlobPred]
    simp

theorem globPreds_eq (tag : String) (es : List Expr) : globPreds tag es = { Unroller.new tag with gPred := es } := by
  rw [globPreds, foldl_addGlobPred]
  rfl

theorem addStepPreds_eq (u : Unroller) (p : Expr) (is : List Nat) :
    (addStepPreds u p is).extraSuff = u.extraSuff ∧ (addStepPreds u p is).gPred = u.gPred ∧
      (addStepPreds u p is).iPred = u.iPred ∧
      ∀ (n : Nat) e, e ∈ (addStepPreds u p is).sPred n ↔ e ∈ u.sPred n ∨ (n ∈ is ∧ e = p) := by
  induction is generalizing u with
  | nil => exact ⟨rfl, rfl, rfl, by simp [addStepPreds]⟩
  | cons i is ih =>
    obtain ⟨hsuff, hglob, hinit, hstep⟩ := ih (u.addStepPred p i)
    refine ⟨hsuff, hglob, hinit, fun n e => ?_⟩
    rw [show addStepPreds u p (i :: is) = addStepPreds (u.addStepPred p i) p is from rfl, hstep]
    simp only [Unroller.addStepPred, Int.natCast_inj]
    by_cases hn : n = i
    · simp [hn, or_assoc, or_iff_left_of_imp (And.right : i ∈ is ∧ e = p → e = p)]
    · simp [hn]

end Meaning

section Unrolling

variable {z3 : Z3} {M : Model} {fresh : Nat} {top : Ila} {tag : String}

/-- A step is selected in every frame, and its next values are those of the next frame. -/
def Stepwise (fresh : Nat) (top : Ila) (tag : String) (M : Model) (start length : Nat) : Prop :=
  ∀ i < length, MonoUnroll.Selects fresh top (frame M (curr tag (start + i))) ∧
    ∀ v ∈ top.getSttTree, M.const ((MonoUnroll.nextOf fresh top v).sym (curr tag (start + i))) =
      M.const (v.sym (curr tag (start + i + 1)))

theorem suffCurr_eq {u : Unroller} (hu : u.extraSuff = tag) (i : Nat) : u.suffCurr i = curr tag i := by
  rw [curr, Unroller.suffCurr, Unroller.suffCurr, hu]
  rfl

theorem sat_monoAssn_iff {u : Unroller} {length : Nat} {φ : Term} (start : Nat) (hu : u.extraSuff = tag)
    (hφ : MonoUnroll.monoAssn fresh top z3 u length start = some φ) :
    M.Sat φ ↔ Stepwise fresh top tag M start length ∧
      (∀ i < length, ∀ e ∈ u.initPred i ++ u.gPred ++ u.sPred i, (frame M (curr tag (start + i))).Holds e) ∧
      ∀ e ∈ u.gPred ++ u.sPred length, (frame M (curr tag length)).Holds e := by
  have hcast : ∀ i : Nat, ((start : Int) + (i : Nat)) = ((start + i : Nat) : Int) := by omega
  have hcast' : ∀ i : Nat, (((start + i : Nat) : Int) + 1) = ((start + i + 1 : Nat) : Int) := by omega
  rw [MonoUnroll.sat_monoAssn hφ]
  simp only [hcast, hcast', suffCurr_eq hu, Stepwise, Unroller.EndHolds, Unroller.endPred]
  constructor
  · rintro ⟨hsteps, hend⟩
    exact ⟨fun i hi => (hsteps i hi).2, fun i hi => (hsteps i hi).1, hend⟩
  · rintro ⟨hsteps, hpreds, hend⟩
    exact ⟨fun i hi => ⟨hpreds i hi, hsteps i hi⟩, hend⟩

theorem Stepwise.step {start length : Nat} (h : Stepwise fresh top tag M start length) (hacc : MonoUnroll.Accepted fresh top)
    {i : Nat} (hi : i < length) : top.Step (frame M (curr tag (start + i))) (frame M (curr tag (start + i + 1))) := by
  have hspans : MonoUnroll.Spans fresh top (frame M (curr tag (start + i))) (frame M (curr tag (start + i)))
      (frame M (curr tag (start + i + 1))) := ⟨fun _ _ => rfl, fun _ _ => rfl, (h i hi).2⟩
  exact hspans.step hacc (h i hi).1

theorem stepwise_of_records {r : RefinementMap} {τ : Trace} {x : Nat → Var} {start length : Nat}
    (hrec : ∀ i, r.Records fresh tag M τ (x i) i) (hx : r.Picks fresh τ (start + length) x) :
    Stepwise fresh r.coi tag M start length := by
  intro i hi
  have hnow := hrec (start + i)
  refine ⟨hx _ (by omega) _ hnow.spans hnow.only, fun v hv => ?_⟩
  exact (hnow.spans.next v hv).trans ((hrec (start + i + 1)).const_eq hv).symm

end Unrolling

end CommDiag

end Ilang
