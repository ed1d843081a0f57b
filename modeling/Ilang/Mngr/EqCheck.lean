import Ilang.Mngr.CommDiag

/-!
# The equivalence check

`CommDiag::EqCheck` determines how many steps each path is unrolled, and then asks the solver for paths of
the two models that start together and whose states are related at the completion points of the flushed
paths, but not at those of the paths on which an instruction was applied. The sanity checks before it only
print warnings.

When the number of steps is determined, the solver is not reset before it is asked for paths with two
completion points, so there are none in its answer. Paths whose completion points have different states
are then left out of the diagram, since the state of one path is marked with one set of constants.
-/

namespace Ilang

open Smt

namespace CommDiag

section Check

variable (z3 : Z3) (o : Oracle) (fresh : Nat)

/-- `GenInit`. -/
def genInit (r : RefinementMap) : Term :=
  ((getExpr z3 (curr "apl" 0) r.appl).conj (getExpr z3 (curr "org" 0) r.flush)).conj
    (eqStates z3 r.coi.getSttTree (curr "org" 0) (curr "apl" 0))

def atLeastOnce (tag : String) (cmpl : Expr) (start last : Nat) : Term :=
  ((List.range' start (last + 1 - start)).map fun i => getExpr z3 (curr tag i) cmpl).foldl Term.disj
    (getExpr z3 (curr tag 0) (.boolConst false))

def atMostOnce (tag : String) (cmpl : Expr) (start last : Nat) : Term :=
  ((List.range' start (last + 1 - start)).flatMap fun i => (List.range' (i + 1) (last - i)).map fun j =>
      (getExpr z3 (curr tag i) cmpl).neg.disj (getExpr z3 (curr tag j) cmpl).neg).foldl Term.conj
    (getExpr z3 (curr tag 0) (.boolConst true))

/-- The solver's part of `CheckStepOrig` and `CheckStepAppl`. It is not reset before the last question. -/
def onceQueries (tran once unique : Term) : Bool :=
  let s := Solver.new.add (tran.conj once.neg)
  if s.check o then false else !(s.add (tran.conj unique.neg)).check o

/-- `CheckStepOrig`. Without any path the program stops. -/
def checkStepOrig (r : RefinementMap) (k : Nat) : Option Bool :=
  (MonoUnroll.monoAssn fresh r.coi z3 (globPreds "org" (r.flush :: r.invs)) k 0).bind fun tran =>
    let tran := (genInit z3 r).conj tran
    if (Solver.new.add tran).check o then
      some (onceQueries o tran (atLeastOnce z3 "org" r.cmpl 0 k) (atMostOnce z3 "org" r.cmpl 0 k))
    else none

/-- The unroller of `CheckStepAppl`. -/
def applPreds (r : RefinementMap) (k : Nat) : Unroller :=
  r.invs.foldl Unroller.addGlobPred
    (addStepPreds ((Unroller.new "apl").addInitPred r.appl) r.flush (List.range' 1 (k + 1)))

/-- `CheckStepAppl`. -/
def checkStepAppl (r : RefinementMap) (k : Nat) : Option Bool :=
  (MonoUnroll.monoAssn fresh r.coi z3 (applPreds r k) (k + 1) 0).map fun tran =>
    onceQueries o ((genInit z3 r).conj tran) (atLeastOnce z3 "apl" r.cmpl 1 (k + 1)) (atMostOnce z3 "apl" r.cmpl 1 (k + 1))

/-- The loop of `DetStepOrig` and `DetStepAppl`: the first number of steps that passes, out of a given
number of them. -/
def detStep (check : Nat → Option Bool) : Nat → Nat → Option Int
  | _, 0 => some (-1)
  | n, m + 1 => (check n).bind fun ok => if ok then some n else detStep check (n + 1) m

/-- `DetStepOrig`. -/
def detStepOrig (r : RefinementMap) (max : Int) : Option Int :=
  detStep (checkStepOrig z3 o fresh r) r.stepOrig.toNat (max + 1 - r.stepOrig.toNat).toNat

/-- `DetStepAppl`. -/
def detStepAppl (r : RefinementMap) (max : Int) : Option Int :=
  detStep (checkStepAppl z3 o fresh r) r.stepAppl.toNat (max + 1 - r.stepAppl.toNat).toNat

/-- `UnrollFlush`. -/
def unrollFlush (tag : String) (r : RefinementMap) (base length start : Nat) : Option Term :=
  let frames := List.range' start (base + length + 1 - start)
  (MonoUnroll.monoAssn fresh r.coi z3 (addStepPreds (globPreds tag r.invs) r.flush frames) length base).map fun path =>
    path.conj (Term.conjAll (frames.map (markAt z3 r r.coi.data.states tag)))

/-- `GenTranRel`. -/
def genTranRel (r : RefinementMap) (kOrig kAppl : Nat) : Option Term :=
  (unrollFlush z3 fresh "org" r 0 kOrig 0).bind fun orig => (unrollFlush z3 fresh "apl" r 0 (kAppl + 1) 1).map fun appl =>
    ((genInit z3 r).conj orig).conj appl

/-- `EqCheck`. -/
def eqCheck (crr : CompRefRel) (max : Int) : Option Bool :=
  (detStepOrig z3 o fresh crr.refineA max).bind fun stepOrigA =>
  (detStepAppl z3 o fresh crr.refineA max).bind fun stepApplA =>
  (detStepOrig z3 o fresh crr.refineB max).bind fun stepOrigB =>
  (detStepAppl z3 o fresh crr.refineB max).bind fun stepApplB =>
  if stepOrigA < 0 ∨ stepApplA < 0 ∨ stepOrigB < 0 ∨ stepApplB < 0 then some false
  else
    (genTranRel z3 fresh crr.refineA stepOrigA.toNat stepApplA.toNat).bind fun tranA =>
    (genTranRel z3 fresh crr.refineB stepOrigB.toNat stepApplB.toNat).bind fun tranB =>
    if (Solver.new.add tranA).check o = false then some false
    else if (Solver.new.add tranB).check o = false then some false
    else
      let assm := getExpr z3 "org" crr.relation
      let prop := getExpr z3 "apl" crr.relation
      some !((Solver.new.add ((tranA.conj tranB).conj assm)).add prop.neg).check o

end Check

/-! ### Paths of the diagram -/

/-- Two paths start in one state, where an instruction can be applied on one and the other is flushed. -/
structure Starts (r : RefinementMap) (orig appl : Trace) : Prop where
  same : RefinementMap.SameOn r.coi.getSttTree (orig.frame 0) (appl.frame 0)
  applied : (appl.frame 0).Holds r.appl
  flushed : (orig.frame 0).Holds r.flush
  func : appl.func = orig.func

/-- The first of the two is flushed for some steps. -/
structure OrigPath (r : RefinementMap) (orig appl : Trace) (k : Nat) : Prop where
  starts : Starts r orig appl
  flushes : r.Flushes orig 0 k
  keeps : r.Keeps orig k

/-- The second takes the step of the instruction, and is flushed after it. -/
structure ApplPath (r : RefinementMap) (orig appl : Trace) (k : Nat) : Prop where
  starts : Starts r orig appl
  flushes : r.Flushes appl 1 (k + 1)
  keeps : r.Keeps appl (k + 1)

/-- Every path of so many steps has a completion point. -/
def OrigDone (r : RefinementMap) (k : Nat) : Prop := ∀ orig appl, OrigPath r orig appl k → ∃ i ≤ k, r.Completes orig i

def ApplDone (r : RefinementMap) (k : Nat) : Prop :=
  ∀ orig appl, ApplPath r orig appl k → ∃ i, 1 ≤ i ∧ i ≤ k + 1 ∧ r.Completes appl i

/-! ### What the queries ask -/

section Meaning

variable {z3 : Z3} {o : Oracle} {fresh : Nat} {r : RefinementMap} {M : Model} {tag : String}

theorem sat_genInit : M.Sat (genInit z3 r) ↔ (frame M (curr "apl" 0)).Holds r.appl ∧ (frame M (curr "org" 0)).Holds r.flush ∧
    RefinementMap.SameOn r.coi.getSttTree (frame M (curr "org" 0)) (frame M (curr "apl" 0)) := by
  rw [genInit, Term.sat_conj, Term.sat_conj, sat_getExpr r.appl_check, sat_getExpr r.flush_check, sat_eqStates, and_assoc]

theorem mem_frames {start last i : Nat} : i ∈ List.range' start (last + 1 - start) ↔ start ≤ i ∧ i ≤ last := by
  rw [List.mem_range'_1]
  omega

theorem isBool_atLeastOnce {start last : Nat} : (atLeastOnce z3 tag r.cmpl start last).IsBool :=
  Term.isBool_foldl_disj (isBool_getExpr rfl _) (List.forall_mem_map.mpr fun _ _ => isBool_getExpr r.cmpl_check _)

theorem sat_atLeastOnce {start last : Nat} : M.Sat (atLeastOnce z3 tag r.cmpl start last) ↔
    ∃ i, (start ≤ i ∧ i ≤ last) ∧ (frame M (curr tag i)).Holds r.cmpl := by
  rw [atLeastOnce, Term.sat_foldl_disj (isBool_getExpr rfl _)
    (List.forall_mem_map.mpr fun _ _ => isBool_getExpr r.cmpl_check _), sat_getExpr rfl]
  simp only [List.mem_map, mem_frames, exists_exists_and_eq_and, sat_getExpr r.cmpl_check]
  refine or_iff_right fun hfalse => ?_
  simp [Valuation.Holds, Expr.boolConst, Expr.eval, ConstVal.value] at hfalse

theorem onceQueries_iff {tran once unique : Term} (honce : once.IsBool) :
    onceQueries o tran once unique = true ↔ ∀ M : Model, M.Sat tran → M.Sat once := by
  have hfirst : (Solver.new.add (tran.conj once.neg)).check o = false ↔ ∀ M : Model, M.Sat tran → M.Sat once := by
    rw [Solver.check, o.sat_eq_false_iff]
    refine forall_congr' fun M => ?_
    simp only [Solver.assertions_add, Solver.assertions_new, List.nil_append, List.forall_mem_singleton, Term.sat_conj,
      honce.sat_neg, not_and, not_not]
  have hboth : (Solver.new.add (tran.conj once.neg)).check o = false →
      ((Solver.new.add (tran.conj once.neg)).add (tran.conj unique.neg)).check o = false := by
    rw [Solver.check, Solver.check, o.sat_eq_false_iff, o.sat_eq_false_iff]
    exact fun h M hM => h M fun t ht => hM t (List.mem_append_left _ ht)
  rw [← hfirst]
  simp only [onceQueries]
  cases hcheck : (Solver.new.add (tran.conj once.neg)).check o with
  | true => simp
  | false => simp [hboth hcheck]

/-- A path in the frames of a model. -/
structure PathSat (fresh : Nat) (r : RefinementMap) (tag : String) (M : Model) (start length : Nat) : Prop where
  stepwise : Stepwise fresh r.coi tag M 0 length
  flush : ∀ i, start ≤ i → i ≤ length → (frame M (curr tag i)).Holds r.flush
  invs : ∀ i ≤ length, ∀ e ∈ r.invs, (frame M (curr tag i)).Holds e

theorem sat_monoAssn_pathSat {u : Unroller} {length : Nat} {φ : Term} (start : Nat) (hu : u.extraSuff = tag)
    (hpred : ∀ i ≤ length, ∀ e, e ∈ u.gPred ++ u.sPred i ↔ e ∈ r.invs ∨ (start ≤ i ∧ e = r.flush))
    (hφ : MonoUnroll.monoAssn fresh r.coi z3 u length 0 = some φ) :
    M.Sat φ ↔ PathSat fresh r tag M start length ∧ (0 < length → ∀ e ∈ u.iPred, (frame M (curr tag 0)).Holds e) := by
  rw [sat_monoAssn_iff 0 hu hφ]
  constructor
  · rintro ⟨hstep, hpreds, hend⟩
    have hall : ∀ i ≤ length, ∀ e ∈ u.gPred ++ u.sPred i, (frame M (curr tag i)).Holds e := by
      intro i hi e he
      rcases Nat.lt_or_eq_of_le hi with hi | rfl
      · have hcurr := hpreds i hi e (by
          rw [List.append_assoc]
          exact List.mem_append_right _ he)
        rwa [Nat.zero_add] at hcurr
      · exact hend e he
    refine ⟨⟨hstep, fun i hs hi => hall i hi _ ((hpred i hi _).mpr (.inr ⟨hs, rfl⟩)),
      fun i hi e he => hall i hi e ((hpred i hi e).mpr (.inl he))⟩, fun hpos e he => ?_⟩
    exact hpreds 0 hpos e (List.mem_append_left _ (List.mem_append_left _ he))
  · rintro ⟨⟨hstep, hflush, hinvs⟩, hinit⟩
    have hall : ∀ i ≤ length, ∀ e ∈ u.gPred ++ u.sPred i, (frame M (curr tag i)).Holds e := by
      intro i hi e he
      rcases (hpred i hi e).mp he with he | ⟨hs, rfl⟩
      · exact hinvs i hi e he
      · exact hflush i hs hi
    refine ⟨hstep, fun i hi e he => ?_, hall length (Nat.le_refl _)⟩
    rw [Nat.zero_add]
    rw [List.append_assoc, List.mem_append] at he
    rcases he with he | he
    · rw [Unroller.initPred] at he
      split at he
      · rename_i h0
        rw [h0]
        exact hinit (by omega) e he
      · cases he
    · exact hall i (Nat.le_of_lt hi) e he

/-! The predicates of the three unrollers. -/

theorem mem_origPreds (i : Nat) (e : Expr) :
    e ∈ (globPreds "org" (r.flush :: r.invs)).gPred ++ (globPreds "org" (r.flush :: r.invs)).sPred i ↔
      e ∈ r.invs ∨ (0 ≤ i ∧ e = r.flush) := by
  rw [globPreds_eq]
  simp [Unroller.new, or_comm]

theorem applPreds_eq (r : RefinementMap) (k : Nat) :
    (applPreds r k).extraSuff = "apl" ∧ (applPreds r k).iPred = [r.appl] ∧
      ∀ i ≤ k + 1, ∀ e, e ∈ (applPreds r k).gPred ++ (applPreds r k).sPred i ↔ e ∈ r.invs ∨ (1 ≤ i ∧ e = r.flush) := by
  obtain ⟨hsuff, hglob, hinit, hstep⟩ :=
    addStepPreds_eq ((Unroller.new "apl").addInitPred r.appl) r.flush (List.range' 1 (k + 1))
  rw [show applPreds r k = _ from foldl_addGlobPred r.invs _]
  refine ⟨hsuff, hinit, fun i hi e => ?_⟩
  rw [List.mem_append, hstep, hglob]
  simp only [Unroller.addInitPred, Unroller.new, List.nil_append, List.not_mem_nil, false_or, List.mem_range'_1]
  refine or_congr_right (and_congr_left fun _ => ?_)
  omega

theorem flushPreds_eq (r : RefinementMap) (tag : String) (length start : Nat) (u : Unroller)
    (hu : u = addStepPreds (globPreds tag r.invs) r.flush (List.range' start (0 + length + 1 - start))) :
    u.extraSuff = tag ∧ u.iPred = [] ∧
      ∀ i ≤ length, ∀ e, e ∈ u.gPred ++ u.sPred i ↔ e ∈ r.invs ∨ (start ≤ i ∧ e = r.flush) := by
  obtain ⟨hsuff, hglob, hinit, hstep⟩ :=
    addStepPreds_eq (globPreds tag r.invs) r.flush (List.range' start (0 + length + 1 - start))
  rw [globPreds_eq] at hsuff hglob hinit hstep
  subst hu
  rw [globPreds_eq]
  refine ⟨hsuff, hinit, fun i hi e => ?_⟩
  rw [List.mem_append, hstep, hglob]
  simp only [Unroller.new, List.not_mem_nil, false_or, Nat.zero_add, mem_frames]
  refine or_congr_right (and_congr_left fun _ => ?_)
  omega

theorem sat_origTran {k : Nat} {φ : Term}
    (hφ : MonoUnroll.monoAssn fresh r.coi z3 (globPreds "org" (r.flush :: r.invs)) k 0 = some φ) :
    M.Sat φ ↔ PathSat fresh r "org" M 0 k := by
  have htag : (globPreds "org" (r.flush :: r.invs)).extraSuff = "org" := by
    rw [globPreds_eq]
    rfl
  rw [sat_monoAssn_pathSat 0 htag (fun i _ => mem_origPreds i) hφ, globPreds_eq]
  exact and_iff_left fun _ e he => by cases he

theorem sat_applTran {k : Nat} {φ : Term} (hφ : MonoUnroll.monoAssn fresh r.coi z3 (applPreds r k) (k + 1) 0 = some φ) :
    M.Sat φ ↔ PathSat fresh r "apl" M 1 (k + 1) ∧ (frame M (curr "apl" 0)).Holds r.appl := by
  obtain ⟨htag, hinit, hpred⟩ := applPreds_eq r k
  rw [sat_monoAssn_pathSat 1 htag hpred hφ, hinit]
  simp

theorem sat_unrollFlush {length start : Nat} {φ : Term} (hφ : unrollFlush z3 fresh tag r 0 length start = some φ) :
    M.Sat φ ↔ PathSat fresh r tag M start length ∧ ∀ i, start ≤ i → i ≤ length → (frame M (curr tag i)).Holds r.cmpl →
      RefinementMap.SameOn r.coi.data.states (frame M tag) (frame M (curr tag i)) := by
  rw [unrollFlush, Option.map_eq_some_iff] at hφ
  obtain ⟨path, hpath, rfl⟩ := hφ
  obtain ⟨htag, hinit, hpred⟩ := flushPreds_eq r tag length start _ rfl
  rw [Term.sat_conj, Term.sat_conjAll, List.forall_mem_map, sat_monoAssn_pathSat start htag hpred hpath, hinit]
  refine and_congr (and_iff_left fun _ e he => by cases he) ?_
  simp only [Nat.zero_add, mem_frames, sat_markAt, and_imp]

theorem PathSat.flushes {start length : Nat} (h : PathSat fresh r tag M start length)
    (hacc : 0 < length → MonoUnroll.Accepted fresh r.coi) :
    r.Flushes (traceOf (Unroller.new tag) M) start length ∧ r.Keeps (traceOf (Unroller.new tag) M) length := by
  refine ⟨⟨fun i hi => ?_, h.flush⟩, h.invs⟩
  have hstep := h.stepwise.step (hacc (Nat.zero_lt_of_lt hi)) hi
  rw [Nat.zero_add] at hstep
  exact hstep

theorem pathSat_of_records {τ : Trace} {x : Nat → Var} {start length : Nat}
    (hrec : ∀ i, r.Records fresh tag M τ (x i) i) (hx : r.Picks fresh τ length x) (hflush : r.Flushes τ start length)
    (hkeeps : r.Keeps τ length) : PathSat fresh r tag M start length where
  stepwise := stepwise_of_records hrec (by rwa [Nat.zero_add])
  flush i hs hi := ((hrec i).holds_iff (by simp [RefinementMap.exprs])).mpr (hflush.2 i hs hi)
  invs i hi e he := ((hrec i).holds_iff (by simp [RefinementMap.exprs, he])).mpr (hkeeps i hi e he)

end Meaning

/-! ### Both legs of the diagram -/

/-- The flushed path, and the path on which the instruction is applied. -/
inductive Leg where
  | orig
  | appl

def Leg.tag : Leg → String
  | .orig => "org"
  | .appl => "apl"

theorem Leg.tag_inj : Function.Injective Leg.tag := by
  intro a b h
  cases a <;> cases b <;> simp [Leg.tag] at h ⊢

theorem Leg.tag_plain (l : Leg) : '_' ∉ l.tag.toList ∧ l.tag ≠ "" := by
  cases l <;> decide

/-- A function on the legs. -/
def Leg.pick {α : Type} (orig appl : α) : Leg → α
  | .orig => orig
  | .appl => appl

section Legs

variable {z3 : Z3} {o : Oracle} {fresh : Nat} {r : RefinementMap} {M : Model} {orig appl : Trace}

theorem starts_of_sat (h : M.Sat (genInit z3 r)) :
    Starts r (traceOf (Unroller.new "org") M) (traceOf (Unroller.new "apl") M) := by
  obtain ⟨happl, hflush, hsame⟩ := sat_genInit.mp h
  exact ⟨hsame, happl, hflush, rfl⟩

theorem sat_genInit_of_records {x y : Var} (h : Starts r orig appl) (horig : r.Records fresh "org" M orig x 0)
    (happl : r.Records fresh "apl" M appl y 0) : M.Sat (genInit z3 r) := by
  refine sat_genInit.mpr ⟨(happl.holds_iff (by simp [RefinementMap.exprs])).mpr h.applied,
    (horig.holds_iff (by simp [RefinementMap.exprs])).mpr h.flushed, fun v hv => ?_⟩
  exact (horig.const_eq hv).trans ((h.same v hv).trans (happl.const_eq hv).symm)

theorem exists_legs (hnames : r.DistinctNames fresh) (hfunc : appl.func = orig.func) (x y : Nat → Var) :
    ∃ M : Model, (∀ i, r.Records fresh "org" M orig (x i) i) ∧ ∀ i, r.Records fresh "apl" M appl (y i) i := by
  obtain ⟨M, hM⟩ := RefinementMap.exists_records Leg.tag_inj Leg.tag_plain hnames (Leg.pick orig appl) (Leg.pick x y)
    (orig.frame 0) (fun l => by
      cases l with
      | orig => rfl
      | appl => exact hfunc)
  exact ⟨M, fun i => hM .orig i, fun i => hM .appl i⟩

theorem checkStepOrig_iff (hnames : r.DistinctNames fresh) {k : Nat} {b : Bool}
    (h : checkStepOrig z3 o fresh r k = some b) : b = true ↔ OrigDone r k := by
  simp only [checkStepOrig, Option.bind_eq_some_iff, Option.ite_none_right_eq_some, Option.some.injEq] at h
  obtain ⟨tran, htran, -, rfl⟩ := h
  rw [onceQueries_iff isBool_atLeastOnce]
  constructor
  · intro hall orig appl hpath
    obtain ⟨x, hx⟩ := RefinementMap.exists_picks (MonoUnroll.accepted_of_monoAssn htran)
      (RefinementMap.bitsApart_of_nodup hnames.side) hpath.flushes.1
    obtain ⟨M, horig, happl⟩ := exists_legs hnames hpath.starts.func x x
    obtain ⟨i, ⟨-, hi⟩, hcmpl⟩ := sat_atLeastOnce.mp (hall M (Term.sat_conj.mpr
      ⟨sat_genInit_of_records hpath.starts (horig 0) (happl 0),
        (sat_origTran htran).mpr (pathSat_of_records horig hx hpath.flushes hpath.keeps)⟩))
    exact ⟨i, hi, ((horig i).holds_iff (by simp [RefinementMap.exprs])).mp hcmpl⟩
  · intro hdone M hM
    rw [Term.sat_conj, sat_origTran htran] at hM
    obtain ⟨hflush, hkeeps⟩ := hM.2.flushes (MonoUnroll.accepted_of_monoAssn htran)
    obtain ⟨i, hi, hcmpl⟩ := hdone _ _ ⟨starts_of_sat hM.1, hflush, hkeeps⟩
    exact sat_atLeastOnce.mpr ⟨i, ⟨Nat.zero_le i, hi⟩, hcmpl⟩

theorem checkStepAppl_iff (hnames : r.DistinctNames fresh) {k : Nat} {b : Bool}
    (h : checkStepAppl z3 o fresh r k = some b) : b = true ↔ ApplDone r k := by
  simp only [checkStepAppl, Option.map_eq_some_iff] at h
  obtain ⟨tran, htran, rfl⟩ := h
  rw [onceQueries_iff isBool_atLeastOnce]
  constructor
  · intro hall orig appl hpath
    obtain ⟨y, hy⟩ := RefinementMap.exists_picks (MonoUnroll.accepted_of_monoAssn htran)
      (RefinementMap.bitsApart_of_nodup hnames.side) hpath.flushes.1
    obtain ⟨M, horig, happl⟩ := exists_legs hnames hpath.starts.func y y
    have hinit : M.Sat (genInit z3 r) := sat_genInit_of_records hpath.starts (horig 0) (happl 0)
    obtain ⟨i, ⟨h1, hi⟩, hcmpl⟩ := sat_atLeastOnce.mp (hall M (Term.sat_conj.mpr ⟨hinit, (sat_applTran htran).mpr
      ⟨pathSat_of_records happl hy hpath.flushes hpath.keeps, (sat_genInit.mp hinit).1⟩⟩))
    exact ⟨i, h1, hi, ((happl i).holds_iff (by simp [RefinementMap.exprs])).mp hcmpl⟩
  · intro hdone M hM
    rw [Term.sat_conj, sat_applTran htran] at hM
    obtain ⟨hflush, hkeeps⟩ := hM.2.1.flushes (MonoUnroll.accepted_of_monoAssn htran)
    obtain ⟨i, h1, hi, hcmpl⟩ := hdone _ _ ⟨starts_of_sat hM.1, hflush, hkeeps⟩
    exact sat_atLeastOnce.mpr ⟨i, ⟨h1, hi⟩, hcmpl⟩

/-- The first number of steps from a given one on, up to a bound, with a property. -/
structure IsFirst (P : Nat → Prop) (start max : Int) (k : Nat) : Prop where
  start_le : start.toNat ≤ k
  le_max : (k : Int) ≤ max
  holds : P k
  first : ∀ j, start.toNat ≤ j → j < k → ¬P j

theorem detStep_spec {check : Nat → Option Bool} {P : Nat → Prop} (hP : ∀ k b, check k = some b → (b = true ↔ P k))
    {n m : Nat} {s : Int} (h : detStep check n m = some s) (hs : 0 ≤ s) :
    ∃ k : Nat, s = k ∧ n ≤ k ∧ k < n + m ∧ P k ∧ ∀ j, n ≤ j → j < k → ¬P j := by
  induction m generalizing n with
  | zero =>
    rw [detStep, Option.some.injEq] at h
    omega
  | succ m ih =>
    rw [detStep, Option.bind_eq_some_iff] at h
    obtain ⟨b, hb, h⟩ := h
    cases b with
    | true =>
      refine ⟨n, (Option.some.inj h).symm, le_rfl, by omega, (hP n true hb).mp rfl, fun j hj hjn => ?_⟩
      omega
    | false =>
      obtain ⟨k, hk, hnk, hkm, hPk, hfirst⟩ := ih h
      refine ⟨k, hk, by omega, by omega, hPk, fun j hj hjk => ?_⟩
      rcases Nat.eq_or_lt_of_le hj with rfl | hj
      · exact fun hPj => Bool.false_ne_true ((hP _ false hb).mpr hPj)
      · exact hfirst j hj hjk

theorem detStepOrig_spec (hnames : r.DistinctNames fresh) {max s : Int} (h : detStepOrig z3 o fresh r max = some s)
    (hs : 0 ≤ s) : ∃ k : Nat, s = k ∧ IsFirst (OrigDone r) r.stepOrig max k := by
  obtain ⟨k, hk, hnk, hkm, hdone, hfirst⟩ := detStep_spec (fun k b => checkStepOrig_iff hnames) h hs
  exact ⟨k, hk, hnk, by omega, hdone, hfirst⟩

theorem detStepAppl_spec (hnames : r.DistinctNames fresh) {max s : Int} (h : detStepAppl z3 o fresh r max = some s)
    (hs : 0 ≤ s) : ∃ k : Nat, s = k ∧ IsFirst (ApplDone r) r.stepAppl max k := by
  obtain ⟨k, hk, hnk, hkm, hdone, hfirst⟩ := detStep_spec (fun k b => checkStepAppl_iff hnames) h hs
  exact ⟨k, hk, hnk, by omega, hdone, hfirst⟩

end Legs

end CommDiag

end Ilang
