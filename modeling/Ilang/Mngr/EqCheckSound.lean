import Ilang.Mngr.EqCheck

/-!
# When the equivalence check is sound

If no path of the step counts that are determined has two completion points in different states, then a
positive answer of `EqCheck` says that the diagram commutes.
-/

namespace Ilang

open Smt

namespace CommDiag

/-- The two paths of one side. -/
structure Runs (r : RefinementMap) (orig appl : Trace) (kOrig kAppl : Nat) : Prop where
  flushed : OrigPath r orig appl kOrig
  applied : ApplPath r orig appl kAppl

/-- Whenever the states of the two models are related at completion points of their flushed paths, they
are so at all completion points after the instruction was applied. -/
def Commutes (crr : CompRefRel) (kOrigA kApplA kOrigB kApplB : Nat) : Prop :=
  ∀ origA applA origB applB : Trace, origB.func = origA.func →
    Runs crr.refineA origA applA kOrigA kApplA → Runs crr.refineB origB applB kOrigB kApplB →
    ∀ i ≤ kOrigA, ∀ j ≤ kOrigB, crr.refineA.Completes origA i → crr.refineB.Completes origB j →
      (crr.join (origA.frame i) (origB.frame j)).Holds crr.relation →
    ∀ i' j', 1 ≤ i' → i' ≤ kApplA + 1 → 1 ≤ j' → j' ≤ kApplB + 1 →
      crr.refineA.Completes applA i' → crr.refineB.Completes applB j' →
      (crr.join (applA.frame i') (applB.frame j')).Holds crr.relation

/-- The completion points of a path are in one state, for the first number of steps at which all paths
have completed. -/
structure OneState (r : RefinementMap) (max : Int) : Prop where
  orig : ∀ k, IsFirst (OrigDone r) r.stepOrig max k → ∀ orig appl, OrigPath r orig appl k → ∀ i ≤ k, ∀ j ≤ k,
    r.Completes orig i → r.Completes orig j → RefinementMap.SameOn r.coi.data.states (orig.frame i) (orig.frame j)
  appl : ∀ k, IsFirst (ApplDone r) r.stepAppl max k → ∀ orig appl, ApplPath r orig appl k →
    ∀ i, 1 ≤ i → i ≤ k + 1 → ∀ j, 1 ≤ j → j ≤ k + 1 →
    r.Completes appl i → r.Completes appl j → RefinementMap.SameOn r.coi.data.states (appl.frame i) (appl.frame j)

theorem mem_getSttTree {top : Ila} {v : Var} (hv : v ∈ top.data.states) : v ∈ top.getSttTree := by
  cases top with
  | mk d cs =>
    rw [Ila.getSttTree, List.mem_dedup, List.mem_flatMap]
    exact ⟨d, by simp [Ila.postOrder], hv⟩

section Sound

variable {z3 : Z3} {o : Oracle} {fresh : Nat} {crr : CompRefRel} {M : Model}

theorem accepted_of_unrollFlush {r : RefinementMap} {tag : String} {length start : Nat} {φ : Term}
    (hφ : unrollFlush z3 fresh tag r 0 length start = some φ) (hpos : 0 < length) : MonoUnroll.Accepted fresh r.coi := by
  rw [unrollFlush, Option.map_eq_some_iff] at hφ
  obtain ⟨path, hpath, -⟩ := hφ
  exact MonoUnroll.accepted_of_monoAssn hpath hpos

theorem sat_genTranRel {r : RefinementMap} {orig appl : Trace} {kOrig kAppl : Nat} {φ : Term} {x y : Nat → Var}
    (hφ : genTranRel z3 fresh r kOrig kAppl = some φ) (hruns : Runs r orig appl kOrig kAppl)
    (horig : ∀ i, r.Records fresh "org" M orig (x i) i) (happl : ∀ i, r.Records fresh "apl" M appl (y i) i)
    (hx : r.Picks fresh orig kOrig x) (hy : r.Picks fresh appl (kAppl + 1) y)
    (hmark : ∀ i ≤ kOrig, r.Completes orig i → RefinementMap.SameOn r.coi.data.states (frame M "org") (orig.frame i))
    (hmark' : ∀ i, 1 ≤ i → i ≤ kAppl + 1 → r.Completes appl i →
      RefinementMap.SameOn r.coi.data.states (frame M "apl") (appl.frame i)) : M.Sat φ := by
  simp only [genTranRel, Option.bind_eq_some_iff, Option.map_eq_some_iff] at hφ
  obtain ⟨φ₁, hφ₁, φ₂, hφ₂, rfl⟩ := hφ
  have hcmpl : r.cmpl ∈ r.exprs := by simp [RefinementMap.exprs]
  rw [Term.sat_conj, Term.sat_conj, sat_unrollFlush hφ₁, sat_unrollFlush hφ₂]
  refine ⟨⟨sat_genInit_of_records hruns.flushed.starts (horig 0) (happl 0),
    pathSat_of_records horig hx hruns.flushed.flushes hruns.flushed.keeps, fun i _ hi hc v hv => ?_⟩,
    pathSat_of_records happl hy hruns.applied.flushes hruns.applied.keeps, fun i h1 hi hc v hv => ?_⟩
  · exact (hmark i hi (((horig i).holds_iff hcmpl).mp hc) v hv).trans ((horig i).const_eq (mem_getSttTree hv)).symm
  · exact (hmark' i h1 hi (((happl i).holds_iff hcmpl).mp hc) v hv).trans ((happl i).const_eq (mem_getSttTree hv)).symm

theorem exists_picks_of_runs {r : RefinementMap} {orig appl : Trace} {kOrig kAppl : Nat} {φ : Term}
    (hφ : genTranRel z3 fresh r kOrig kAppl = some φ) (hnames : r.DistinctNames fresh)
    (hruns : Runs r orig appl kOrig kAppl) :
    ∃ x y, r.Picks fresh orig kOrig x ∧ r.Picks fresh appl (kAppl + 1) y := by
  simp only [genTranRel, Option.bind_eq_some_iff, Option.map_eq_some_iff] at hφ
  obtain ⟨φ₁, hφ₁, φ₂, hφ₂, -⟩ := hφ
  have hbits := RefinementMap.bitsApart_of_nodup hnames.side
  obtain ⟨x, hx⟩ := RefinementMap.exists_picks (accepted_of_unrollFlush hφ₁) hbits hruns.flushed.flushes.1
  obtain ⟨y, hy⟩ := RefinementMap.exists_picks (accepted_of_unrollFlush hφ₂) hbits hruns.applied.flushes.1
  exact ⟨x, y, hx, hy⟩

/-- Executions in which every path completes in one state, and that do not commute, satisfy the last query. -/
theorem exists_sat_query {kOrigA kApplA kOrigB kApplB : Nat} {tranA tranB : Term} (hnames : crr.DistinctNames fresh)
    (htranA : genTranRel z3 fresh crr.refineA kOrigA kApplA = some tranA)
    (htranB : genTranRel z3 fresh crr.refineB kOrigB kApplB = some tranB) {origA applA origB applB : Trace}
    (hfunc : origB.func = origA.func) (hA : Runs crr.refineA origA applA kOrigA kApplA)
    (hB : Runs crr.refineB origB applB kOrigB kApplB) {i j i' j' : Nat}
    (hiA : ∀ l ≤ kOrigA, crr.refineA.Completes origA l →
      RefinementMap.SameOn crr.refineA.coi.data.states (origA.frame i) (origA.frame l))
    (hjB : ∀ l ≤ kOrigB, crr.refineB.Completes origB l →
      RefinementMap.SameOn crr.refineB.coi.data.states (origB.frame j) (origB.frame l))
    (hiA' : ∀ l, 1 ≤ l → l ≤ kApplA + 1 → crr.refineA.Completes applA l →
      RefinementMap.SameOn crr.refineA.coi.data.states (applA.frame i') (applA.frame l))
    (hjB' : ∀ l, 1 ≤ l → l ≤ kApplB + 1 → crr.refineB.Completes applB l →
      RefinementMap.SameOn crr.refineB.coi.data.states (applB.frame j') (applB.frame l)) :
    ∃ M : Model, M.Sat tranA ∧ M.Sat tranB ∧
      (M.Sat (getExpr z3 "org" crr.relation) ↔ (crr.join (origA.frame i) (origB.frame j)).Holds crr.relation) ∧
      (M.Sat (getExpr z3 "apl" crr.relation) ↔ (crr.join (applA.frame i') (applB.frame j')).Holds crr.relation) := by
  obtain ⟨xA, yA, hxA, hyA⟩ := exists_picks_of_runs htranA hnames.refineA hA
  obtain ⟨xB, yB, hxB, hyB⟩ := exists_picks_of_runs htranB hnames.refineB hB
  have hfuncA : applA.func = origA.func := hA.flushed.starts.func
  have hfuncB : applB.func = origA.func := hB.flushed.starts.func.trans hfunc
  obtain ⟨M, hrecA, hrecB, hrep, hM⟩ := CompRefRel.exists_records Leg.tag_inj Leg.tag_plain hnames
    (Leg.pick origA applA) (Leg.pick origB applB) (Leg.pick xA yA) (Leg.pick xB yB)
    (Leg.pick (crr.join (origA.frame i) (origB.frame j)) (crr.join (applA.frame i') (applB.frame j'))) (origA.frame 0)
    (fun l => by
      cases l with
      | orig => rfl
      | appl => exact hfuncA)
    (fun l => by
      cases l with
      | orig => exact hfunc
      | appl => exact hfuncB)
  have hrepA : ∀ v ∈ crr.refineA.coi.data.states, Atom.var v ∈ crr.repAtoms := fun v hv =>
    List.mem_append_right _ (List.mem_map_of_mem (List.mem_append_left _ (mem_getSttTree hv)))
  have hrepB : ∀ v ∈ crr.refineB.coi.data.states, Atom.var v ∈ crr.repAtoms := fun v hv =>
    List.mem_append_right _ (List.mem_map_of_mem (List.mem_append_right _ (mem_getSttTree hv)))
  refine ⟨M, ?_, ?_, ?_, ?_⟩
  · refine sat_genTranRel htranA hA (hrecA .orig) (hrecA .appl) hxA hyA (fun l hl hc v hv => ?_) fun l h1 hl hc v hv => ?_
    · exact ((hrep .orig _ (hrepA v hv)).trans (CompRefRel.join_a _ _ (mem_getSttTree hv))).trans (hiA l hl hc v hv)
    · exact ((hrep .appl _ (hrepA v hv)).trans (CompRefRel.join_a _ _ (mem_getSttTree hv))).trans (hiA' l h1 hl hc v hv)
  · refine sat_genTranRel htranB hB (hrecB .orig) (hrecB .appl) hxB hyB (fun l hl hc v hv => ?_) fun l h1 hl hc v hv => ?_
    · exact ((hrep .orig _ (hrepB v hv)).trans (CompRefRel.join_b hnames _ _ (mem_getSttTree hv))).trans (hjB l hl hc v hv)
    · exact ((hrep .appl _ (hrepB v hv)).trans (CompRefRel.join_b hnames _ _ (mem_getSttTree hv))).trans (hjB' l h1 hl hc v hv)
  · rw [sat_getExpr crr.relation_check]
    exact CompRefRel.holds_relation (hrep .orig) hM
  · rw [sat_getExpr crr.relation_check]
    exact CompRefRel.holds_relation (hrep .appl) fun f hf => (hM f hf).trans (congrFun hfuncA f).symm

/-- The step counts that are determined. -/
structure StepCounts (z3 : Z3) (o : Oracle) (fresh : Nat) (crr : CompRefRel) (max : Int)
    (kOrigA kApplA kOrigB kApplB : Nat) : Prop where
  origA : detStepOrig z3 o fresh crr.refineA max = some (kOrigA : Int)
  applA : detStepAppl z3 o fresh crr.refineA max = some (kApplA : Int)
  origB : detStepOrig z3 o fresh crr.refineB max = some (kOrigB : Int)
  applB : detStepAppl z3 o fresh crr.refineB max = some (kApplB : Int)

theorem eqCheck_eq_true {max : Int} (h : eqCheck z3 o fresh crr max = some true) :
    ∃ kOrigA kApplA kOrigB kApplB, StepCounts z3 o fresh crr max kOrigA kApplA kOrigB kApplB ∧
      ∃ tranA tranB, genTranRel z3 fresh crr.refineA kOrigA kApplA = some tranA ∧
        genTranRel z3 fresh crr.refineB kOrigB kApplB = some tranB ∧
        ∀ M : Model, M.Sat tranA → M.Sat tranB → M.Sat (getExpr z3 "org" crr.relation) →
          M.Sat (getExpr z3 "apl" crr.relation) := by
  simp only [eqCheck, Option.bind_eq_some_iff] at h
  obtain ⟨sOA, hOA, sNA, hNA, sOB, hOB, sNB, hNB, h⟩ := h
  split at h
  · cases h
  rename_i hneg
  simp only [Option.bind_eq_some_iff] at h
  obtain ⟨tranA, htranA, tranB, htranB, h⟩ := h
  split at h
  · cases h
  split at h
  · cases h
  rw [Option.some.injEq, Bool.not_eq_true', Solver.check, o.sat_eq_false_iff] at h
  have hcast : ∀ {s : Int}, ¬s < 0 → s = (s.toNat : Int) := by omega
  simp only [not_or] at hneg
  obtain ⟨hnOA, hnNA, hnOB, hnNB⟩ := hneg
  refine ⟨sOA.toNat, sNA.toNat, sOB.toNat, sNB.toNat, ⟨?_, ?_, ?_, ?_⟩, tranA, tranB, htranA, htranB,
    fun M hA hB hassm => ?_⟩
  · rw [hOA, ← hcast hnOA]
  · rw [hNA, ← hcast hnNA]
  · rw [hOB, ← hcast hnOB]
  · rw [hNB, ← hcast hnNB]
  by_contra hprop
  refine h M fun t ht => ?_
  simp only [Solver.assertions_add, Solver.assertions_new, List.nil_append, List.mem_append, List.mem_singleton] at ht
  rcases ht with rfl | rfl
  · exact Term.sat_conj.mpr ⟨Term.sat_conj.mpr ⟨hA, hB⟩, hassm⟩
  · exact (isBool_getExpr crr.relation_check _).sat_neg.mpr hprop

/-- When no path has two completion points in different states, a positive answer says that the diagram
commutes for the step counts that were determined. -/
theorem eqCheck_commutes_of_oneState {max : Int} (hnames : crr.DistinctNames fresh) (hA : OneState crr.refineA max)
    (hB : OneState crr.refineB max) (h : eqCheck z3 o fresh crr max = some true) :
    ∃ kOrigA kApplA kOrigB kApplB, StepCounts z3 o fresh crr max kOrigA kApplA kOrigB kApplB ∧
      Commutes crr kOrigA kApplA kOrigB kApplB := by
  obtain ⟨kOrigA, kApplA, kOrigB, kApplB, hsteps, tranA, tranB, htranA, htranB, hquery⟩ := eqCheck_eq_true h
  refine ⟨kOrigA, kApplA, kOrigB, kApplB, hsteps, ?_⟩
  -- the step counts are the first ones at which all paths have completed
  obtain ⟨k, hk, hfirstOA⟩ := detStepOrig_spec hnames.refineA hsteps.origA (Int.natCast_nonneg _)
  obtain rfl : kOrigA = k := by omega
  obtain ⟨k, hk, hfirstNA⟩ := detStepAppl_spec hnames.refineA hsteps.applA (Int.natCast_nonneg _)
  obtain rfl : kApplA = k := by omega
  obtain ⟨k, hk, hfirstOB⟩ := detStepOrig_spec hnames.refineB hsteps.origB (Int.natCast_nonneg _)
  obtain rfl : kOrigB = k := by omega
  obtain ⟨k, hk, hfirstNB⟩ := detStepAppl_spec hnames.refineB hsteps.applB (Int.natCast_nonneg _)
  obtain rfl : kApplB = k := by omega
  intro origA applA origB applB hfunc hrunA hrunB i hi j hj hci hcj hrel i' j' h1i hi' h1j hj' hci' hcj'
  obtain ⟨M, hsatA, hsatB, hassm, hprop⟩ := exists_sat_query hnames htranA htranB hfunc hrunA hrunB
    (fun l hl hc => hA.orig _ hfirstOA origA applA hrunA.flushed i hi l hl hci hc)
    (fun l hl hc => hB.orig _ hfirstOB origB applB hrunB.flushed j hj l hl hcj hc)
    (fun l h1 hl hc => hA.appl _ hfirstNA origA applA hrunA.applied i' h1i hi' l h1 hl hci' hc)
    (fun l h1 hl hc => hB.appl _ hfirstNB origB applB hrunB.applied j' h1j hj' l h1 hl hcj' hc)
  exact hprop.mp (hquery M hsatA hsatB (hassm.mpr hrel))

end Sound

/-! ### Positive answers -/

section Answers

variable {z3 : Z3} {o : Oracle} {fresh : Nat} {r : RefinementMap} {M : Model}

theorem detStep_eq {check : Nat → Option Bool} {n m k : Nat} (hnk : n ≤ k) (hkm : k < n + m)
    (hbefore : ∀ j, n ≤ j → j < k → check j = some false) (hk : check k = some true) : detStep check n m = some (k : Int) := by
  induction m generalizing n with
  | zero => omega
  | succ m ih =>
    rw [detStep]
    rcases Nat.eq_or_lt_of_le hnk with rfl | hlt
    · simp [hk]
    · rw [hbefore n le_rfl hlt]
      exact ih hlt (by omega) fun j hj hjk => hbefore j (by omega) hjk

theorem sorted_of_mem {start i : Nat} {e : Expr} (he : e ∈ r.invs ∨ (start ≤ i ∧ e = r.flush)) : e.check = some .bool := by
  rcases he with he | ⟨-, rfl⟩
  · exact r.invs_check e he
  · exact r.flush_check

theorem isSome_origTran (hunroll : MonoUnroll.Unrollable fresh r.coi) (k : Nat) :
    (MonoUnroll.monoAssn fresh r.coi z3 (globPreds "org" (r.flush :: r.invs)) k 0).isSome := by
  refine hunroll.isSome z3 ?_ fun i _ e he => sorted_of_mem ((mem_origPreds i e).mp he)
  rw [globPreds_eq]
  exact fun e he => by cases he

theorem isSome_applTran (hunroll : MonoUnroll.Unrollable fresh r.coi) (k : Nat) :
    (MonoUnroll.monoAssn fresh r.coi z3 (applPreds r k) (k + 1) 0).isSome := by
  obtain ⟨-, hinit, hpred⟩ := applPreds_eq r k
  refine hunroll.isSome z3 ?_ fun i hi e he => sorted_of_mem ((hpred i hi e).mp he)
  rw [hinit, List.forall_mem_singleton]
  exact r.appl_check

theorem isSome_unrollFlush (hunroll : MonoUnroll.Unrollable fresh r.coi) (tag : String) (length start : Nat) :
    (unrollFlush z3 fresh tag r 0 length start).isSome := by
  obtain ⟨-, hinit, hpred⟩ := flushPreds_eq r tag length start _ rfl
  rw [unrollFlush, Option.isSome_map]
  refine hunroll.isSome z3 ?_ fun i hi e he => sorted_of_mem ((hpred i hi e).mp he)
  rw [hinit]
  exact fun e he => by cases he

theorem exists_genTranRel (z3 : Z3) (hunroll : MonoUnroll.Unrollable fresh r.coi) (kOrig kAppl : Nat) :
    ∃ φ, genTranRel z3 fresh r kOrig kAppl = some φ := by
  obtain ⟨φ, hφ⟩ := Option.isSome_iff_exists.mp (isSome_unrollFlush hunroll "org" kOrig 0)
  obtain ⟨ψ, hψ⟩ := Option.isSome_iff_exists.mp (isSome_unrollFlush hunroll "apl" (kAppl + 1) 1)
  rw [genTranRel, hφ, hψ]
  exact ⟨_, rfl⟩

theorem checkStepOrig_eq {k : Nat} {b : Bool} (hnames : r.DistinctNames fresh)
    (hunroll : MonoUnroll.Unrollable fresh r.coi)
    {orig appl : Trace} (hpath : OrigPath r orig appl k) (hb : b = true ↔ OrigDone r k) :
    checkStepOrig z3 o fresh r k = some b := by
  obtain ⟨tran, htran⟩ := Option.isSome_iff_exists.mp (isSome_origTran hunroll k)
  obtain ⟨x, hx⟩ := RefinementMap.exists_picks (MonoUnroll.accepted_of_monoAssn htran)
    (RefinementMap.bitsApart_of_nodup hnames.side) hpath.flushes.1
  obtain ⟨M, horig, happl⟩ := exists_legs hnames hpath.starts.func x x
  have hlive : (Solver.new.add ((genInit z3 r).conj tran)).check o = true := by
    rw [Solver.check, o.sat_iff]
    refine ⟨M, ?_⟩
    rw [Solver.assertions_add, Solver.assertions_new, List.nil_append, List.forall_mem_singleton]
    exact Term.sat_conj.mpr ⟨sat_genInit_of_records hpath.starts (horig 0) (happl 0),
      (sat_origTran htran).mpr (pathSat_of_records horig hx hpath.flushes hpath.keeps)⟩
  obtain ⟨b', hb'⟩ : ∃ b', checkStepOrig z3 o fresh r k = some b' := by
    rw [checkStepOrig, htran, Option.bind_some, if_pos hlive]
    exact ⟨_, rfl⟩
  rw [hb', Option.some.injEq, Bool.eq_iff_iff, checkStepOrig_iff hnames hb', hb]

theorem checkStepAppl_eq {k : Nat} {b : Bool} (hnames : r.DistinctNames fresh)
    (hunroll : MonoUnroll.Unrollable fresh r.coi) (hb : b = true ↔ ApplDone r k) :
    checkStepAppl z3 o fresh r k = some b := by
  obtain ⟨tran, htran⟩ := Option.isSome_iff_exists.mp (isSome_applTran hunroll k)
  obtain ⟨b', hb'⟩ : ∃ b', checkStepAppl z3 o fresh r k = some b' := by
    rw [checkStepAppl, htran]
    exact ⟨_, rfl⟩
  rw [hb', Option.some.injEq, Bool.eq_iff_iff, checkStepAppl_iff hnames hb', hb]

theorem runs_of_sat {kOrig kAppl : Nat} {φ : Term} (hφ : genTranRel z3 fresh r kOrig kAppl = some φ) (hsat : M.Sat φ) :
    Runs r (traceOf (Unroller.new "org") M) (traceOf (Unroller.new "apl") M) kOrig kAppl ∧
      (∀ i ≤ kOrig, r.Completes (traceOf (Unroller.new "org") M) i →
        RefinementMap.SameOn r.coi.data.states (frame M "org") ((traceOf (Unroller.new "org") M).frame i)) ∧
      ∀ i, 1 ≤ i → i ≤ kAppl + 1 → r.Completes (traceOf (Unroller.new "apl") M) i →
        RefinementMap.SameOn r.coi.data.states (frame M "apl") ((traceOf (Unroller.new "apl") M).frame i) := by
  simp only [genTranRel, Option.bind_eq_some_iff, Option.map_eq_some_iff] at hφ
  obtain ⟨φ₁, hφ₁, φ₂, hφ₂, rfl⟩ := hφ
  rw [Term.sat_conj, Term.sat_conj, sat_unrollFlush hφ₁, sat_unrollFlush hφ₂] at hsat
  obtain ⟨⟨hinit, horig, hmark⟩, happl, hmark'⟩ := hsat
  have hstarts := starts_of_sat hinit
  obtain ⟨hflush, hkeeps⟩ := horig.flushes (accepted_of_unrollFlush hφ₁)
  obtain ⟨hflush', hkeeps'⟩ := happl.flushes (accepted_of_unrollFlush hφ₂)
  exact ⟨⟨⟨hstarts, hflush, hkeeps⟩, hstarts, hflush', hkeeps'⟩, fun i hi => hmark i (Nat.zero_le i) hi, hmark'⟩

theorem eqCheck_of_counts {crr : CompRefRel} {max : Int} {kOrigA kApplA kOrigB kApplB : Nat} {tranA tranB : Term}
    (hsteps : StepCounts z3 o fresh crr max kOrigA kApplA kOrigB kApplB)
    (htranA : genTranRel z3 fresh crr.refineA kOrigA kApplA = some tranA)
    (htranB : genTranRel z3 fresh crr.refineB kOrigB kApplB = some tranB) (hlive : ∃ M : Model, M.Sat tranA ∧ M.Sat tranB)
    (hquery : ∀ M : Model, M.Sat tranA → M.Sat tranB → M.Sat (getExpr z3 "org" crr.relation) →
      M.Sat (getExpr z3 "apl" crr.relation)) : eqCheck z3 o fresh crr max = some true := by
  obtain ⟨M, hA, hB⟩ := hlive
  have hsat : ∀ {t : Term}, M.Sat t → (Solver.new.add t).check o = true := by
    intro t ht
    rw [Solver.check, o.sat_iff]
    exact ⟨M, by simpa using ht⟩
  have hunsat : ((Solver.new.add ((tranA.conj tranB).conj (getExpr z3 "org" crr.relation))).add
      (getExpr z3 "apl" crr.relation).neg).check o = false := by
    rw [Solver.check, o.sat_eq_false_iff]
    intro N hN
    simp only [Solver.assertions_add, Solver.assertions_new, List.nil_append, List.forall_mem_append,
      List.forall_mem_singleton, Term.sat_conj, (isBool_getExpr crr.relation_check _).sat_neg] at hN
    exact hN.2 (hquery N hN.1.1.1 hN.1.1.2 hN.1.2)
  have hneg : ¬((kOrigA : Int) < 0 ∨ (kApplA : Int) < 0 ∨ (kOrigB : Int) < 0 ∨ (kApplB : Int) < 0) := by omega
  simp only [eqCheck, hsteps.origA, hsteps.applA, hsteps.origB, hsteps.applB, Option.bind_some, if_neg hneg,
    Int.toNat_natCast, htranA, htranB, hsat hA, hsat hB, hunsat]
  rfl

end Answers

/-! ### Two small models -/

def latchX : Var := ⟨0, "x", some "a", .bool⟩

def latchZ : Var := ⟨1, "z", some "a", .bool⟩

theorem latchZ_check : ((Expr.boolConst true).and (.var latchZ)).check = some .bool := rfl

def latchI : Var := ⟨2, "i", some "a", .bool⟩

def latchGo : Instr :=
  ⟨4, "go", some (.boolConst true), [("x", some (.boolConst true)),
    ("z", some (.op .ite [.var latchI, .var latchZ, .var latchX]))], none⟩

/-- One instruction, which sets `x` and keeps `z` if the input is set, and otherwise copies `x` to it. -/
def latchIla : Ila :=
  .mk { IlaData.new 3 "a" with
        inputs := [latchI]
        states := [latchX, latchZ]
        instrs := [latchGo] } []

/-- The latch is flushed with the input set. -/
def latch (cmpl : Expr) (h : cmpl.check = some .bool) : RefinementMap where
  coi := latchIla
  appl := (Expr.var latchI).not
  flush := .var latchI
  cmpl := cmpl
  stepAppl := -1
  stepOrig := -1
  invs := []
  sorted := by
    simp only [List.append_nil, List.forall_mem_cons, List.not_mem_nil, false_implies, implies_true, and_true]
    exact ⟨rfl, rfl, h⟩

def idleW : Var := ⟨5, "w", some "b", .bool⟩

def idleJ : Var := ⟨6, "j", some "b", .bool⟩

/-- One instruction that does nothing. -/
def idleIla : Ila :=
  .mk { IlaData.new 7 "b" with
        inputs := [idleJ]
        states := [idleW]
        instrs := [⟨8, "keep", some (.boolConst true), [], none⟩] } []

/-- It is complete all the time, so no step is needed. -/
def idler : RefinementMap where
  coi := idleIla
  appl := (Expr.var idleJ).not
  flush := .var idleJ
  cmpl := .boolConst true
  stepAppl := 0
  stepOrig := 0
  invs := []
  sorted := by decide

theorem latch_unrollable : MonoUnroll.Unrollable 9 latchIla := by
  refine ⟨by decide, fun e he => ?_⟩
  revert e
  decide

theorem idle_unrollable : MonoUnroll.Unrollable 9 idleIla := by
  refine ⟨by decide, fun e he => ?_⟩
  revert e
  decide

theorem latch_stt : latchIla.getSttTree = [latchX, latchZ] := by decide

theorem idle_stt : idleIla.getSttTree = [idleW] := by decide

theorem holds_var (v : Var) (ν : Valuation) (hv : v.sort = .bool) : ∃ b, ν.atom (.var v) = .bool b ∧ (ν.Holds (.var v) ↔ b = true) := by
  obtain ⟨b, hb⟩ := Value.exists_bool ((ν.atom_sort (.var v)).trans hv)
  refine ⟨b, hb, ?_⟩
  rw [Valuation.Holds, Expr.eval, hb]
  simp

theorem latch_step {ν ν' : Valuation} : latchIla.Step ν ν' ↔ ν'.Holds (.var latchX) ∧
    (ν'.Holds (.var latchZ) ↔ (ν.Holds (.var latchI) ∧ ν.Holds (.var latchZ)) ∨ (¬ν.Holds (.var latchI) ∧ ν.Holds (.var latchX))) := by
  obtain ⟨x, hx, hX⟩ := holds_var latchX ν rfl
  obtain ⟨z, hz, hZ⟩ := holds_var latchZ ν rfl
  obtain ⟨i, hi, hI⟩ := holds_var latchI ν rfl
  obtain ⟨x', hx', hX'⟩ := holds_var latchX ν' rfl
  obtain ⟨z', hz', hZ'⟩ := holds_var latchZ ν' rfl
  have hdec : ν.Holds (decodeCmpl latchGo) := rfl
  have hupdX : (stateUpdCmpl latchGo latchX).eval ν = some (.bool true) := rfl
  have hupdZ : (stateUpdCmpl latchGo latchZ).eval ν = some (.bool (if i then z else x)) := by
    rw [show stateUpdCmpl latchGo latchZ = .op .ite [.var latchI, .var latchZ, .var latchX] from rfl]
    simp only [Expr.eval, Expr.evalList, hi, hz, hx]
    cases i <;> rfl
  have hmem : ∀ h, h ∈ latchIla.getInstrTree ↔ h = ⟨latchIla.data, latchGo⟩ := by
    intro h
    exact List.mem_singleton
  simp only [Ila.Step, hmem, exists_eq_left, forall_eq, hdec, latch_stt, List.forall_mem_cons, List.not_mem_nil, false_implies,
    implies_true, and_true, true_and, not_true_eq_false, false_and, or_false, hupdX, hupdZ, hX', hZ', hX, hZ, hI, hx', hz',
    Option.some.injEq, Value.bool.injEq]
  cases x' <;> cases z' <;> cases i <;> cases z <;> cases x <;> simp

theorem idle_step {ν ν' : Valuation} : idleIla.Step ν ν' ↔ ν'.atom (.var idleW) = ν.atom (.var idleW) := by
  have hmem : ∀ h, h ∈ idleIla.getInstrTree ↔ h = ⟨idleIla.data, ⟨8, "keep", some (.boolConst true), [], none⟩⟩ := by
    intro h
    exact List.mem_singleton
  have hdec : ν.Holds (decodeCmpl ⟨8, "keep", some (.boolConst true), [], none⟩) := rfl
  have hupd : (stateUpdCmpl ⟨8, "keep", some (.boolConst true), [], none⟩ idleW).eval ν = some (ν.atom (.var idleW)) := rfl
  simp only [Ila.Step, hmem, exists_eq_left, forall_eq, hdec, idle_stt, List.forall_mem_cons, List.not_mem_nil, false_implies,
    implies_true, and_true, true_and, not_true_eq_false, false_and, or_false, hupd, Option.some.injEq, eq_comm]

/-- A trace of Boolean variables. -/
def bits (f : Nat → Var → Bool) : Trace where
  atom i
    | .var v => if v.sort = .bool then .bool (f i v) else v.sort.default
    | .nondet g => g.out.default
  atom_sort i
    | .var v => by
      change (if v.sort = .bool then Value.bool (f i v) else v.sort.default).sort = v.sort
      split
      · rename_i hv
        rw [hv]
        rfl
      · exact v.sort.sort_default
    | .nondet g => g.out.sort_default
  func g _ := g.out.default
  func_sort := func_default_sort

theorem bits_holds {f : Nat → Var → Bool} {i : Nat} {v : Var} (hv : v.sort = .bool) :
    ((bits f).frame i).Holds (.var v) ↔ f i v = true := by
  have hatom : (bits f).atom i (.var v) = .bool (f i v) := if_pos hv
  rw [Valuation.Holds, Expr.eval, Trace.frame_atom, hatom]
  simp

/-- The paths of the latch from a state. -/
def latchOrig (x z : Bool) : Trace :=
  bits fun n v => if v = latchX then n != 0 || x else if v = latchZ then z else true

def latchAppl (x z : Bool) : Trace :=
  bits fun n v => if v = latchX then n != 0 || x else if v = latchZ then (if n = 0 then z else x) else n != 0

def idleOrig : Trace := bits fun _ v => v = idleJ

def idleAppl : Trace := bits fun n v => v = idleJ && n != 0

theorem latch_runs (cmpl : Expr) (h : cmpl.check = some .bool) (x z : Bool) (kOrig kAppl : Nat) :
    Runs (latch cmpl h) (latchOrig x z) (latchAppl x z) kOrig kAppl := by
  have hflush : ∀ n, ((latchOrig x z).frame n).Holds (.var latchI) := by
    intro n
    rw [latchOrig, bits_holds rfl]
    simp [latchI, latchX, latchZ]
  have hflush' : ∀ n, 1 ≤ n → ((latchAppl x z).frame n).Holds (.var latchI) := by
    intro n hn
    rw [latchAppl, bits_holds rfl]
    simp [latchI, latchX, latchZ, Nat.pos_iff_ne_zero.mp hn]
  have hstarts : Starts (latch cmpl h) (latchOrig x z) (latchAppl x z) := by
    refine ⟨?_, ?_, hflush 0, rfl⟩
    · have hstt : (latch cmpl h).coi.getSttTree = [latchX, latchZ] := latch_stt
      intro v hv
      rw [hstt, List.mem_cons, List.mem_singleton] at hv
      rcases hv with rfl | rfl
      · rfl
      · rfl
    · refine (Expr.holds_not rfl).mpr ?_
      rw [latchAppl, bits_holds rfl]
      simp [latchI, latchX, latchZ]
  refine ⟨⟨hstarts, ⟨fun i _ => ?_, fun i _ _ => hflush i⟩, fun i _ e he => by cases he⟩,
    hstarts, ⟨fun i _ => ?_, fun i h1 _ => hflush' i h1⟩, fun i _ e he => by cases he⟩
  · refine latch_step.mpr ?_
    rw [latchOrig, bits_holds rfl, bits_holds rfl, bits_holds rfl, bits_holds rfl, bits_holds rfl]
    simp [latchI, latchX, latchZ]
  · refine latch_step.mpr ?_
    rw [latchAppl, bits_holds rfl, bits_holds rfl, bits_holds rfl, bits_holds rfl, bits_holds rfl]
    by_cases hi : i = 0
    · simp [latchI, latchX, latchZ, hi]
    · simp [latchI, latchX, latchZ, hi]

theorem idle_runs (kOrig kAppl : Nat) : Runs idler idleOrig idleAppl kOrig kAppl := by
  have hstarts : Starts idler idleOrig idleAppl := by
    refine ⟨?_, ?_, (bits_holds rfl).mpr (by decide), rfl⟩
    · have hstt : idler.coi.getSttTree = [idleW] := idle_stt
      intro v hv
      rw [hstt, List.mem_singleton] at hv
      rw [hv]
      rfl
    · refine (Expr.holds_not rfl).mpr ?_
      rw [idleAppl, bits_holds rfl]
      simp
  refine ⟨⟨hstarts, ⟨fun i _ => idle_step.mpr rfl, fun i _ _ => (bits_holds rfl).mpr (by decide)⟩,
      fun i _ e he => by cases he⟩,
    hstarts, ⟨fun i _ => idle_step.mpr rfl, fun i h1 _ => ?_⟩, fun i _ e he => by cases he⟩
  refine (bits_holds rfl).mpr ?_
  simp [Nat.pos_iff_ne_zero.mp h1]


theorem holds_var_of_sameOn {vars : List Var} {ν ν' : Valuation} {v : Var} (hs : RefinementMap.SameOn vars ν ν') (hv : v ∈ vars) :
    ν.Holds (.var v) ↔ ν'.Holds (.var v) := by
  rw [Valuation.Holds, Valuation.Holds, Expr.eval, Expr.eval, hs v hv]

/-! ### What the latch does -/

section Latch

variable {cmpl : Expr} {h : cmpl.check = some .bool} {orig appl : Trace} {k : Nat}

theorem latch_orig_step (hpath : OrigPath (latch cmpl h) orig appl k) {i : Nat} (hi : i < k) :
    (orig.frame (i + 1)).Holds (.var latchX) ∧
      ((orig.frame (i + 1)).Holds (.var latchZ) ↔ (orig.frame i).Holds (.var latchZ)) := by
  obtain ⟨hx, hz⟩ := latch_step.mp (hpath.flushes.1 i hi)
  have hflush : (orig.frame i).Holds (.var latchI) := hpath.flushes.2 i (Nat.zero_le i) (Nat.le_of_lt hi)
  exact ⟨hx, by simpa [hflush] using hz⟩

theorem latch_appl_step (hpath : ApplPath (latch cmpl h) orig appl k) :
    (appl.frame 1).Holds (.var latchX) ∧ ((appl.frame 1).Holds (.var latchZ) ↔ (orig.frame 0).Holds (.var latchX)) := by
  obtain ⟨hx, hz⟩ := latch_step.mp (hpath.flushes.1 0 (Nat.succ_pos k))
  have hinput : ¬(appl.frame 0).Holds (.var latchI) := (Expr.holds_not rfl).mp hpath.starts.applied
  have hmem : latchX ∈ (latch cmpl h).coi.getSttTree := mem_getSttTree List.mem_cons_self
  have hcopy := holds_var_of_sameOn hpath.starts.same hmem
  exact ⟨hx, by simpa [hinput, hcopy] using hz⟩

end Latch

theorem idle_done (k : Nat) : OrigDone idler k ∧ ApplDone idler k :=
  ⟨fun _ _ _ => ⟨0, Nat.zero_le k, rfl⟩, fun _ _ _ => ⟨1, le_rfl, by omega, rfl⟩⟩

/-- The latch and the idler, related when `z` is set. -/
def latchCheck : CompRefRel where
  refineA := latch ((Expr.var latchX).or (.var latchZ)) rfl
  refineB := idler
  relation := (Expr.boolConst true).and (.var latchZ)
  relation_check := latchZ_check

theorem latchCheck_names : latchCheck.DistinctNames 9 := by
  refine ⟨by decide, by decide, by decide⟩

theorem latchCheck_completes {τ : Trace} {i : Nat} : latchCheck.refineA.Completes τ i ↔
    (τ.frame i).Holds (.var latchX) ∨ (τ.frame i).Holds (.var latchZ) := Expr.holds_or rfl rfl

theorem latchCheck_related {ν μ : Valuation} :
    (latchCheck.join ν μ).Holds latchCheck.relation ↔ ν.Holds (.var latchZ) := by
  have hatom : (latchCheck.join ν μ).atom (.var latchZ) = ν.atom (.var latchZ) := by
    exact CompRefRel.join_a ν μ (mem_getSttTree (List.mem_cons_of_mem _ List.mem_cons_self))
  rw [show latchCheck.relation = (Expr.boolConst true).and (.var latchZ) from rfl, Expr.holds_and,
    and_iff_right Expr.holds_boolConst_true, Valuation.Holds, Valuation.Holds, Expr.eval, Expr.eval, hatom]

theorem latchCheck_counts (z3 : Z3) (o : Oracle) : StepCounts z3 o 9 latchCheck 10 1 0 0 0 := by
  have hnot : ¬OrigDone latchCheck.refineA 0 := by
    intro hdone
    obtain ⟨i, hi, hcmpl⟩ := hdone _ _ (latch_runs _ rfl false false 0 0).flushed
    rw [Nat.le_zero.mp hi, latchCheck_completes, latchOrig, bits_holds rfl, bits_holds rfl] at hcmpl
    exact absurd hcmpl (by decide)
  have hdone : OrigDone latchCheck.refineA 1 := fun orig appl hpath =>
    ⟨1, le_rfl, latchCheck_completes.mpr (.inl (latch_orig_step (h := rfl) hpath Nat.one_pos).1)⟩
  have happl : ApplDone latchCheck.refineA 0 := fun orig appl hpath =>
    ⟨1, le_rfl, le_rfl, latchCheck_completes.mpr (.inl (latch_appl_step (h := rfl) hpath).1)⟩
  have hpath := fun k => (latch_runs ((Expr.var latchX).or (.var latchZ)) rfl true true k 0).flushed
  refine ⟨?_, ?_, ?_, ?_⟩
  · refine detStep_eq (n := 0) (m := 11) (k := 1) (Nat.zero_le 1) (by decide) (fun j _ hj => ?_) ?_
    · rw [Nat.lt_one_iff.mp hj]
      exact checkStepOrig_eq latchCheck_names.refineA latch_unrollable (hpath 0) (by simp [hnot])
    · exact checkStepOrig_eq latchCheck_names.refineA latch_unrollable (hpath 1) (by simp [hdone])
  · refine detStep_eq (n := 0) (m := 11) (k := 0) le_rfl (by decide) (fun j _ hj => by omega) ?_
    exact checkStepAppl_eq latchCheck_names.refineA latch_unrollable (by simp [happl])
  · refine detStep_eq (n := 0) (m := 11) (k := 0) le_rfl (by decide) (fun j _ hj => by omega) ?_
    exact checkStepOrig_eq latchCheck_names.refineB idle_unrollable (idle_runs 0 0).flushed (iff_of_true rfl (idle_done 0).1)
  · refine detStep_eq (n := 0) (m := 11) (k := 0) le_rfl (by decide) (fun j _ hj => by omega) ?_
    exact checkStepAppl_eq latchCheck_names.refineB idle_unrollable (iff_of_true rfl (idle_done 0).2)

theorem latch_still (i j : Nat) : RefinementMap.SameOn latchIla.data.states ((latchOrig true true).frame i)
    ((latchOrig true true).frame j) := by
  intro v hv
  rcases List.mem_pair.mp hv with rfl | rfl
  · simp [latchOrig, bits, latchX]
  · simp [latchOrig, bits, latchX, latchZ]

theorem latch_still' (i j : Nat) : RefinementMap.SameOn latchIla.data.states ((latchAppl true true).frame i)
    ((latchAppl true true).frame j) := by
  intro v hv
  rcases List.mem_pair.mp hv with rfl | rfl
  · simp [latchAppl, bits, latchX]
  · simp [latchAppl, bits, latchX, latchZ]

theorem idle_still (i j : Nat) : RefinementMap.SameOn idleIla.data.states (idleOrig.frame i) (idleOrig.frame j) := by
  intro v hv
  rw [List.mem_singleton.mp hv]
  simp [idleOrig, bits, idleW, idleJ]

theorem idle_still' (i j : Nat) : RefinementMap.SameOn idleIla.data.states (idleAppl.frame i) (idleAppl.frame j) := by
  intro v hv
  rw [List.mem_singleton.mp hv]
  simp [idleAppl, bits, idleW, idleJ]

theorem eqCheck_latchCheck (z3 : Z3) (o : Oracle) : eqCheck z3 o 9 latchCheck 10 = some true := by
  obtain ⟨tranA, htranA⟩ := exists_genTranRel z3 (r := latchCheck.refineA) latch_unrollable 1 0
  obtain ⟨tranB, htranB⟩ := exists_genTranRel z3 (r := latchCheck.refineB) idle_unrollable 0 0
  refine eqCheck_of_counts (latchCheck_counts z3 o) htranA htranB ?_ fun M hA hB hassm => ?_
  · obtain ⟨M, hA, hB, -⟩ := exists_sat_query latchCheck_names htranA htranB (show idleOrig.func = (latchOrig true true).func from rfl)
      (latch_runs _ rfl true true 1 0) (idle_runs 0 0) (fun l _ _ => latch_still 0 l) (fun l _ _ => idle_still 0 l)
      (fun l _ _ _ => latch_still' 0 l) fun l _ _ _ => idle_still' 0 l
    exact ⟨M, hA, hB⟩
  · -- the relation holds of the marked state, so `z` was set from the start, and the start is complete
    obtain ⟨hruns, hmark, hmark'⟩ := runs_of_sat htranA hA
    have hxmem : latchX ∈ latchCheck.refineA.coi.data.states := List.mem_cons_self
    have hzmem : latchZ ∈ latchCheck.refineA.coi.data.states := List.mem_cons_of_mem _ List.mem_cons_self
    have hrel : ∀ s, M.Sat (getExpr z3 s latchCheck.relation) ↔ (frame M s).Holds (.var latchZ) := by
      intro s
      rw [sat_getExpr latchCheck.relation_check, show latchCheck.relation = (Expr.boolConst true).and (.var latchZ) from rfl,
        Expr.holds_and, and_iff_right Expr.holds_boolConst_true]
    obtain ⟨hx, hz⟩ := latch_orig_step (h := rfl) hruns.flushed Nat.one_pos
    have hone := hmark 1 le_rfl (latchCheck_completes.mpr (.inl hx))
    have hzorg := (hrel "org").mp hassm
    have hstart := hmark 0 (Nat.zero_le 1)
      (latchCheck_completes.mpr (.inr (hz.mp ((holds_var_of_sameOn hone hzmem).mp hzorg))))
    have hxstart := (holds_var_of_sameOn hstart hxmem).mp ((holds_var_of_sameOn hone hxmem).mpr hx)
    -- the applied step copies `x`
    obtain ⟨hx', hz'⟩ := latch_appl_step (h := rfl) hruns.applied
    have hapl := hmark' 1 le_rfl le_rfl (latchCheck_completes.mpr (.inl hx'))
    exact (hrel "apl").mpr ((holds_var_of_sameOn hapl hzmem).mpr (hz'.mpr hxstart))

/-- The latch with `z` set but not `x` is complete at once, and related. After the instruction it is not
related, which is not seen. -/
theorem eqCheck_misses_execution : ¬∀ (z3 : Z3) (o : Oracle) (fresh : Nat) (crr : CompRefRel) (max : Int),
    crr.DistinctNames fresh → eqCheck z3 o fresh crr max = some true →
      ∃ kOrigA kApplA kOrigB kApplB, StepCounts z3 o fresh crr max kOrigA kApplA kOrigB kApplB ∧
        Commutes crr kOrigA kApplA kOrigB kApplB := by
  intro hall
  obtain ⟨kOrigA, kApplA, kOrigB, kApplB, hsteps, hcomm⟩ :=
    hall default default 9 latchCheck 10 latchCheck_names (eqCheck_latchCheck _ _)
  have hrel := hcomm (latchOrig false true) (latchAppl false true) idleOrig idleAppl rfl (latch_runs _ rfl false true _ _)
    (idle_runs _ _) 0 (Nat.zero_le _) 0 (Nat.zero_le _) (latchCheck_completes.mpr (.inr ((bits_holds rfl).mpr (by decide))))
    rfl (latchCheck_related.mpr ((bits_holds rfl).mpr (by decide))) 1 1 le_rfl (by omega) le_rfl (by omega)
    (latchCheck_completes.mpr (.inl ((bits_holds rfl).mpr (by decide)))) rfl
  have hz := (bits_holds rfl).mp (latchCheck_related.mp hrel)
  exact absurd hz (by decide)

theorem oneState_of_done {r : RefinementMap} {max : Int} (horig : OrigDone r 0) (happl : ApplDone r 0)
    (hstepO : r.stepOrig ≤ 0) (hstepA : r.stepAppl ≤ 0) : OneState r max := by
  refine ⟨fun k hk orig appl _ i hi j hj _ _ => ?_, fun k hk orig appl _ i h1 hi j h1' hj _ _ => ?_⟩
  · have hzero : k = 0 := by
      by_contra hne
      exact hk.first 0 (by omega) (by omega) horig
    obtain rfl : i = j := by omega
    exact fun v _ => rfl
  · have hzero : k = 0 := by
      by_contra hne
      exact hk.first 0 (by omega) (by omega) happl
    obtain rfl : i = j := by omega
    exact fun v _ => rfl

/-- The same two models where completion is immediate, related when `x` is set. -/
def latchNow : CompRefRel where
  refineA := latch (.boolConst true) rfl
  refineB := idler
  relation := (Expr.boolConst true).and (.var latchX)
  relation_check := rfl

theorem latchNow_names : latchNow.DistinctNames 9 := by
  refine ⟨by decide, by decide, by decide⟩

theorem latchNow_done (k : Nat) : OrigDone latchNow.refineA k ∧ ApplDone latchNow.refineA k :=
  ⟨fun _ _ _ => ⟨0, Nat.zero_le k, rfl⟩, fun _ _ _ => ⟨1, le_rfl, by omega, rfl⟩⟩

theorem latchNow_counts (z3 : Z3) (o : Oracle) : StepCounts z3 o 9 latchNow 10 0 0 0 0 := by
  refine ⟨?_, ?_, ?_, ?_⟩
  · refine detStep_eq (n := 0) (m := 11) (k := 0) le_rfl (by decide) (fun j _ hj => by omega) ?_
    exact checkStepOrig_eq latchNow_names.refineA latch_unrollable (latch_runs _ rfl true true 0 0).flushed
      (iff_of_true rfl (latchNow_done 0).1)
  · refine detStep_eq (n := 0) (m := 11) (k := 0) le_rfl (by decide) (fun j _ hj => by omega) ?_
    exact checkStepAppl_eq latchNow_names.refineA latch_unrollable (iff_of_true rfl (latchNow_done 0).2)
  · refine detStep_eq (n := 0) (m := 11) (k := 0) le_rfl (by decide) (fun j _ hj => by omega) ?_
    exact checkStepOrig_eq latchNow_names.refineB idle_unrollable (idle_runs 0 0).flushed (iff_of_true rfl (idle_done 0).1)
  · refine detStep_eq (n := 0) (m := 11) (k := 0) le_rfl (by decide) (fun j _ hj => by omega) ?_
    exact checkStepAppl_eq latchNow_names.refineB idle_unrollable (iff_of_true rfl (idle_done 0).2)

theorem eqCheck_latchNow (z3 : Z3) (o : Oracle) : eqCheck z3 o 9 latchNow 10 = some true := by
  obtain ⟨tranA, htranA⟩ := exists_genTranRel z3 (r := latchNow.refineA) latch_unrollable 0 0
  obtain ⟨tranB, htranB⟩ := exists_genTranRel z3 (r := latchNow.refineB) idle_unrollable 0 0
  refine eqCheck_of_counts (latchNow_counts z3 o) htranA htranB ?_ fun M hA hB hassm => ?_
  · obtain ⟨M, hA, hB, -⟩ := exists_sat_query latchNow_names htranA htranB
      (show idleOrig.func = (latchOrig true true).func from rfl)
      (latch_runs _ rfl true true 0 0) (idle_runs 0 0) (fun l _ _ => latch_still 0 l) (fun l _ _ => idle_still 0 l)
      (fun l _ _ _ => latch_still' 0 l) fun l _ _ _ => idle_still' 0 l
    exact ⟨M, hA, hB⟩
  · obtain ⟨hruns, -, hmark'⟩ := runs_of_sat htranA hA
    have hapl := hmark' 1 le_rfl le_rfl rfl
    rw [sat_getExpr latchNow.relation_check, show latchNow.relation = (Expr.boolConst true).and (.var latchX) from rfl,
      Expr.holds_and, and_iff_right Expr.holds_boolConst_true]
    exact (holds_var_of_sameOn hapl List.mem_cons_self).mpr (latch_appl_step (h := rfl) hruns.applied).1

theorem eqCheck_commutes_latchNow : ∃ kOrigA kApplA kOrigB kApplB,
    StepCounts default default 9 latchNow 10 kOrigA kApplA kOrigB kApplB ∧ Commutes latchNow kOrigA kApplA kOrigB kApplB :=
  eqCheck_commutes_of_oneState latchNow_names
    (oneState_of_done (latchNow_done 0).1 (latchNow_done 0).2 (by decide) (by decide))
    (oneState_of_done (idle_done 0).1 (idle_done 0).2 (by decide) (by decide)) (eqCheck_latchNow _ _)

/-! ### One completion point

`CheckStepOrig` and `CheckStepAppl` ask whether a path can fail to complete, and whether it can complete twice. The
solver keeps the first question when the second is asked, so the answer to the second is always no. -/

/-- No flushed path completes twice. -/
def OrigUnique (r : RefinementMap) (k : Nat) : Prop :=
  ∀ orig appl, OrigPath r orig appl k → ∀ i ≤ k, ∀ j ≤ k, r.Completes orig i → r.Completes orig j → i = j

def ApplUnique (r : RefinementMap) (k : Nat) : Prop :=
  ∀ orig appl, ApplPath r orig appl k → ∀ i, 1 ≤ i → i ≤ k + 1 → ∀ j, 1 ≤ j → j ≤ k + 1 →
    r.Completes appl i → r.Completes appl j → i = j

/-- `CheckStepOrig` answers, and says whether every path completes once and only once. -/
def OrigExact (z3 : Z3) (o : Oracle) (fresh : Nat) (r : RefinementMap) (k : Nat) : Prop :=
  ∃ b, checkStepOrig z3 o fresh r k = some b ∧ (b = true ↔ OrigDone r k ∧ OrigUnique r k)

def ApplExact (z3 : Z3) (o : Oracle) (fresh : Nat) (r : RefinementMap) (k : Nat) : Prop :=
  ∃ b, checkStepAppl z3 o fresh r k = some b ∧ (b = true ↔ ApplDone r k ∧ ApplUnique r k)

theorem exact_iff_imp {b : Bool} {P Q : Prop} (h : b = true ↔ P) : (b = true ↔ P ∧ Q) ↔ (P → Q) := by
  rw [h]
  constructor
  · intro hiff hP
    exact (hiff.mp hP).2
  · intro himp
    exact ⟨fun hP => ⟨hP, himp hP⟩, fun hPQ => hPQ.1⟩

theorem exists_origPath {z3 : Z3} {o : Oracle} {fresh : Nat} {r : RefinementMap} {k : Nat} {b : Bool}
    (h : checkStepOrig z3 o fresh r k = some b) : ∃ orig appl, OrigPath r orig appl k := by
  simp only [checkStepOrig, Option.bind_eq_some_iff, Option.ite_none_right_eq_some] at h
  obtain ⟨tran, htran, hlive, -⟩ := h
  rw [Solver.check, o.sat_iff] at hlive
  obtain ⟨M, hM⟩ := hlive
  rw [Solver.assertions_add, Solver.assertions_new, List.nil_append, List.forall_mem_singleton, Term.sat_conj,
    sat_origTran htran] at hM
  obtain ⟨hflush, hkeeps⟩ := hM.2.flushes (MonoUnroll.accepted_of_monoAssn htran)
  exact ⟨_, _, starts_of_sat hM.1, hflush, hkeeps⟩

/-- The two checks are exact if and only if there is a path to check, for the flushed path, and completion of every path
within the steps excludes a second completion. -/
theorem checkStep_exact_iff (z3 : Z3) (o : Oracle) (fresh : Nat) (r : RefinementMap) (k : Nat)
    (hnames : r.DistinctNames fresh) (hunroll : MonoUnroll.Unrollable fresh r.coi) :
    (OrigExact z3 o fresh r k ∧ ApplExact z3 o fresh r k) ↔
      (∃ orig appl, OrigPath r orig appl k) ∧ (OrigDone r k → OrigUnique r k) ∧ (ApplDone r k → ApplUnique r k) := by
  classical
  have horig : OrigExact z3 o fresh r k ↔ (∃ orig appl, OrigPath r orig appl k) ∧ (OrigDone r k → OrigUnique r k) := by
    constructor
    · rintro ⟨b, hb, hexact⟩
      exact ⟨exists_origPath hb, (exact_iff_imp (checkStepOrig_iff hnames hb)).mp hexact⟩
    · rintro ⟨⟨orig, appl, hpath⟩, himp⟩
      have hdone : decide (OrigDone r k) = true ↔ OrigDone r k := decide_eq_true_iff
      exact ⟨_, checkStepOrig_eq hnames hunroll hpath hdone, (exact_iff_imp hdone).mpr himp⟩
  have happl : ApplExact z3 o fresh r k ↔ (ApplDone r k → ApplUnique r k) := by
    constructor
    · rintro ⟨b, hb, hexact⟩
      exact (exact_iff_imp (checkStepAppl_iff hnames hb)).mp hexact
    · intro himp
      have hdone : decide (ApplDone r k) = true ↔ ApplDone r k := decide_eq_true_iff
      exact ⟨_, checkStepAppl_eq hnames hunroll hdone, (exact_iff_imp hdone).mpr himp⟩
  rw [horig, happl, and_assoc]

theorem latchZ_names : (latch (.var latchZ) rfl).DistinctNames 9 := by
  refine ⟨by decide, by decide, by decide⟩

/-- A latch that is complete when `z` is set need not complete within three frames, and both checks say so. -/
theorem checkStep_exact_latchZ : OrigExact default default 9 (latch (.var latchZ) rfl) 2 ∧
    ApplExact default default 9 (latch (.var latchZ) rfl) 2 := by
  have hruns := latch_runs (.var latchZ) rfl false false 2 2
  refine (checkStep_exact_iff default default 9 (latch (.var latchZ) rfl) 2 latchZ_names latch_unrollable).mpr
    ⟨⟨_, _, hruns.flushed⟩, fun hdone => ?_, fun hdone => ?_⟩
  · obtain ⟨i, -, hz⟩ := hdone _ _ hruns.flushed
    exact absurd ((bits_holds rfl).mp hz) (by simp [latchZ, latchX])
  · obtain ⟨i, hi, -, hz⟩ := hdone _ _ hruns.applied
    exact absurd ((bits_holds rfl).mp hz) (by simp [latchZ, latchX, Nat.ne_of_gt hi])

/-- A latch that is complete in every frame completes twice within one step, and passes. -/
theorem checkStepOrig_passes_twice :
    checkStepOrig default default 9 latchNow.refineA 1 = some true ∧ ¬OrigUnique latchNow.refineA 1 ∧
      ¬OrigExact default default 9 latchNow.refineA 1 := by
  have hpass : checkStepOrig default default 9 latchNow.refineA 1 = some true :=
    checkStepOrig_eq latchNow_names.refineA latch_unrollable (latch_runs _ rfl true true 1 0).flushed
      (iff_of_true rfl (latchNow_done 1).1)
  have htwice : ¬OrigUnique latchNow.refineA 1 := by
    intro hunique
    have hpath := (latch_runs (.boolConst true) rfl true true 1 0).flushed
    exact absurd (hunique _ _ hpath 0 (Nat.zero_le 1) 1 le_rfl rfl rfl) (by decide)
  refine ⟨hpass, htwice, ?_⟩
  rintro ⟨b, hb, hexact⟩
  obtain rfl : true = b := Option.some.inj (hpass.symm.trans hb)
  exact htwice (hexact.mp rfl).2

end CommDiag

end Ilang
