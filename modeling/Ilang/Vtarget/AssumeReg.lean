import Ilang.Util.Clocked
import Mathlib.Data.Set.Insert

/-!
# Assumptions in a register

A back end without assumptions still has to check a property under them. `PreExportProcess` adds a register that is set
when an assumption is violated, and weakens the property: it holds once an assumption has been violated. The other back
ends get the assumptions and the assertions as such.

A reset clears the register, so the weakened property forgets what happened before the reset and in the cycle of the
reset. The temporal meaning of an assumption does not.
-/

namespace Ilang

/-- The assumptions and the assertions by their description. An entry is the text of an expression, and of an assertion
the name of a wire. -/
structure YosysProblem where
  assumptions : List (String × List String)
  assertions : List (String × List String)

/-- A conjunction as it is pasted together. The parts are in parentheses, or names. -/
inductive WireExpr where
  | part (text : String)
  | and (l : WireExpr) (text : String)

def WireExpr.eval (val : String → Bool) : WireExpr → Bool
  | .part text => val text
  | .and l text => l.eval val && val text

/-- The content of a wire, which is empty at first. -/
def wireContent (entries : List (String × List String)) : Option WireExpr :=
  (entries.flatMap Prod.snd).foldl (fun content p =>
    match content with
    | none => some (.part p)
    | some c => some (.and c p)) none

inductive YosysBackend where
  | chc | abcpdr | other
  deriving DecidableEq, Repr

/-- `AbcAssumptionStyle`. -/
inductive AbcAssumptionStyle where
  | assumptionRegister | aigMiterExtraOutput
  deriving DecidableEq, Repr

structure YosysCfg where
  backend : YosysBackend
  abcUseAiger : Bool
  abcUseGla : Bool
  abcAssumptionStyle : AbcAssumptionStyle

/-- What is emitted: the assertion alone, the assertion and the assumption, or the weakened assertion with its register. -/
inductive YosysTarget where
  | assertOnly (asserted : WireExpr)
  | assume (asserted assumed : WireExpr)
  | register (asserted assumed : WireExpr)

/-- `VlgSglTgtGen_Yosys::PreExportProcess`. There is no result where a check fails. -/
def preExportProcess (cfg : YosysCfg) (pb : YosysProblem) : Option YosysTarget :=
  (wireContent pb.assertions).bind fun asserted =>
    match cfg.backend, wireContent pb.assumptions with
    | _, none => some (.assertOnly asserted)
    | .abcpdr, some assumed =>
      match cfg.abcAssumptionStyle with
      | .aigMiterExtraOutput => if cfg.abcUseAiger && !cfg.abcUseGla then some (.assume asserted assumed) else none
      | .assumptionRegister => some (.register asserted assumed)
    | _, some assumed => some (.assume asserted assumed)

/-! ### Traces -/

/-- The reset and the values of the expressions in a cycle. -/
structure WrapperCycle where
  rst : Bool
  val : String → Bool

/-- The next value of `__all_assumed_reg__`. -/
def assumedRegStep (assumed : WireExpr) (reg : Bool) (i : WrapperCycle) : Bool :=
  if i.rst then false else if !assumed.eval i.val then true else reg

/-- `__all_assumed_reg__` in every cycle. -/
def assumedReg (assumed : WireExpr) (reg : Bool) (tr : Nat → WrapperCycle) : Nat → Bool :=
  Clocked.run (assumedRegStep assumed) reg tr

namespace YosysTarget

/-- The asserted property in a cycle, from a value of the register in the first one. -/
def property (target : YosysTarget) (reg : Bool) (tr : Nat → WrapperCycle) (t : Nat) : Bool :=
  match target with
  | .assertOnly asserted | .assume asserted _ => asserted.eval (tr t).val
  | .register asserted assumed =>
    !(assumed.eval (tr t).val && !assumedReg assumed reg tr t) || asserted.eval (tr t).val

/-- The assumed property in a cycle. -/
def assumption (target : YosysTarget) (tr : Nat → WrapperCycle) (t : Nat) : Bool :=
  match target with
  | .assertOnly _ | .register .. => true
  | .assume _ assumed => assumed.eval (tr t).val

/-- A trace that violates the property, and no assumption up to there. -/
def HasCex (target : YosysTarget) (design : Set (Nat → WrapperCycle)) : Prop :=
  ∃ tr ∈ design, ∃ reg t, (∀ s ≤ t, target.assumption tr s = true) ∧ target.property reg tr t = false

end YosysTarget

/-! ### The conjunctions -/

theorem eval_wireContent {entries : List (String × List String)} {c : WireExpr} (h : wireContent entries = some c)
    (val : String → Bool) : c.eval val = true ↔ ∀ p ∈ entries.flatMap Prod.snd, val p = true := by
  have hfold : ∀ (l : List String) (content : Option WireExpr), l.foldl (fun content p =>
      match content with
      | none => some (.part p)
      | some c => some (.and c p)) content = some c →
      (c.eval val = true ↔ (∀ c' ∈ content, c'.eval val = true) ∧ ∀ p ∈ l, val p = true) := by
    intro l
    induction l with
    | nil =>
      intro content hc
      rw [List.foldl_nil] at hc
      simp [hc]
    | cons p l ih =>
      intro content hc
      rw [List.foldl_cons] at hc
      rw [ih _ hc]
      cases content with
      | none => simp [WireExpr.eval]
      | some c' => simp [WireExpr.eval, and_assoc]
  simpa using hfold _ none h

/-- All assumptions hold in a cycle. -/
def YosysProblem.Assumed (pb : YosysProblem) (i : WrapperCycle) : Prop :=
  ∀ p ∈ pb.assumptions.flatMap Prod.snd, i.val p = true

def YosysProblem.Asserted (pb : YosysProblem) (i : WrapperCycle) : Prop :=
  ∀ p ∈ pb.assertions.flatMap Prod.snd, i.val p = true

/-! ### The register -/

variable {assumed : WireExpr} {reg : Bool} {tr : Nat → WrapperCycle} {r t : Nat}

theorem assumedReg_sticky (hr : (tr r).rst = true) (hno : ∀ u, r < u → u < t → (tr u).rst = false) :
    Clocked.Sticky (assumedReg assumed reg tr) (fun u => !assumed.eval (tr u).val) (r + 1) t := by
  refine ⟨?_, fun u hu hut => ?_⟩
  · rw [assumedReg, Clocked.run_succ, assumedRegStep, if_pos hr]
  · rw [assumedReg, Clocked.run_succ, assumedRegStep, hno u hu hut]
    cases hval : assumed.eval (tr u).val <;> simp [hval]

theorem assumedReg_eq_false_iff (hrt : r < t) (hr : (tr r).rst = true) (hno : ∀ u, r < u → u < t → (tr u).rst = false) :
    assumedReg assumed reg tr t = false ↔ ∀ s, r < s → s < t → assumed.eval (tr s).val = true := by
  rw [← Bool.not_eq_true, (assumedReg_sticky hr hno).iff hrt]
  push Not
  simp only [Nat.succ_le_iff, ne_eq, Bool.not_eq_eq_eq_not, Bool.not_true, Bool.not_eq_false]

theorem exists_last_reset (h0 : (tr 0).rst = true) (ht : 0 < t) :
    ∃ r, r < t ∧ (tr r).rst = true ∧ ∀ u, r < u → u < t → (tr u).rst = false := by
  induction t with
  | zero => cases ht
  | succ t ih =>
    cases hrst : (tr t).rst with
    | true => exact ⟨t, Nat.lt_succ_self t, hrst, fun u hu hut => by omega⟩
    | false =>
      have hpos : 0 < t := Nat.pos_of_ne_zero fun hzero => by
        subst hzero
        rw [h0] at hrst
        cases hrst
      obtain ⟨r, hr, hrrst, hno⟩ := ih hpos
      refine ⟨r, Nat.lt_succ_of_lt hr, hrrst, fun u hu hut => ?_⟩
      rcases Nat.lt_succ_iff_lt_or_eq.mp hut with hut | rfl
      · exact hno u hu hut
      · exact hrst

/-- The cycles since the last reset before a cycle, without the cycle of the reset. -/
def SinceReset (tr : Nat → WrapperCycle) (t s : Nat) : Prop :=
  s < t ∧ ∃ r < s, (tr r).rst = true ∧ ∀ u, r < u → u < t → (tr u).rst = false

theorem assumedReg_eq_false_iff_since (h0 : (tr 0).rst = true) (ht : 0 < t) :
    assumedReg assumed reg tr t = false ↔ ∀ s, SinceReset tr t s → assumed.eval (tr s).val = true := by
  obtain ⟨r, hrt, hr, hno⟩ := exists_last_reset h0 ht
  rw [assumedReg_eq_false_iff hrt hr hno]
  constructor
  · rintro h s ⟨hst, r', hrs, hr', hno'⟩
    -- There is no reset after either of the two.
    have hsame : r' = r := by
      rcases Nat.lt_trichotomy r' r with hlt | heq | hgt
      · rw [hno' r hlt hrt] at hr
        cases hr
      · exact heq
      · rw [hno r' hgt (Nat.lt_trans hrs hst)] at hr'
        cases hr'
    exact h s (hsame ▸ hrs) hst
  · exact fun h s hrs hst => h s ⟨hst, r, hrs, hr, hno⟩

/-! ### The targets -/

variable {cfg : YosysCfg} {pb : YosysProblem}

theorem preExportProcess_register (hbackend : cfg.backend = .abcpdr) (hstyle : cfg.abcAssumptionStyle = .assumptionRegister)
    {target : YosysTarget} (h : preExportProcess cfg pb = some target) :
    ∃ asserted, wireContent pb.assertions = some asserted ∧
      ((wireContent pb.assumptions = none ∧ target = .assertOnly asserted) ∨
        ∃ assumed, wireContent pb.assumptions = some assumed ∧ target = .register asserted assumed) := by
  obtain ⟨asserted, hasserted, hrest⟩ := Option.bind_eq_some_iff.mp h
  refine ⟨asserted, hasserted, ?_⟩
  cases hassumed : wireContent pb.assumptions with
  | none =>
    rw [hassumed] at hrest
    exact .inl ⟨rfl, (Option.some.inj (by simpa using hrest)).symm⟩
  | some assumed =>
    rw [hassumed, hbackend, hstyle] at hrest
    exact .inr ⟨assumed, rfl, (Option.some.inj hrest).symm⟩

theorem preExportProcess_chc (hbackend : cfg.backend = .chc) {target : YosysTarget}
    (h : preExportProcess cfg pb = some target) :
    ∃ asserted, wireContent pb.assertions = some asserted ∧
      ((wireContent pb.assumptions = none ∧ target = .assertOnly asserted) ∨
        ∃ assumed, wireContent pb.assumptions = some assumed ∧ target = .assume asserted assumed) := by
  obtain ⟨asserted, hasserted, hrest⟩ := Option.bind_eq_some_iff.mp h
  refine ⟨asserted, hasserted, ?_⟩
  cases hassumed : wireContent pb.assumptions with
  | none =>
    rw [hassumed] at hrest
    exact .inl ⟨rfl, (Option.some.inj (by simpa using hrest)).symm⟩
  | some assumed =>
    rw [hassumed, hbackend] at hrest
    exact .inr ⟨assumed, rfl, (Option.some.inj hrest).symm⟩

theorem assumed_of_wireContent_none (h : wireContent pb.assumptions = none) (i : WrapperCycle) : pb.Assumed i := by
  have hempty : ∀ (l : List String) (c : Option WireExpr), l.foldl (fun content p =>
      match content with
      | none => some (.part p)
      | some c => some (.and c p)) c = none → l = [] := by
    intro l
    induction l with
    | nil => exact fun _ _ => rfl
    | cons p l ih =>
      intro c hc
      rw [List.foldl_cons] at hc
      obtain rfl := ih _ hc
      cases c <;> cases hc
  rw [YosysProblem.Assumed, hempty _ none h]
  simp

theorem property_register {target : YosysTarget} (hbackend : cfg.backend = .abcpdr)
    (hstyle : cfg.abcAssumptionStyle = .assumptionRegister) (h : preExportProcess cfg pb = some target) :
    target.property reg tr t = false ↔ pb.Assumed (tr t) ∧
      (∀ assumed, wireContent pb.assumptions = some assumed → assumedReg assumed reg tr t = false) ∧
      ¬ pb.Asserted (tr t) := by
  obtain ⟨asserted, hasserted, ⟨hnone, rfl⟩ | ⟨assumed, hassumed, rfl⟩⟩ := preExportProcess_register hbackend hstyle h
  · rw [YosysTarget.property, YosysProblem.Asserted, ← eval_wireContent hasserted, hnone]
    simp [assumed_of_wireContent_none hnone]
  · rw [YosysTarget.property, YosysProblem.Asserted, YosysProblem.Assumed, ← eval_wireContent hasserted,
      ← eval_wireContent hassumed, hassumed]
    simp [and_assoc]

theorem cex_chc {target : YosysTarget} (hbackend : cfg.backend = .chc) (h : preExportProcess cfg pb = some target) :
    ((∀ s ≤ t, target.assumption tr s = true) ∧ target.property reg tr t = false) ↔
      (∀ s ≤ t, pb.Assumed (tr s)) ∧ ¬ pb.Asserted (tr t) := by
  obtain ⟨asserted, hasserted, ⟨hnone, rfl⟩ | ⟨assumed, hassumed, rfl⟩⟩ := preExportProcess_chc hbackend h
  · simp only [YosysTarget.property, YosysTarget.assumption, YosysProblem.Asserted, ← eval_wireContent hasserted]
    simp [assumed_of_wireContent_none hnone]
  · simp only [YosysTarget.property, YosysTarget.assumption, YosysProblem.Asserted, YosysProblem.Assumed,
      ← eval_wireContent hasserted, ← eval_wireContent hassumed]
    simp

theorem assumption_register {target : YosysTarget} (hbackend : cfg.backend = .abcpdr)
    (hstyle : cfg.abcAssumptionStyle = .assumptionRegister) (h : preExportProcess cfg pb = some target) (s : Nat) :
    target.assumption tr s = true := by
  obtain ⟨asserted, -, ⟨-, rfl⟩ | ⟨assumed, -, rfl⟩⟩ := preExportProcess_register hbackend hstyle h
  · rfl
  · rfl

theorem assumedReg_since (h0 : (tr 0).rst = true) (ht : 0 < t) :
    (∀ assumed, wireContent pb.assumptions = some assumed → assumedReg assumed reg tr t = false) ↔
      ∀ s, SinceReset tr t s → pb.Assumed (tr s) := by
  cases hassumed : wireContent pb.assumptions with
  | none => simpa using fun s _ => assumed_of_wireContent_none hassumed (tr s)
  | some assumed =>
    simp only [Option.some.injEq, forall_eq', assumedReg_eq_false_iff_since h0 ht, YosysProblem.Assumed,
      ← eval_wireContent hassumed]

/-- The register target is violated in a cycle after the first one if and only if the assumptions hold in the cycle and in
every cycle after the last reset before it, and an assertion does not hold in the cycle. It has a counterexample if and only
if the target with assumptions has one, among traces in which no assumption is violated up to a reset. -/
theorem assumption_register_exact (cfg : YosysCfg) (pb : YosysProblem) (target chc : YosysTarget)
    (hbackend : cfg.backend = .abcpdr) (hstyle : cfg.abcAssumptionStyle = .assumptionRegister)
    (h : preExportProcess cfg pb = some target) (hchc : preExportProcess { cfg with backend := .chc } pb = some chc) :
    (∀ reg tr t, (tr 0).rst = true → 0 < t → (target.property reg tr t = false ↔
      pb.Assumed (tr t) ∧ (∀ s, SinceReset tr t s → pb.Assumed (tr s)) ∧ ¬ pb.Asserted (tr t))) ∧
    ∀ design : Set (Nat → WrapperCycle), (∀ tr ∈ design, (tr 0).rst = true) →
      (∀ tr ∈ design, ∀ r, (tr r).rst = true → ∀ s ≤ r, pb.Assumed (tr s)) →
      (target.HasCex design ↔ chc.HasCex design) := by
  have hprop : ∀ reg tr t, (tr 0).rst = true → 0 < t → (target.property reg tr t = false ↔
      pb.Assumed (tr t) ∧ (∀ s, SinceReset tr t s → pb.Assumed (tr s)) ∧ ¬ pb.Asserted (tr t)) := by
    intro reg tr t h0 ht
    rw [property_register hbackend hstyle h, assumedReg_since h0 ht]
  refine ⟨hprop, fun design hreset hup => ⟨?_, ?_⟩⟩
  · rintro ⟨tr, htr, reg, t, -, hviol⟩
    refine ⟨tr, htr, reg, t, (cex_chc rfl hchc).mpr ?_⟩
    rcases Nat.eq_zero_or_pos t with rfl | ht
    · obtain ⟨hassumed, -, hasserted⟩ := (property_register hbackend hstyle h).mp hviol
      exact ⟨fun s hs => by rw [Nat.le_zero.mp hs]; exact hassumed, hasserted⟩
    · obtain ⟨hassumed, hsince, hasserted⟩ := (hprop reg tr t (hreset tr htr) ht).mp hviol
      refine ⟨fun s hs => ?_, hasserted⟩
      obtain ⟨r, hrt, hr, hno⟩ := exists_last_reset (hreset tr htr) ht
      rcases Nat.lt_or_eq_of_le hs with hs | rfl
      · rcases Nat.lt_or_ge r s with hrs | hsr
        · exact hsince s ⟨hs, r, hrs, hr, hno⟩
        · exact hup tr htr r hr s hsr
      · exact hassumed
  · rintro ⟨tr, htr, reg, t, hcex⟩
    obtain ⟨hassumed, hasserted⟩ := (cex_chc rfl hchc).mp hcex
    refine ⟨tr, htr, false, t, fun s _ => assumption_register hbackend hstyle h s, ?_⟩
    rcases Nat.eq_zero_or_pos t with rfl | ht
    · exact (property_register hbackend hstyle h).mpr ⟨hassumed 0 (Nat.le_refl 0), fun _ _ => rfl, hasserted⟩
    · exact (hprop false tr t (hreset tr htr) ht).mpr
        ⟨hassumed t (Nat.le_refl t), fun s hs => hassumed s (Nat.le_of_lt hs.1), hasserted⟩

/-- The register style of the ABC target. -/
def abcRegisterCfg : YosysCfg := ⟨.abcpdr, true, false, .assumptionRegister⟩

/-- One assertion under one assumption. -/
def plainProblem : YosysProblem := ⟨[("a", ["a_wire"])], [("p", ["p_wire"])]⟩

/-- One cycle of reset. The assumption always holds, and the assertion never does. -/
def plainTrace (t : Nat) : WrapperCycle := ⟨t == 0, fun text => text == "a_wire"⟩

theorem assumption_register_exact_plain :
    (YosysTarget.register (.part "p_wire") (.part "a_wire")).HasCex {plainTrace} ↔
      (YosysTarget.assume (.part "p_wire") (.part "a_wire")).HasCex {plainTrace} :=
  (assumption_register_exact abcRegisterCfg plainProblem _ _ rfl rfl rfl rfl).2 {plainTrace}
    (fun tr htr => by rw [Set.mem_singleton_iff.mp htr]; rfl)
    fun tr htr r _ s _ => by
      rw [Set.mem_singleton_iff.mp htr]
      simp [YosysProblem.Assumed, plainProblem, plainTrace]

/-- One assertion, under the assumption that there is no reset. -/
def noResetProblem : YosysProblem := ⟨[("noreset", ["rst == 0"])], [("p", ["p_wire"])]⟩

/-- One cycle of reset, and an assertion that never holds. -/
def resetTrace (t : Nat) : WrapperCycle := ⟨t == 0, fun text => text == "rst == 0" && t != 0⟩

/-- The assumption is violated in the cycle of the reset. The register forgets it, and the assumption of the other target
does not. -/
theorem register_forgets_reset : ¬ ∀ (cfg : YosysCfg) (pb : YosysProblem) (target chc : YosysTarget),
    cfg.backend = .abcpdr → cfg.abcAssumptionStyle = .assumptionRegister → preExportProcess cfg pb = some target →
    preExportProcess { cfg with backend := .chc } pb = some chc → ∀ design : Set (Nat → WrapperCycle),
      (∀ tr ∈ design, (tr 0).rst = true) → (target.HasCex design ↔ chc.HasCex design) := by
  intro h
  have hiff := h abcRegisterCfg noResetProblem _ _ rfl rfl rfl rfl {resetTrace} fun tr htr => by
    rw [Set.mem_singleton_iff.mp htr]
    rfl
  have hcex : (YosysTarget.register (.part "p_wire") (.part "rst == 0")).HasCex {resetTrace} :=
    ⟨resetTrace, rfl, false, 1, fun _ _ => rfl, by decide⟩
  obtain ⟨tr, rfl, reg, t, hassumed, -⟩ := hiff.mp hcex
  have hzero := hassumed 0 (Nat.zero_le t)
  exact absurd hzero (by decide)

end Ilang
