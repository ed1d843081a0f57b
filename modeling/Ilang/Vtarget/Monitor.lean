import Ilang.Util.Clocked
import Mathlib.Data.Nat.Log
import Mathlib.Order.Interval.Finset.Nat

/-!
# The monitor of the verification wrapper

The wrapper around a design and its instruction starts the instruction once after the reset, counts the cycles from there,
and compares the states when the instruction has ended. Its registers and wires are emitted as text by
`ConstructWrapper_add_cycle_count_moniter` and `ConstructWrapper_add_condition_signals`; what the text depends on is
`MonitorCfg`. The conditions of the refinement map are arbitrary expressions, so only their values in a cycle are inputs.

A register that has not been reset can have any value, so nothing is said about the cycles before the end of the reset.
-/

namespace Ilang

/-- What the text of the monitor depends on. The generator refuses flushing without an issue stage. -/
structure MonitorCfg where
  /-- All of the three flushing fields are there. -/
  hasFlush : Bool
  /-- `VerificationSettingAvoidIssueStage`. -/
  avoidIssueStage : Bool
  /-- `ForceInstCheckReset`. -/
  forceInstCheckReset : Bool
  /-- The field "ready signal" is there. -/
  readySignal : Bool
  /-- The field "ready bound", if it is an integer. -/
  readyBound : Option Int
  /-- The field "max bound", if it is an integer. -/
  maxBoundField : Option Int
  /-- `MaxBound` of the configuration, an unsigned number. -/
  maxBoundDefault : Nat
  flush_issues : ¬ (hasFlush = true ∧ avoidIssueStage = true)

/-- A number as an `unsigned` of 32 bits. -/
def toUnsigned (n : Int) : Nat := (n % 2 ^ 32).toNat

namespace MonitorCfg

/-- `max_bound`. -/
def maxBound (cfg : MonitorCfg) : Nat :=
  match cfg.readyBound with
  | some b => toUnsigned b
  | none => cfg.maxBoundDefault % 2 ^ 32

/-- `cnt_width`: the rounded-up logarithm of `max_bound + 10`. -/
def cntWidth (cfg : MonitorCfg) : Nat := Nat.clog 2 ((cfg.maxBound + 10) % 2 ^ 32)

/-- The number that `IntToStr(max_bound + 5)` stands for in a comparison with a register. A negative number is read as
unsigned there. -/
def saturation (cfg : MonitorCfg) : Nat := (cfg.maxBound + 5) % 2 ^ 32

end MonitorCfg

/-- The values of the conditions in a cycle. -/
structure MonitorInp where
  rst : Bool
  /-- The disjunction of the ready signals. -/
  readySignal : Bool
  preFlushEnd : Bool
  postFlushEnd : Bool
  /-- `__ISSUE__` where it is an input. -/
  issue : Bool

/-- The registers. -/
structure Monitor where
  cycleCnt : Nat
  start : Bool
  started : Bool
  ended : Bool
  secondEnded : Bool
  reseted : Bool
  flushEnded : Bool

namespace Monitor

variable (cfg : MonitorCfg)

/-! ### Wires -/

/-- `iend_cond`. A ready bound that is not positive is reported and left out. -/
def iendCond (s : Monitor) (i : MonitorInp) : Bool :=
  (cfg.readySignal && i.readySignal) ||
    match cfg.readyBound with
    | some b => decide (0 < b) && s.cycleCnt == b.toNat % 2 ^ cfg.cntWidth
    | none => false

/-- `__EDCOND__`. -/
def edCond (s : Monitor) (i : MonitorInp) : Bool := s.iendCond cfg i && s.started

/-- `__IEND__`. -/
def iend (s : Monitor) (i : MonitorInp) : Bool :=
  s.iendCond cfg i && s.started && s.reseted && (if cfg.hasFlush then !s.flushEnded else !s.ended) &&
    match cfg.maxBoundField with
    | some b => decide (s.cycleCnt ≤ toUnsigned b)
    | none => true

/-- `__ISSUE__`. -/
def issue (s : Monitor) (i : MonitorInp) : Bool :=
  if cfg.hasFlush then i.preFlushEnd && s.reseted else if cfg.forceInstCheckReset then i.issue else true

/-- `__ISSUE__` after a reset. -/
def issueCond (i : MonitorInp) : Bool :=
  if cfg.hasFlush then i.preFlushEnd else if cfg.forceInstCheckReset then i.issue else true

/-- `__ENDFLUSH__`, which exists with flushing only. -/
def endFlush (s : Monitor) (i : MonitorInp) : Bool := i.postFlushEnd && s.ended

/-- The condition under which `ConstructWrapper_add_varmap_assertions` compares the states. -/
def checks (s : Monitor) (i : MonitorInp) : Bool := if cfg.hasFlush then s.endFlush i else s.iend cfg i

/-! ### Registers -/

/-- The bits of `__CYCLE_CNT__`. A register has at least one. -/
def cntBits : Nat := max 1 cfg.cntWidth

def step (s : Monitor) (i : MonitorInp) : Monitor where
  cycleCnt :=
    if i.rst then 0
    else if (s.start || s.started) && decide (s.cycleCnt < cfg.saturation) then (s.cycleCnt + 1) % 2 ^ cntBits cfg
    else s.cycleCnt
  start :=
    if i.rst then cfg.avoidIssueStage
    else if s.start || s.started then false
    else if !cfg.avoidIssueStage && s.issue cfg i then true
    else s.start
  started := if i.rst then false else if s.start then true else s.started
  ended := if i.rst then false else if s.iend cfg i then true else s.ended
  secondEnded := if i.rst then false else if s.ended && s.edCond cfg i && !s.secondEnded then true else s.secondEnded
  reseted := if i.rst then true else s.reseted
  flushEnded := if i.rst then false else if s.endFlush i && s.ended then true else s.flushEnded

end Monitor

/-! ### What the monitor is for -/

/-- The reset is asserted in the first cycles, and in no other one. -/
def ResetFirst (inp : Nat → MonitorInp) (k : Nat) : Prop := 0 < k ∧ ∀ t, (inp t).rst = true ↔ t < k

/-- The instruction is started once and checked once, at its end. -/
structure MonitorLaw (cfg : MonitorCfg) (inp : Nat → MonitorInp) (k : Nat) (reg : Nat → Monitor) : Prop where
  start_once : ∀ t u, k ≤ t → k ≤ u → (reg t).start = true → (reg u).start = true → t = u
  started_stays : ∀ t, k ≤ t → (reg t).started = true → (reg (t + 1)).started = true
  ended_stays : ∀ t, k ≤ t → (reg t).ended = true → (reg (t + 1)).ended = true
  flushEnded_stays : ∀ t, k ≤ t → (reg t).flushEnded = true → (reg (t + 1)).flushEnded = true
  /-- Before the start the counter is zero, and from there on it counts the cycles up to its bound. -/
  cnt_zero : ∀ t, k ≤ t → (∀ s, k ≤ s → s ≤ t → (reg s).start = false) → (reg t).cycleCnt = 0
  cnt_eq : ∀ s t, k ≤ s → s ≤ t → (reg s).start = true → (reg t).cycleCnt = min (t - s) (cfg.maxBound + 5)
  cnt_lt : ∀ t, k ≤ t → (reg t).cycleCnt < 2 ^ Monitor.cntBits cfg
  check_once : ∀ t u, k ≤ t → k ≤ u → (reg t).checks cfg (inp t) = true → (reg u).checks cfg (inp u) = true → t = u
  check_after : ∀ t, k ≤ t → (reg t).checks cfg (inp t) = true → ∃ s, k ≤ s ∧ s < t ∧ (reg s).start = true

namespace Monitor

variable {cfg : MonitorCfg} {inp : Nat → MonitorInp} {k : Nat} {s₀ : Monitor}

/-- The registers in every cycle. -/
def reg (cfg : MonitorCfg) (s₀ : Monitor) (inp : Nat → MonitorInp) : Nat → Monitor := Clocked.run (step cfg) s₀ inp

theorem reg_succ (t : Nat) : reg cfg s₀ inp (t + 1) = step cfg (reg cfg s₀ inp t) (inp t) := rfl

theorem width_of_bound (hbound : cfg.maxBound + 10 < 2 ^ 32) : cfg.maxBound + 10 ≤ 2 ^ cntBits cfg := by
  calc cfg.maxBound + 10 ≤ 2 ^ cfg.cntWidth := by
        rw [MonitorCfg.cntWidth, Nat.mod_eq_of_lt hbound]
        exact Nat.le_pow_clog Nat.one_lt_two _
    _ ≤ 2 ^ cntBits cfg := Nat.pow_le_pow_right Nat.two_pos (Nat.le_max_right _ _)

/-! ### After the reset -/

section AfterReset

variable (h : ResetFirst inp k)

include h

theorem rst_false {t : Nat} (ht : k ≤ t) : (inp t).rst = false :=
  Bool.eq_false_iff.mpr fun hrst => Nat.not_le_of_lt ((h.2 t).mp hrst) ht

theorem reg_reset : reg cfg s₀ inp k = ⟨0, cfg.avoidIssueStage, false, false, false, true, false⟩ := by
  obtain ⟨n, rfl⟩ : ∃ n, k = n + 1 := ⟨k - 1, (Nat.succ_pred_eq_of_pos h.1).symm⟩
  have hrst : (inp n).rst = true := (h.2 n).mpr (Nat.lt_succ_self n)
  rw [reg_succ, step]
  simp [hrst]

theorem started_sticky (t : Nat) :
    Clocked.Sticky (fun u => (reg cfg s₀ inp u).started) (fun u => (reg cfg s₀ inp u).start) k t := by
  refine ⟨by simp only [reg_reset h], fun u hu _ => ?_⟩
  simp only [reg_succ, step, rst_false h hu]
  cases (reg cfg s₀ inp u).start <;> simp

theorem ended_sticky (t : Nat) :
    Clocked.Sticky (fun u => (reg cfg s₀ inp u).ended) (fun u => (reg cfg s₀ inp u).iend cfg (inp u)) k t := by
  refine ⟨by simp only [reg_reset h], fun u hu _ => ?_⟩
  simp only [reg_succ, step, rst_false h hu]
  cases (reg cfg s₀ inp u).iend cfg (inp u) <;> simp

theorem flushEnded_sticky (t : Nat) :
    Clocked.Sticky (fun u => (reg cfg s₀ inp u).flushEnded) (fun u => (reg cfg s₀ inp u).endFlush (inp u)) k t := by
  refine ⟨by simp only [reg_reset h], fun u hu _ => ?_⟩
  simp only [reg_succ, step, rst_false h hu, endFlush, Bool.and_assoc, Bool.and_self]
  cases (inp u).postFlushEnd && (reg cfg s₀ inp u).ended <;> simp

theorem start_guard {t : Nat} (ht : k ≤ t) (hstart : (reg cfg s₀ inp (t + 1)).start = true) :
    (reg cfg s₀ inp t).start = false ∧ (reg cfg s₀ inp t).started = false := by
  simp only [reg_succ, step, rst_false h ht] at hstart
  cases hs : (reg cfg s₀ inp t).start <;> cases hd : (reg cfg s₀ inp t).started <;> simp [hs, hd] at hstart ⊢

theorem start_unique {t u : Nat} (ht : k ≤ t) (hu : k ≤ u) (hst : (reg cfg s₀ inp t).start = true)
    (hsu : (reg cfg s₀ inp u).start = true) : t = u := by
  have hle : ∀ {t u}, k ≤ t → (reg cfg s₀ inp t).start = true → (reg cfg s₀ inp u).start = true → ¬ t < u := by
    intro t u ht hst hsu hlt
    obtain ⟨v, rfl⟩ : ∃ v, u = v + 1 := ⟨u - 1, by omega⟩
    have hv : k ≤ v := by omega
    obtain ⟨hstart, hstarted⟩ := start_guard h hv hsu
    rcases Nat.lt_succ_iff_lt_or_eq.mp hlt with hlt | rfl
    · have hup := ((started_sticky h v).iff hv).mpr ⟨t, ht, hlt, hst⟩
      rw [hstarted] at hup
      cases hup
    · rw [hst] at hstart
      cases hstart
  exact Nat.le_antisymm (Nat.le_of_not_lt (hle hu hsu hst)) (Nat.le_of_not_lt (hle ht hst hsu))

theorem on_iff {t : Nat} (ht : k ≤ t) : ((reg cfg s₀ inp t).start || (reg cfg s₀ inp t).started) = true ↔
    ∃ s, k ≤ s ∧ s ≤ t ∧ (reg cfg s₀ inp s).start = true := by
  rw [Bool.or_eq_true, (started_sticky h t).iff ht]
  constructor
  · rintro (hs | ⟨s, hk, hs, hst⟩)
    · exact ⟨t, ht, Nat.le_refl t, hs⟩
    · exact ⟨s, hk, Nat.le_of_lt hs, hst⟩
  · rintro ⟨s, hk, hs, hst⟩
    rcases Nat.lt_or_eq_of_le hs with hs | rfl
    · exact .inr ⟨s, hk, hs, hst⟩
    · exact .inl hst

theorem cnt_succ {t : Nat} (ht : k ≤ t) : (reg cfg s₀ inp (t + 1)).cycleCnt =
    if ((reg cfg s₀ inp t).start || (reg cfg s₀ inp t).started) = true ∧ (reg cfg s₀ inp t).cycleCnt < cfg.saturation then
      ((reg cfg s₀ inp t).cycleCnt + 1) % 2 ^ cntBits cfg
    else (reg cfg s₀ inp t).cycleCnt := by
  simp only [reg_succ, step, rst_false h ht, Bool.and_eq_true, decide_eq_true_eq]
  rfl

theorem cnt_zero_of_off {t : Nat} (ht : k ≤ t) (hoff : ∀ s, k ≤ s → s ≤ t → (reg cfg s₀ inp s).start = false) :
    (reg cfg s₀ inp t).cycleCnt = 0 := by
  induction t, ht using Nat.le_induction with
  | base =>
    rw [reg_reset h]
  | succ t ht ih =>
    rw [cnt_succ h ht, if_neg, ih fun s hk hs => hoff s hk (Nat.le_succ_of_le hs)]
    rintro ⟨hon, -⟩
    obtain ⟨s, hk, hs, hst⟩ := (on_iff h ht).mp hon
    rw [hoff s hk (Nat.le_succ_of_le hs)] at hst
    cases hst

theorem cnt_of_on (hbound : cfg.maxBound + 10 < 2 ^ 32) {s t : Nat} (hs : k ≤ s) (hst : s ≤ t)
    (hstart : (reg cfg s₀ inp s).start = true) : (reg cfg s₀ inp t).cycleCnt = min (t - s) (cfg.maxBound + 5) := by
  have hsat : cfg.saturation = cfg.maxBound + 5 := Nat.mod_eq_of_lt (by omega)
  have hwidth := width_of_bound hbound
  induction t, hst using Nat.le_induction with
  | base =>
    rw [Nat.sub_self, Nat.zero_min]
    refine Nat.eq_zero_of_not_pos fun hpos => ?_
    -- The counter has not moved before, since the instruction was not on before.
    obtain rfl | hlt := Nat.eq_or_lt_of_le hs
    · rw [reg_reset h] at hpos
      exact Nat.lt_irrefl 0 hpos
    · obtain ⟨v, rfl⟩ : ∃ v, s = v + 1 := ⟨s - 1, by omega⟩
      have hv : k ≤ v := Nat.lt_succ_iff.mp hlt
      obtain ⟨hoff, hoff'⟩ := start_guard h hv hstart
      rw [cnt_succ h hv, if_neg (by simp [hoff, hoff'])] at hpos
      rw [cnt_zero_of_off h hv] at hpos
      · exact Nat.lt_irrefl 0 hpos
      · intro u hu huv
        refine Bool.eq_false_iff.mpr fun hup => ?_
        have := start_unique h hu hs hup hstart
        omega
  | succ t hst ih =>
    have hon := (on_iff h (Nat.le_trans hs hst)).mpr ⟨s, hs, hst, hstart⟩
    rw [cnt_succ h (Nat.le_trans hs hst), ih, hsat]
    split
    · rename_i hlt
      rw [Nat.mod_eq_of_lt (by omega)]
      omega
    · rename_i hge
      have : ¬ min (t - s) (cfg.maxBound + 5) < cfg.maxBound + 5 := fun hlt => hge ⟨hon, hlt⟩
      omega

theorem reseted_true {t : Nat} (ht : k ≤ t) : (reg cfg s₀ inp t).reseted = true := by
  induction t, ht using Nat.le_induction with
  | base => rw [reg_reset h]
  | succ t ht ih =>
    simp only [reg_succ, step, rst_false h ht]
    exact ih

theorem start_of_iend {t : Nat} (ht : k ≤ t) (hend : (reg cfg s₀ inp t).iend cfg (inp t) = true) :
    ∃ s, k ≤ s ∧ s < t ∧ (reg cfg s₀ inp s).start = true := by
  refine ((started_sticky h t).iff ht).mp ?_
  simp only [iend, Bool.and_eq_true] at hend
  exact hend.1.1.1.2

theorem start_of_check {t : Nat} (ht : k ≤ t) (hcheck : (reg cfg s₀ inp t).checks cfg (inp t) = true) :
    ∃ s, k ≤ s ∧ s < t ∧ (reg cfg s₀ inp s).start = true := by
  rw [checks] at hcheck
  split at hcheck
  · rw [endFlush, Bool.and_eq_true] at hcheck
    obtain ⟨u, hu, hut, hend⟩ := ((ended_sticky h t).iff ht).mp hcheck.2
    obtain ⟨s, hs, hsu, hstart⟩ := start_of_iend h hu hend
    exact ⟨s, hs, Nat.lt_trans hsu hut, hstart⟩
  · exact start_of_iend h ht hcheck

theorem check_once_of_not_flush (hflush : cfg.hasFlush = false) {t u : Nat} (ht : k ≤ t) (hu : k ≤ u)
    (hct : (reg cfg s₀ inp t).checks cfg (inp t) = true) (hcu : (reg cfg s₀ inp u).checks cfg (inp u) = true) : t = u := by
  simp only [checks, hflush] at hct hcu
  refine Clocked.once_of_guarded (ended_sticky h) (fun v _ hv => ?_) ht hu hct hcu
  simp only [iend, hflush, Bool.and_eq_true] at hv
  simpa using hv.1.2

theorem check_once_of_quiet (hflush : cfg.hasFlush = true)
    (hquiet : ∀ t, k ≤ t → (reg cfg s₀ inp t).flushEnded = true → (inp t).postFlushEnd = false) {t u : Nat} (ht : k ≤ t)
    (hu : k ≤ u) (hct : (reg cfg s₀ inp t).checks cfg (inp t) = true)
    (hcu : (reg cfg s₀ inp u).checks cfg (inp u) = true) : t = u := by
  simp only [checks, hflush, if_true] at hct hcu
  refine Clocked.once_of_guarded (flushEnded_sticky h) (fun v hv hflag => ?_) ht hu hct hcu
  refine Bool.eq_false_iff.mpr fun hup => ?_
  rw [endFlush, hquiet v hv hup, Bool.false_and] at hflag
  cases hflag

theorem issue_eq {t : Nat} (ht : k ≤ t) : (reg cfg s₀ inp t).issue cfg (inp t) = issueCond cfg (inp t) := by
  rw [issue, issueCond, reseted_true h ht, Bool.and_true]

theorem never_started_iff : (∀ t, k ≤ t → (reg cfg s₀ inp t).start = false) ↔
    cfg.avoidIssueStage = false ∧ ∀ t, k ≤ t → issueCond cfg (inp t) = false := by
  have hstarted : (∀ t, k ≤ t → (reg cfg s₀ inp t).start = false) → ∀ t, k ≤ t → (reg cfg s₀ inp t).started = false := by
    intro hoff t ht
    refine Bool.eq_false_iff.mpr fun hup => ?_
    obtain ⟨s, hs, -, hst⟩ := ((started_sticky h t).iff ht).mp hup
    rw [hoff s hs] at hst
    cases hst
  constructor
  · intro hoff
    have havoid : cfg.avoidIssueStage = false := by
      have hk := hoff k (Nat.le_refl k)
      rwa [reg_reset h] at hk
    refine ⟨havoid, fun t ht => ?_⟩
    have hnext := hoff (t + 1) (Nat.le_succ_of_le ht)
    simp only [reg_succ, step, rst_false h ht, hoff t ht, hstarted hoff t ht, havoid, issue_eq h ht] at hnext
    simpa using hnext
  · rintro ⟨havoid, hissue⟩ t ht
    have hboth : (reg cfg s₀ inp t).start = false ∧ (reg cfg s₀ inp t).started = false := by
      induction t, ht using Nat.le_induction with
      | base =>
        rw [reg_reset h]
        exact ⟨havoid, rfl⟩
      | succ t ht ih =>
        simp only [reg_succ, step, rst_false h ht, ih.1, ih.2, issue_eq h ht, hissue t ht]
        simp
    exact hboth.1

theorem quiet_of_check_once (hflush : cfg.hasFlush = true)
    (honce : ∀ t u, k ≤ t → k ≤ u → (reg cfg s₀ inp t).checks cfg (inp t) = true →
      (reg cfg s₀ inp u).checks cfg (inp u) = true → t = u) {t : Nat} (ht : k ≤ t)
    (hup : (reg cfg s₀ inp t).flushEnded = true) : (inp t).postFlushEnd = false := by
  obtain ⟨u, hu, hut, hend⟩ := ((flushEnded_sticky h t).iff ht).mp hup
  refine Bool.eq_false_iff.mpr fun hpost => ?_
  have hended : (reg cfg s₀ inp t).ended = true := by
    rw [endFlush, Bool.and_eq_true] at hend
    obtain ⟨v, hv, hvu, hiend⟩ := ((ended_sticky h u).iff hu).mp hend.2
    exact ((ended_sticky h t).iff ht).mpr ⟨v, hv, Nat.lt_trans hvu hut, hiend⟩
  have hagain := honce u t hu ht (by rw [checks, if_pos hflush, hend])
    (by rw [checks, if_pos hflush, endFlush, hpost, hended]; rfl)
  omega

theorem cnt_lt_of_bound (hbound : cfg.maxBound + 10 < 2 ^ 32) {t : Nat} (ht : k ≤ t) :
    (reg cfg s₀ inp t).cycleCnt < 2 ^ cntBits cfg := by
  have hwidth := width_of_bound hbound
  by_cases hon : ∃ s, k ≤ s ∧ s ≤ t ∧ (reg cfg s₀ inp s).start = true
  · obtain ⟨s, hs, hst, hstart⟩ := hon
    rw [cnt_of_on h hbound hs hst hstart]
    omega
  · rw [cnt_zero_of_off h ht fun s hs hst => Bool.eq_false_iff.mpr fun hup => hon ⟨s, hs, hst, hup⟩]
    exact Nat.two_pow_pos _

end AfterReset

theorem not_overflow (hcnt : ∀ s t, k ≤ s → s ≤ t → (reg cfg s₀ inp s).start = true →
      (reg cfg s₀ inp t).cycleCnt = min (t - s) (cfg.maxBound + 5))
    (hlt : ∀ t, k ≤ t → (reg cfg s₀ inp t).cycleCnt < 2 ^ cntBits cfg) {s : Nat} (hs : k ≤ s)
    (hstart : (reg cfg s₀ inp s).start = true) : cfg.maxBound + 10 < 2 ^ 32 := by
  by_contra hover
  have hmax : cfg.maxBound < 2 ^ 32 := by
    rw [MonitorCfg.maxBound]
    split
    · rw [toUnsigned]
      omega
    · exact Nat.mod_lt _ (by decide)
  have hwidth : cfg.cntWidth ≤ 4 := by
    rw [MonitorCfg.cntWidth]
    exact Nat.clog_le_of_le_pow (by omega)
  have hbits : 2 ^ cntBits cfg ≤ 2 ^ 4 := Nat.pow_le_pow_right Nat.two_pos (by rw [cntBits]; omega)
  have hle : s ≤ s + (cfg.maxBound + 5) := Nat.le_add_right _ _
  have heq := hcnt s (s + (cfg.maxBound + 5)) hs hle hstart
  have hsmall := hlt (s + (cfg.maxBound + 5)) (Nat.le_trans hs hle)
  rw [heq] at hsmall
  omega

/-- The monitor is right if and only if the bound of the counter is computed without overflow, or the instruction is never
issued; and with flushing, the flush does not end again after it has ended. -/
theorem monitorLaw_iff (cfg : MonitorCfg) (s₀ : Monitor) (inp : Nat → MonitorInp) (k : Nat) (h : ResetFirst inp k) :
    MonitorLaw cfg inp k (reg cfg s₀ inp) ↔
      (cfg.maxBound + 10 < 2 ^ 32 ∨ cfg.avoidIssueStage = false ∧ ∀ t, k ≤ t → issueCond cfg (inp t) = false) ∧
      (cfg.hasFlush = true → ∀ t, k ≤ t → (reg cfg s₀ inp t).flushEnded = true → (inp t).postFlushEnd = false) := by
  rw [← never_started_iff h]
  constructor
  · intro law
    refine ⟨?_, fun hflush t ht hup => quiet_of_check_once h hflush law.check_once ht hup⟩
    by_cases hoff : ∀ t, k ≤ t → (reg cfg s₀ inp t).start = false
    · exact .inr hoff
    · push Not at hoff
      obtain ⟨s, hs, hstart⟩ := hoff
      exact .inl (not_overflow law.cnt_eq law.cnt_lt hs (by simpa using hstart))
  · rintro ⟨hcnt, hquiet⟩
    have honce : ∀ t u, k ≤ t → k ≤ u → (reg cfg s₀ inp t).checks cfg (inp t) = true →
        (reg cfg s₀ inp u).checks cfg (inp u) = true → t = u := by
      intro t u ht hu hct hcu
      cases hflush : cfg.hasFlush with
      | false => exact check_once_of_not_flush h hflush ht hu hct hcu
      | true => exact check_once_of_quiet h hflush (hquiet hflush) ht hu hct hcu
    refine ⟨fun t u ht hu => start_unique h ht hu, fun t ht => (started_sticky h (t + 1)).stays ht,
      fun t ht => (ended_sticky h (t + 1)).stays ht, fun t ht => (flushEnded_sticky h (t + 1)).stays ht,
      fun t ht => cnt_zero_of_off h ht, fun s t hs hst hstart => ?_, fun t ht => ?_, honce, fun t ht => start_of_check h ht⟩
    · rcases hcnt with hbound | hoff
      · exact cnt_of_on h hbound hs hst hstart
      · rw [hoff s hs] at hstart
        cases hstart
    · rcases hcnt with hbound | hoff
      · exact cnt_lt_of_bound h hbound ht
      · rw [cnt_zero_of_off h ht fun s hs _ => hoff s hs]
        exact Nat.two_pow_pos _

/-- An instruction with a ready signal, and with flushing or without. -/
def signalCfg (hasFlush : Bool) : MonitorCfg where
  hasFlush := hasFlush
  avoidIssueStage := false
  forceInstCheckReset := false
  readySignal := true
  readyBound := none
  maxBoundField := none
  maxBoundDefault := 127
  flush_issues := by simp

/-- One cycle of reset, and all conditions true from then on. -/
def eagerInp (t : Nat) : MonitorInp := ⟨t == 0, true, true, true, true⟩

theorem eagerInp_resetFirst : ResetFirst eagerInp 1 :=
  ⟨Nat.one_pos, fun t => by simp [eagerInp]⟩

theorem monitorLaw_no_flush : MonitorLaw (signalCfg false) eagerInp 1 (reg (signalCfg false) ⟨0, false, false, false, false, false, false⟩ eagerInp) :=
  (monitorLaw_iff (signalCfg false) _ eagerInp 1 eagerInp_resetFirst).mpr ⟨.inl (by decide), by simp [signalCfg]⟩

/-- With flushing, the states are compared in cycle four and again in cycle five. -/
theorem flush_checked_twice : ¬ MonitorLaw (signalCfg true) eagerInp 1
    (reg (signalCfg true) ⟨0, false, false, false, false, false, false⟩ eagerInp) := by
  intro law
  have hsame := law.check_once 4 5 (by decide) (by decide) (by decide) (by decide)
  cases hsame

end Monitor

end Ilang
