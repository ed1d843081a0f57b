import Mathlib.Data.Nat.Init

/-!
# Registers and clocks

A synchronous circuit is a function from its registers and its inputs in one cycle to its registers in the next one. Most
registers of a monitor are flags that are cleared by a reset, and stay up once they have been set. Such a flag remembers
whether something has happened since the reset, and a condition that is guarded by the flag it sets holds only once.
-/

namespace Clocked

variable {σ ι : Type}

/-- The registers in every cycle, from some registers in the first one. -/
def run (step : σ → ι → σ) (s : σ) (inp : Nat → ι) : Nat → σ
  | 0 => s
  | t + 1 => step (run step s inp t) (inp t)

theorem run_succ (step : σ → ι → σ) (s : σ) (inp : Nat → ι) (t : Nat) :
    run step s inp (t + 1) = step (run step s inp t) (inp t) := rfl

section Flag

variable {flag set : Nat → Bool} {k t : Nat}

/-- A flag that is down in one cycle and is not cleared until another one. -/
def Sticky (flag set : Nat → Bool) (k t : Nat) : Prop :=
  flag k = false ∧ ∀ u, k ≤ u → u < t → flag (u + 1) = (set u || flag u)

theorem Sticky.mono (h : Sticky flag set k t) {u : Nat} (hu : u ≤ t) : Sticky flag set k u :=
  ⟨h.1, fun v hk hv => h.2 v hk (Nat.lt_of_lt_of_le hv hu)⟩

theorem Sticky.iff (h : Sticky flag set k t) (hkt : k ≤ t) : flag t = true ↔ ∃ s, k ≤ s ∧ s < t ∧ set s = true := by
  induction t, hkt using Nat.le_induction with
  | base => simpa [h.1] using fun s hk hs => absurd hk (Nat.not_le_of_lt hs)
  | succ t hkt ih =>
    rw [h.2 t hkt (Nat.lt_succ_self t), Bool.or_eq_true, ih (h.mono (Nat.le_succ t))]
    constructor
    · rintro (hset | ⟨s, hk, hs, hset⟩)
      · exact ⟨t, hkt, Nat.lt_succ_self t, hset⟩
      · exact ⟨s, hk, Nat.lt_succ_of_lt hs, hset⟩
    · rintro ⟨s, hk, hs, hset⟩
      rcases Nat.lt_succ_iff_lt_or_eq.mp hs with hs | rfl
      · exact .inr ⟨s, hk, hs, hset⟩
      · exact .inl hset

theorem Sticky.stays (h : Sticky flag set k (t + 1)) (hkt : k ≤ t) (hflag : flag t = true) : flag (t + 1) = true := by
  rw [h.2 t hkt (Nat.lt_succ_self t), hflag, Bool.or_true]

theorem once_of_guarded {c : Nat → Bool} (h : ∀ t, Sticky flag c k t) (hguard : ∀ u, k ≤ u → c u = true → flag u = false)
    {u v : Nat} (hu : k ≤ u) (hv : k ≤ v) (hcu : c u = true) (hcv : c v = true) : u = v := by
  have hle : ∀ {u v}, k ≤ u → k ≤ v → c u = true → c v = true → ¬ u < v := by
    intro u v hu hv hcu hcv hlt
    have hup := ((h v).iff hv).mpr ⟨u, hu, hlt, hcu⟩
    rw [hguard v hv hcv] at hup
    cases hup
  exact Nat.le_antisymm (Nat.le_of_not_lt (hle hv hu hcv hcu)) (Nat.le_of_not_lt (hle hu hv hcu hcv))

end Flag

end Clocked
