import Mathlib.Tactic

/-!
# Bit-vector operations by other means

What a hardware description or a library of unsigned integers has in place of the SMT-LIB operations:
extensions and rotations as concatenations of parts, and unsigned operators where the operands are signed. For
the latter the question is on which operands the two agree.
-/

namespace Bits

variable {w : Nat}

/-! ### Extensions and rotations as concatenations -/

theorem zero_append_eq_setWidth (k : Nat) (x : BitVec w) : 0#k ++ x = x.setWidth (k + w) := by
  apply BitVec.eq_of_getLsbD_eq
  intro i hi
  rw [BitVec.getLsbD_append, BitVec.getLsbD_setWidth]
  by_cases hw : i < w
  · simp [hi, hw]
  · rw [if_neg hw, BitVec.getLsbD_zero, BitVec.getLsbD_of_ge x i (by omega), Bool.and_false]

theorem replicate_msb_append_eq_signExtend (k : Nat) (x : BitVec w) :
    (BitVec.ofBool x.msb).replicate k ++ x = x.signExtend (1 * k + w) := by
  apply BitVec.eq_of_getLsbD_eq
  intro i hi
  simp only [BitVec.getLsbD_append, BitVec.getLsbD_signExtend, BitVec.getLsbD_replicate, hi, decide_true,
    Bool.true_and]
  by_cases hw : i < w
  · rw [if_pos hw, if_pos hw]
  · have hk : i - w < 1 * k := by omega
    rw [if_neg hw, if_neg hw, decide_eq_true hk, Nat.mod_one, Bool.true_and]
    simp

theorem append_extractLsb_eq_rotateRight {n : Nat} (hpos : 0 < n) (hlt : n < w) (x : BitVec w) :
    (x.extractLsb (n - 1) 0 ++ x.extractLsb (w - 1) n).setWidth w = x.rotateRight n := by
  apply BitVec.eq_of_getLsbD_eq
  intro i hi
  simp only [BitVec.getLsbD_setWidth, BitVec.getLsbD_append, BitVec.getLsbD_rotateRight,
    BitVec.getLsbD_extractLsb, Nat.mod_eq_of_lt hlt, hi, decide_true, Bool.true_and]
  by_cases hlow : i < w - n
  · have hsize : i < w - 1 - n + 1 := by omega
    simp [hlow, hsize]
  · have hsize : ¬i < w - 1 - n + 1 := by omega
    have htop : i - (w - n) < n - 1 - 0 + 1 := by omega
    have hidx : i - (w - 1 - n + 1) = i - (w - n) := by omega
    simp only [hlow, hsize, hidx, htop, if_false, decide_true, decide_false, Bool.true_and, cond_false,
      Nat.zero_add]

theorem append_extractLsb_eq_rotateLeft {n : Nat} (hpos : 0 < n) (hlt : n < w) (x : BitVec w) :
    (x.extractLsb (w - 1 - n) 0 ++ x.extractLsb (w - 1) (w - n)).setWidth w = x.rotateLeft n := by
  apply BitVec.eq_of_getLsbD_eq
  intro i hi
  simp only [BitVec.getLsbD_setWidth, BitVec.getLsbD_append, BitVec.getLsbD_rotateLeft,
    BitVec.getLsbD_extractLsb, Nat.mod_eq_of_lt hlt, hi, decide_true, Bool.true_and]
  by_cases hlow : i < n
  · have hsize : i < w - 1 - (w - n) + 1 := by omega
    simp [hlow, hsize]
  · have hsize : ¬i < w - 1 - (w - n) + 1 := by omega
    have htop : i - n < w - 1 - n - 0 + 1 := by omega
    have hidx : i - (w - 1 - (w - n) + 1) = i - n := by omega
    simp only [hlow, hsize, hidx, htop, if_false, decide_true, decide_false, Bool.true_and, cond_false,
      Nat.zero_add]

/-! ### Unsigned operators on signed operands -/

theorem ult_eq_slt_iff {x y : BitVec w} : x.ult y = x.slt y ↔ x.msb = y.msb := by
  rw [BitVec.slt_eq_ult]
  cases x.msb <;> cases y.msb <;> cases x.ult y <;> simp

theorem msb_ushiftRight_eq_false {x : BitVec w} {n : Nat} (h : 0 < n) : (x >>> n).msb = false := by
  rw [BitVec.msb_eq_getLsbD_last, BitVec.getLsbD_ushiftRight]
  exact BitVec.getLsbD_of_ge x _ (by omega)

theorem ushiftRight_eq_sshiftRight_iff {x : BitVec w} {n : Nat} :
    x >>> n = x.sshiftRight n ↔ x.msb = false ∨ n = 0 := by
  constructor
  · intro h
    by_contra hcon
    rw [not_or, Bool.not_eq_false] at hcon
    have hmsb := congrArg BitVec.msb h
    rw [msb_ushiftRight_eq_false (Nat.pos_of_ne_zero hcon.2), BitVec.msb_sshiftRight, hcon.1] at hmsb
    simp at hmsb
  · intro h
    cases h with
    | inl hmsb => rw [BitVec.sshiftRight_eq_of_msb_false hmsb]
    | inr hn => rw [hn, BitVec.sshiftRight_zero, BitVec.ushiftRight_zero]

theorem setWidth_eq_signExtend_iff {v : Nat} (h : w ≤ v) {x : BitVec w} :
    x.setWidth v = x.signExtend v ↔ x.msb = false ∨ v = w := by
  constructor
  · intro heq
    by_contra hcon
    rw [not_or, Bool.not_eq_false] at hcon
    have hbit := congrArg (fun y : BitVec v => y.getLsbD w) heq
    have hlt : w < v := by omega
    simp only [BitVec.getLsbD_setWidth, BitVec.getLsbD_signExtend, hlt, decide_true, Bool.true_and,
      Nat.lt_irrefl, if_false, hcon.1, BitVec.getLsbD_of_ge x w (Nat.le_refl w)] at hbit
    exact Bool.false_ne_true hbit
  · intro hor
    cases hor with
    | inl hmsb => exact (BitVec.signExtend_eq_setWidth_of_msb_false hmsb).symm
    | inr hv =>
      subst hv
      rw [BitVec.setWidth_eq, BitVec.signExtend_eq]

/-- The operands on which the unsigned quotient is the signed one. -/
def DivAgree (x y : BitVec w) : Prop :=
  y ≠ 0#w ∧ (y = 1#w ∨ x = y ∨ (x.msb = false ∧ (y.msb = false ∨ x < -y)))

instance (x y : BitVec w) : Decidable (DivAgree x y) := inferInstanceAs (Decidable (_ ∧ _))

theorem smtUDiv_of_ne_zero {x y : BitVec w} (h : y ≠ 0#w) : x.smtUDiv y = x / y := by
  rw [BitVec.smtUDiv_eq, if_neg h]

theorem toNat_neg_of_ne_zero {x : BitVec w} (h : x ≠ 0#w) : (-x).toNat = 2 ^ w - x.toNat := by
  have hpos : 0 < x.toNat := Nat.pos_of_ne_zero fun h0 => h (BitVec.eq_of_toNat_eq (by simpa using h0))
  rw [BitVec.toNat_neg, Nat.mod_eq_of_lt (by omega)]

theorem pos_width_of_ne_zero {x : BitVec w} (h : x ≠ 0#w) : 0 < w := by
  apply Nat.pos_of_ne_zero
  intro hw
  subst hw
  exact h (BitVec.of_length_zero)

theorem two_pow_half (h : 0 < w) : 2 ^ w = 2 * 2 ^ (w - 1) := by
  rw [← pow_succ', Nat.sub_add_cancel h]

theorem msb_eq_false_iff {x : BitVec w} : x.msb = false ↔ x.toNat < 2 ^ (w - 1) := by
  rw [BitVec.msb_eq_decide, decide_eq_false_iff_not, Nat.not_le]

theorem neg_ne_zero {x : BitVec w} (h : x ≠ 0#w) : -x ≠ 0#w := by
  intro hneg
  apply h
  rw [← BitVec.neg_neg (x := x), hneg, BitVec.neg_zero]

theorem nat_div_eq_div_sub {n x y : Nat} (hx : x < n) (hy : y < n) (hyn : n ≤ 2 * y) :
    x / y = (n - x) / (n - y) ↔ x = y := by
  constructor
  · intro h
    by_contra hne
    rcases Nat.lt_or_gt_of_ne hne with hlt | hgt
    · rw [Nat.div_eq_of_lt hlt] at h
      have hle := Nat.div_pos (show n - y ≤ n - x by omega) (by omega)
      omega
    · rw [Nat.div_eq_of_lt (show n - x < n - y by omega)] at h
      have hle := Nat.div_pos (Nat.le_of_lt hgt) (by omega)
      omega
  · intro h
    rw [h, Nat.div_self (by omega), Nat.div_self (by omega)]

theorem nat_div_eq_sub_div {n x y : Nat} (hx : x < n) (hxn : n ≤ 2 * x) (hyn : 2 * y < n) (hy : 0 < y) :
    x / y = (n - (n - x) / y) % n ↔ y = 1 := by
  constructor
  · intro h
    by_contra hne
    have hle : 2 * (x / y) ≤ x := le_trans (Nat.mul_le_mul_right _ (show 2 ≤ y by omega)) (Nat.mul_div_le x y)
    rcases Nat.eq_zero_or_pos ((n - x) / y) with hzero | hpos
    · rw [hzero, Nat.sub_zero, Nat.mod_self] at h
      have hdiv := Nat.div_pos (show y ≤ x by omega) hy
      omega
    · have hsmall := Nat.div_le_self (n - x) y
      rw [Nat.mod_eq_of_lt (by omega)] at h
      omega
  · intro h
    rw [h, Nat.div_one, Nat.div_one, Nat.sub_sub_self (Nat.le_of_lt hx), Nat.mod_eq_of_lt hx]

theorem nat_div_eq_sub_div_sub {n x y : Nat} (hxn : 2 * x < n) (hyn : n ≤ 2 * y) (hy : y < n) :
    x / y = (n - x / (n - y)) % n ↔ x < n - y := by
  rw [Nat.div_eq_of_lt (show x < y by omega)]
  constructor
  · intro h
    by_contra hcon
    have hpos := Nat.div_pos (Nat.le_of_not_lt hcon) (show 0 < n - y by omega)
    have hle := Nat.div_le_self x (n - y)
    rw [Nat.mod_eq_of_lt (by omega)] at h
    omega
  · intro h
    rw [Nat.div_eq_of_lt h, Nat.sub_zero, Nat.mod_self]

theorem udiv_eq_smtSDiv_iff {x y : BitVec w} (hy : y ≠ 0#w) : x.udiv y = x.smtSDiv y ↔ DivAgree x y := by
  have hw : 0 < w := pos_width_of_ne_zero hy
  have hpow := two_pow_half hw
  have hxlt := x.isLt
  have hylt := y.isLt
  have hypos : 0 < y.toNat := Nat.pos_of_ne_zero fun h0 => hy (BitVec.eq_of_toNat_eq (by simpa using h0))
  have hone : y = 1#w ↔ y.toNat = 1 := by
    rw [← BitVec.toNat_inj]
    simp [Nat.mod_eq_of_lt (show 1 < 2 ^ w from Nat.one_lt_two_pow hw.ne')]
  have hlt : x < -y ↔ x.toNat < 2 ^ w - y.toNat := by
    rw [BitVec.lt_def, toNat_neg_of_ne_zero hy]
  have hxy : x = y ↔ x.toNat = y.toNat := BitVec.toNat_inj.symm
  rw [BitVec.smtSDiv_eq, DivAgree, hone, hlt, hxy, ← BitVec.toNat_inj, show x.udiv y = x / y from rfl]
  cases hmx : x.msb with
  | false =>
    have hx := msb_eq_false_iff.mp hmx
    cases hmy : y.msb with
    | false => simp [smtUDiv_of_ne_zero hy, hy]
    | true =>
      have hyge : 2 ^ (w - 1) ≤ y.toNat := by simpa [BitVec.msb_eq_decide] using hmy
      simp only [smtUDiv_of_ne_zero (neg_ne_zero hy), BitVec.toNat_udiv, BitVec.toNat_neg (_ / _),
        toNat_neg_of_ne_zero hy, nat_div_eq_sub_div_sub (show 2 * x.toNat < 2 ^ w by omega)
        (show 2 ^ w ≤ 2 * y.toNat by omega) hylt]
      simp only [ne_eq, hy, not_false_eq_true, true_and, Bool.true_eq_false, false_or]
      omega
  | true =>
    have hxge : 2 ^ (w - 1) ≤ x.toNat := by simpa [BitVec.msb_eq_decide] using hmx
    have hx0 : x ≠ 0#w := by
      intro h
      rw [h, BitVec.toNat_zero] at hxge
      exact absurd hxge (Nat.not_le.mpr (Nat.two_pow_pos _))
    cases hmy : y.msb with
    | false =>
      have hyl := msb_eq_false_iff.mp hmy
      simp only [smtUDiv_of_ne_zero hy, BitVec.toNat_udiv, BitVec.toNat_neg (_ / _), toNat_neg_of_ne_zero hx0,
        nat_div_eq_sub_div hxlt (show 2 ^ w ≤ 2 * x.toNat by omega) (show 2 * y.toNat < 2 ^ w by omega) hypos]
      simp only [ne_eq, hy, not_false_eq_true, true_and, Bool.true_eq_false, false_and, or_false]
      omega
    | true =>
      have hyge : 2 ^ (w - 1) ≤ y.toNat := by simpa [BitVec.msb_eq_decide] using hmy
      simp only [smtUDiv_of_ne_zero (neg_ne_zero hy), BitVec.toNat_udiv, toNat_neg_of_ne_zero hx0,
        toNat_neg_of_ne_zero hy, nat_div_eq_div_sub hxlt hylt (show 2 ^ w ≤ 2 * y.toNat by omega)]
      simp only [ne_eq, hy, not_false_eq_true, true_and, Bool.true_eq_false, false_and, or_false]
      omega

/-- The same with the division by zero of SMT-LIB. -/
def SmtDivAgree (x y : BitVec w) : Prop := (y = 0#w ∧ (x.msb = false ∨ w = 1)) ∨ DivAgree x y

theorem smtSDiv_eq_smtUDiv_iff {x y : BitVec w} : x.smtSDiv y = x.smtUDiv y ↔ SmtDivAgree x y := by
  unfold SmtDivAgree
  by_cases hy : y = 0#w
  · have hnot : ¬DivAgree x y := fun h => h.1 hy
    rw [or_iff_left hnot, and_iff_right hy, hy, BitVec.smtSDiv_zero, BitVec.smtUDiv_zero, BitVec.slt_zero_eq_msb]
    cases hx : x.msb with
    | false => exact iff_of_true (if_neg Bool.false_ne_true) (.inl rfl)
    | true =>
      have hw : 0 < w := Nat.pos_of_ne_zero fun h => by
        subst h
        rw [BitVec.of_length_zero (x := x), BitVec.msb_zero] at hx
        cases hx
      have hone : 1 % 2 ^ w = 1 := Nat.mod_eq_of_lt (Nat.one_lt_two_pow hw.ne')
      rw [if_pos rfl, or_iff_right Bool.false_ne_true.symm, ← BitVec.toNat_inj, BitVec.toNat_allOnes, BitVec.toNat_ofNat, hone]
      constructor
      · intro h
        have hpow : 2 ^ w = 2 ^ 1 := by omega
        exact Nat.pow_right_injective (Nat.le_refl 2) hpow
      · intro h
        rw [h]
  · rw [or_iff_right fun h => hy h.1, ← udiv_eq_smtSDiv_iff hy, smtUDiv_of_ne_zero hy, eq_comm]
    rfl

end Bits
