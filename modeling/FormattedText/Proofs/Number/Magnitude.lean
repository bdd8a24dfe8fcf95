import FormattedText.Number.Binary64
import Mathlib.Data.Int.Log
import Mathlib.Data.Rat.Floor
import Mathlib.Tactic.Linarith

/-!
# The magnitude of a floating-point number

A finite number has the magnitude `significand * 2 ^ (exponent - 52)` (`Binary64.magnitude`), which
its numerator and its denominator give as a fraction (`Binary64.magnitude_eq`). Its exponent is that
of the first bit of the magnitude, but not below -1022 (`Binary64.exponent_eq`).
-/

namespace FormattedText

/-- An integer power as a fraction of natural ones. -/
theorem zpow_eq_div {b : ℚ} (hb : b ≠ 0) (e : ℤ) : b ^ e = b ^ e.toNat / b ^ (-e).toNat := by
  have hsplit : e = (e.toNat : ℤ) - ((-e).toNat : ℤ) := by omega
  have hsub := zpow_sub₀ hb (e.toNat : ℤ) ((-e).toNat : ℤ)
  rw [← hsplit, zpow_natCast, zpow_natCast] at hsub
  exact hsub

namespace Binary64

/-- The absolute value of a finite number. -/
def magnitude (v : Binary64) : ℚ := v.significand * (2 : ℚ) ^ (v.exponent - fractionBits)

/-- The number that a finite value is. -/
def toRat (v : Binary64) : ℚ := if v.isNegative then -v.magnitude else v.magnitude

variable {v : Binary64}

theorem fraction_lt (v : Binary64) : v.fraction < 2 ^ 52 :=
  Nat.mod_lt _ (Nat.pow_pos (by decide))

/-- The bits before and behind the binary point. -/
theorem significand_eq (v : Binary64) : v.significand = v.leadBit * 2 ^ 52 + v.fraction := by
  rfl

theorem leadBit_le_one (v : Binary64) : v.leadBit ≤ 1 := by
  rw [leadBit]
  split
  · exact Nat.zero_le 1
  · exact Nat.le_refl 1

theorem significand_lt (v : Binary64) : v.significand < 2 ^ 53 := by
  have hfraction := v.fraction_lt
  have hlead := v.leadBit_le_one
  rw [significand_eq]
  omega

theorem isZero_iff : v.isZero = true ↔ v.significand = 0 := by
  rw [isZero, Bool.and_eq_true, beq_iff_eq, beq_iff_eq, significand_eq, leadBit]
  constructor
  · rintro ⟨hbiased, hfraction⟩
    rw [if_pos hbiased, hfraction, Nat.zero_mul]
  · intro h
    by_cases hbiased : v.biasedExponent = 0
    · rw [if_pos hbiased] at h
      exact ⟨hbiased, by omega⟩
    · rw [if_neg hbiased] at h
      omega

theorem magnitude_nonneg (v : Binary64) : 0 ≤ v.magnitude :=
  mul_nonneg (Nat.cast_nonneg _) (zpow_nonneg (by norm_num) _)

theorem magnitude_eq_zero : v.magnitude = 0 ↔ v.isZero = true := by
  have hpower : (2 : ℚ) ^ (v.exponent - fractionBits) ≠ 0 := zpow_ne_zero _ (by norm_num)
  rw [isZero_iff, magnitude, mul_eq_zero, or_iff_left hpower, Nat.cast_eq_zero]

theorem magnitude_pos (h : v.isZero = false) : 0 < v.magnitude := by
  refine lt_of_le_of_ne v.magnitude_nonneg fun hzero => ?_
  rw [magnitude_eq_zero.mp hzero.symm] at h
  cases h

theorem abs_toRat (v : Binary64) : |v.toRat| = v.magnitude := by
  rw [toRat]
  split
  · rw [abs_neg, abs_of_nonneg v.magnitude_nonneg]
  · exact abs_of_nonneg v.magnitude_nonneg

theorem denominator_pos (v : Binary64) : 0 < v.denominator := Nat.pow_pos (by decide)

/-- The numerator and the denominator give the magnitude. -/
theorem magnitude_eq (v : Binary64) : v.magnitude = v.numerator / v.denominator := by
  have hneg : -(v.exponent - fractionBits) = fractionBits - v.exponent := by omega
  rw [magnitude, zpow_eq_div two_ne_zero, hneg, numerator, denominator, Nat.pow_eq, Nat.pow_eq,
    Nat.cast_mul, Nat.cast_pow, Nat.cast_pow, Nat.cast_two, mul_div_assoc]

theorem le_magnitude {k : Nat} (h : 2 ^ k ≤ v.significand) :
    (2 : ℚ) ^ (v.exponent - fractionBits + k) ≤ v.magnitude := by
  have hcast : (2 : ℚ) ^ k ≤ v.significand := by exact_mod_cast h
  rw [zpow_add₀ two_ne_zero, zpow_natCast, mul_comm, magnitude]
  exact mul_le_mul_of_nonneg_right hcast (zpow_nonneg two_pos.le _)

theorem magnitude_lt {k : Nat} (h : v.significand < 2 ^ k) :
    v.magnitude < (2 : ℚ) ^ (v.exponent - fractionBits + k) := by
  have hcast : (v.significand : ℚ) < 2 ^ k := by exact_mod_cast h
  rw [zpow_add₀ two_ne_zero, zpow_natCast, mul_comm, magnitude]
  exact mul_lt_mul_of_pos_right hcast (zpow_pos two_pos _)

/-- The exponent of a number that is not zero is that of the first bit of its magnitude, or the
least one. -/
theorem exponent_eq (h : v.isZero = false) :
    v.exponent = max (Int.log 2 v.magnitude) (-1022) := by
  have hpos := magnitude_pos h
  have hfraction := v.fraction_lt
  have hbits : (fractionBits : Int) = 52 := rfl
  by_cases hbiased : v.biasedExponent = 0
  · have hlead : v.leadBit = 0 := if_pos hbiased
    have hexponent : v.exponent = -1022 := if_pos hbiased
    have hlt := magnitude_lt (v := v) (k := 52) (by rw [significand_eq, hlead]; omega)
    have hlog := (Int.lt_zpow_iff_log_lt Nat.one_lt_two hpos).mp hlt
    omega
  · have hlead : v.leadBit = 1 := if_neg hbiased
    have hexponent : v.exponent = (v.biasedExponent : Int) - 1023 := if_neg hbiased
    have hle := le_magnitude (v := v) (k := 52) (by rw [significand_eq, hlead]; omega)
    have hlt := magnitude_lt (v := v) (k := 53) v.significand_lt
    have hlow := (Int.zpow_le_iff_le_log Nat.one_lt_two hpos).mp hle
    have hhigh := (Int.lt_zpow_iff_log_lt Nat.one_lt_two hpos).mp hlt
    omega

end Binary64

end FormattedText
