import FormattedText.Proofs.Number.Magnitude
import FormattedText.Proofs.Number.Numeral
import FormattedText.Proofs.Number.Rounding
import Mathlib.Tactic.FieldSimp
import Mathlib.Tactic.Ring

/-!
# Hexadecimal digits of a floating-point number

The hexadecimal text of a number is a numeral (`Hexadecimal.text_eq`). Without a precision it
writes the magnitude exactly (`Hexadecimal.value_numeral_exact`), and its fraction does not end
with a zero. With a precision it writes the nearest multiple of its last place
(`Hexadecimal.isNearestEven_rounded`). A carry out of the fraction makes the digit before the
point at most two (`Hexadecimal.numeral_whole`). All of this together is
`Hexadecimal.isHexadecimal_numeral`.
-/

namespace FormattedText

namespace Hexadecimal

open Numeral

variable {v : Binary64} {precision : Option Nat} {alternate : Bool}

/-- The numeral of the hexadecimal text of a number. -/
def numeral (v : Binary64) (precision : Option Nat) (alternate : Bool) : Numeral :=
  ofInteger 16 (digits v precision).2 alternate (some (shownExponent v)) (digits v precision).1

theorem text_eq (v : Binary64) (precision : Option Nat) (alternate : Bool) :
    text v precision alternate = Style.hexadecimal.write (numeral v precision alternate) := by
  have hwrite := write_ofInteger (by decide : 2 ≤ Style.hexadecimal.base) (digits v precision).2
    alternate (some (shownExponent v)) (digits v precision).1
  rw [Option.elim_some] at hwrite
  exact hwrite.symm

theorem isIn_numeral (v : Binary64) (precision : Option Nat) (alternate : Bool) :
    (numeral v precision alternate).IsIn 16 :=
  isIn_ofInteger (by decide)

theorem value_numeral (v : Binary64) (precision : Option Nat) (alternate : Bool) :
    (numeral v precision alternate).value .hexadecimal =
      (digits v precision).1 / (16 : ℚ) ^ (digits v precision).2 * (2 : ℚ) ^ shownExponent v :=
  value_ofInteger (by decide : 2 ≤ Style.hexadecimal.base) _ alternate _ _

/-- Whichever of two exponents is greater, the powers are filled up to it. -/
theorem pow_mul_pow_sub {M : Type} [Monoid M] (b : M) (p q : Nat) :
    b ^ p * b ^ (q - p) = b ^ (p - q) * b ^ q := by
  rw [← pow_add, ← pow_add]
  congr 1
  omega

/-- Sixteen is a power of two. -/
theorem pow_sixteen (n : Nat) : (16 : ℚ) ^ n = (2 : ℚ) ^ (4 * n) := by
  rw [pow_mul]
  norm_num

/-- The magnitude in units of the exponent that is shown. -/
theorem magnitude_eq_shown (v : Binary64) :
    v.magnitude = v.significand / (16 : ℚ) ^ fractionDigits * (2 : ℚ) ^ shownExponent v := by
  by_cases hzero : v.isZero = true
  · rw [Binary64.magnitude, Binary64.isZero_iff.mp hzero, Nat.cast_zero, zero_mul, zero_div,
      zero_mul]
  · rw [shownExponent, if_neg hzero, Binary64.magnitude, zpow_sub₀ two_ne_zero, zpow_natCast,
      pow_sixteen, div_mul_eq_mul_div, mul_div_assoc]
    rfl

section Exact

/-- Zeros at the end of a fraction are removed, and the digits that are left write the same. -/
theorem trimmed_spec (fraction : Nat) (n : Nat) :
    let r := trimmed fraction n
    r.2 ≤ n ∧ fraction = r.1 * 16 ^ (n - r.2) ∧ (r.2 ≠ 0 → r.1 % 16 ≠ 0) := by
  induction n generalizing fraction with
  | zero => exact ⟨Nat.le_refl 0, (Nat.mul_one fraction).symm, fun h => absurd rfl h⟩
  | succ n ih =>
    by_cases hmod : fraction % 16 = 0
    · obtain ⟨hle, hvalue, hlast⟩ := ih (fraction / 16)
      rw [trimmed, if_pos hmod]
      refine ⟨Nat.le_succ_of_le hle, ?_, hlast⟩
      have hdiv : fraction = fraction / 16 * 16 := by omega
      rw [Nat.succ_sub hle, pow_succ, ← Nat.mul_assoc, ← hvalue]
      exact hdiv
    · rw [trimmed, if_neg hmod]
      refine ⟨Nat.le_refl _, ?_, fun _ => hmod⟩
      rw [Nat.sub_self, pow_zero, Nat.mul_one]

/-- Without a precision the numeral writes the magnitude. -/
theorem value_numeral_exact (v : Binary64) (alternate : Bool) :
    (numeral v none alternate).value .hexadecimal = v.magnitude := by
  obtain ⟨hle, hvalue, _⟩ := trimmed_spec v.significand fractionDigits
  have hsplit : (16 : ℚ) ^ fractionDigits = 16 ^ (fractionDigits - (digits v none).2) *
      16 ^ (digits v none).2 :=
    (pow_sub_mul_pow 16 hle).symm
  have hpow : (16 : ℚ) ^ (fractionDigits - (digits v none).2) ≠ 0 := pow_ne_zero _ (by norm_num)
  have hcast : (v.significand : ℚ) = (digits v none).1 *
      16 ^ (fractionDigits - (digits v none).2) := by
    exact_mod_cast hvalue
  rw [value_numeral, magnitude_eq_shown, hsplit, hcast, mul_comm ((digits v none).1 : ℚ),
    mul_div_mul_left _ _ hpow]

/-- The last digit behind the point is the last one of the number. -/
theorem getLast?_lowest (base p n : Nat) :
    (Digits.lowest base p n).getLast? = if p = 0 then none else some (n % base) := by
  cases p with
  | zero => rfl
  | succ p => rw [Digits.lowest, List.getLast?_concat, if_neg (Nat.succ_ne_zero p)]

/-- Without a precision the fraction does not end with a zero. -/
theorem numeral_exact_isTrimmed (v : Binary64) (alternate : Bool) :
    (numeral v none alternate).IsTrimmed := by
  obtain ⟨_, _, hlast⟩ := trimmed_spec v.significand fractionDigits
  intro d hd
  rw [numeral, fraction_ofInteger, getLast?_lowest] at hd
  split at hd
  · cases hd
  · rename_i hplaces
    cases hd
    exact hlast hplaces

end Exact

section Rounded

/-- The number that is rounded is the magnitude in units of the last place. -/
theorem isNearestEven_rounded (v : Binary64) (places : Nat) :
    IsNearestEven (v.magnitude / ((2 : ℚ) ^ shownExponent v / 16 ^ places)) (rounded v places) := by
  have hnearest := isNearestEven_roundHalfEven
    (v.significand * Nat.pow 16 (places - fractionDigits))
    (Nat.pow_pos (by decide) : 0 < Nat.pow 16 (fractionDigits - places))
  have hexponent : (2 : ℚ) ^ shownExponent v ≠ 0 := zpow_ne_zero _ two_ne_zero
  have hsixteen (k : Nat) : (16 : ℚ) ^ k ≠ 0 := pow_ne_zero k (by norm_num)
  have hunits : v.magnitude / ((2 : ℚ) ^ shownExponent v / 16 ^ places) =
      ((v.significand * Nat.pow 16 (places - fractionDigits) : Nat) : ℚ) /
        (Nat.pow 16 (fractionDigits - places) : Nat) := by
    have hpowers := pow_mul_pow_sub (16 : ℚ) places fractionDigits
    rw [magnitude_eq_shown, Nat.pow_eq, Nat.pow_eq]
    push_cast
    rw [div_eq_div_iff (div_ne_zero hexponent (hsixteen _)) (hsixteen _)]
    field_simp
    rw [mul_assoc, mul_comm ((16 : ℚ) ^ (fractionDigits - places)), hpowers,
      mul_comm ((16 : ℚ) ^ (places - fractionDigits)), ← mul_assoc]
  rw [hunits]
  exact hnearest

/-- Of the number that is rounded no more than two is before the point. -/
theorem rounded_le (v : Binary64) (places : Nat) : rounded v places ≤ 2 * 16 ^ places := by
  have hlt := v.significand_lt
  have hup := (roundHalfEven_bounds (v.significand * Nat.pow 16 (places - fractionDigits))
    (Nat.pow 16 (fractionDigits - places))).2
  rw [Nat.pow_eq, Nat.pow_eq] at hup
  have hbelow : v.significand * 16 ^ (places - fractionDigits) / 16 ^ (fractionDigits - places) <
      2 * 16 ^ places := by
    have hall : (2 : Nat) ^ 53 = 2 * 16 ^ fractionDigits := rfl
    rw [Nat.div_lt_iff_lt_mul (Nat.pow_pos (by decide)), Nat.mul_assoc, pow_mul_pow_sub,
      Nat.mul_left_comm, ← hall, Nat.mul_comm]
    exact Nat.mul_lt_mul_of_pos_left hlt (Nat.pow_pos (by decide))
  rw [rounded]
  exact Nat.le_trans hup hbelow

/-- The digit before the point is zero, one or two. -/
theorem numeral_whole (v : Binary64) (precision : Option Nat) (alternate : Bool) :
    ∃ lead ≤ 2, (numeral v precision alternate).whole = [lead] := by
  have hle : (digits v precision).1 ≤ 2 * 16 ^ (digits v precision).2 := by
    cases precision with
    | some places => exact rounded_le v places
    | none =>
      obtain ⟨hle, hvalue, _⟩ := trimmed_spec v.significand fractionDigits
      have hlt := v.significand_lt
      have hall : (2 : Nat) ^ 53 = 2 * 16 ^ fractionDigits := rfl
      rw [hall, hvalue, ← pow_sub_mul_pow 16 hle, Nat.mul_left_comm, Nat.mul_comm] at hlt
      exact Nat.le_of_lt (Nat.lt_of_mul_lt_mul_left hlt)
  have hlead := Nat.div_le_of_le_mul (Nat.mul_comm 2 _ ▸ hle)
  exact ⟨_, hlead, Digits.inBase_of_lt (by omega)⟩

end Rounded

/-- A numeral is a magnitude in hexadecimal digits, exact or rounded to a precision. -/
structure IsHexadecimal (precision : Option Nat) (q : ℚ) (n : Numeral) : Prop where
  /-- The exponent is that of the first bit of the magnitude but not below -1022, and zero for
  zero. -/
  exponent : n.exponent = some (if q = 0 then 0 else max (Int.log 2 q) (-1022))
  /-- There is one digit before the point, zero, one or two. -/
  lead : ∃ lead ≤ 2, n.whole = [lead]
  /-- Without a precision the magnitude is written exactly, and the fraction does not end with a
  zero. -/
  exact : precision = none → n.value .hexadecimal = q ∧ n.IsTrimmed
  /-- With a precision as many digits stand behind the point, and the nearest multiple of the last
  place is written, of two the even one. -/
  nearest : ∀ p, precision = some p → (n.fraction.getD []).length = p ∧
    ∃ m : Nat, n.value .hexadecimal = m * ((2 : ℚ) ^ n.exponent.getD 0 / 16 ^ p) ∧
      IsNearestEven (q / ((2 : ℚ) ^ n.exponent.getD 0 / 16 ^ p)) m

theorem shownExponent_eq (v : Binary64) :
    shownExponent v = if v.magnitude = 0 then 0 else max (Int.log 2 v.magnitude) (-1022) := by
  rw [shownExponent]
  cases hv : v.isZero with
  | true => rw [if_pos rfl, if_pos (Binary64.magnitude_eq_zero.mpr hv)]
  | false =>
    rw [if_neg Bool.false_ne_true, if_neg (Binary64.magnitude_pos hv).ne', Binary64.exponent_eq hv]

theorem isHexadecimal_numeral (v : Binary64) (precision : Option Nat) (alternate : Bool) :
    IsHexadecimal precision v.magnitude (numeral v precision alternate) := by
  refine ⟨congrArg some (shownExponent_eq v), numeral_whole v precision alternate, ?_, ?_⟩
  · rintro rfl
    exact ⟨value_numeral_exact v alternate, numeral_exact_isTrimmed v alternate⟩
  · rintro p rfl
    have hvalue := value_numeral v (some p) alternate
    have hfraction := fraction_ofInteger 16 p alternate (some (shownExponent v)) (rounded v p)
    refine ⟨?_, rounded v p, ?_, isNearestEven_rounded v p⟩
    · exact (congrArg List.length hfraction).trans (Digits.length_lowest 16 p _)
    · exact hvalue.trans (div_mul_eq_mul_div _ _ _ |>.trans (mul_div_assoc _ _ _))

end Hexadecimal

end FormattedText
