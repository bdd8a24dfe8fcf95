import FormattedText.Number.Decimal
import FormattedText.Proofs.Number.Magnitude
import FormattedText.Proofs.Number.Numeral
import FormattedText.Proofs.Number.Rounding

/-!
# Decimal digits of a floating-point number

A number is rounded to `P` significant digits as a multiple of the unit of the last of them
(`IsRoundedTo`); the exponent of ten of its first digit is found first
(`Decimal.floorExponent_eq`), and a carry out of this digit is a power of ten
(`Decimal.rounds_of_carry`). The texts of the three forms are numerals; that of the general form
writes the rounded number in the style that its exponent asks for
(`Decimal.isGeneral_generalNumeral`).
-/

namespace FormattedText

/-- The unit of the last of `P` significant digits of a number. -/
def significantUnit (P : Nat) (q : ℚ) : ℚ := (10 : ℚ) ^ (Int.log 10 q + 1 - P)

/-- The number is the other one rounded to `P` significant digits, a tie going to the even one. -/
def IsRoundedTo (P : Nat) (q r : ℚ) : Prop :=
  ∃ n : Nat, r = n * significantUnit P q ∧ IsNearestEven (q / significantUnit P q) n

theorem significantUnit_pos (P : Nat) (q : ℚ) : 0 < significantUnit P q :=
  zpow_pos (by norm_num) _

/-- A number is rounded in one way only. -/
theorem IsRoundedTo.unique {P : Nat} {q r s : ℚ} (hr : IsRoundedTo P q r) (hs : IsRoundedTo P q s) :
    r = s := by
  obtain ⟨m, rfl, hm⟩ := hr
  obtain ⟨n, rfl, hn⟩ := hs
  have hmn : (m : ℤ) = n := hm.unique hn
  rw [Int.ofNat_inj.mp hmn]

/-- The exponent of the first digit by the powers of ten around a number. -/
theorem log_eq_of_bounds {r : ℚ} {e : ℤ} (hlow : (10 : ℚ) ^ e ≤ r)
    (hhigh : r < (10 : ℚ) ^ (e + 1)) :
    Int.log 10 r = e := by
  have hpos : 0 < r := lt_of_lt_of_le (zpow_pos (by norm_num) e) hlow
  have hle := (Int.zpow_le_iff_le_log (b := 10) (by decide) hpos).mp (by exact_mod_cast hlow)
  have hlt := (Int.lt_zpow_iff_log_lt (b := 10) (by decide) hpos).mp (by exact_mod_cast hhigh)
  omega

namespace Decimal

section Exponent

variable {num den : Nat}

/-- A number lies between the powers of ten of its digits. -/
theorem decimalLength_bounds (hn : 0 < num) :
    10 ^ (Digits.decimalLength num - 1) ≤ num ∧ num < 10 ^ Digits.decimalLength num := by
  rw [Digits.decimalLength, Digits.length_inBase (by decide), Nat.add_sub_cancel]
  exact ⟨Nat.pow_log_le_self 10 (Nat.ne_of_gt hn), Nat.lt_pow_succ_log_self (by decide) num⟩

theorem decimalLength_pos (n : Nat) : 0 < Digits.decimalLength n := by
  rw [Digits.decimalLength, Digits.length_inBase (by decide)]
  exact Nat.succ_pos _

/-- The exponent of the first digit of a positive fraction. -/
theorem floorExponent_eq (hnum : 0 < num) (hden : 0 < den) :
    floorExponent num den = Int.log 10 ((num : ℚ) / den) := by
  have hpos : (0 : ℚ) < den := by exact_mod_cast hden
  rw [floorExponent]
  symm
  by_cases hle : den ≤ num
  · rw [if_pos hle]
    obtain ⟨hlow, hhigh⟩ := decimalLength_bounds (Nat.div_pos hle hden)
    have hlength := decimalLength_pos (num / den)
    generalize Digits.decimalLength (num / den) = k at *
    have hexponent : (k : Int) - 1 = (k - 1 : Nat) := by omega
    refine log_eq_of_bounds ?_ ?_
    · rw [hexponent, zpow_natCast, le_div_iff₀ hpos]
      exact_mod_cast (Nat.le_div_iff_mul_le hden).mp hlow
    · rw [sub_add_cancel, zpow_natCast, div_lt_iff₀ hpos]
      exact_mod_cast (Nat.div_lt_iff_lt_mul hden).mp hhigh
  · rw [if_neg hle]
    have hbelow : 0 < (den - 1) / num := Nat.div_pos (by omega) hnum
    obtain ⟨hlow, hhigh⟩ := decimalLength_bounds hbelow
    have hlength := decimalLength_pos ((den - 1) / num)
    generalize Digits.decimalLength ((den - 1) / num) = k at *
    have hexponent : -(k : Int) + 1 = -((k - 1 : Nat) : Int) := by omega
    have hten (i : Nat) : (0 : ℚ) < 10 ^ i := pow_pos (by norm_num) i
    refine log_eq_of_bounds ?_ ?_
    · rw [zpow_neg, zpow_natCast, inv_le_iff_one_le_mul₀ (hten k), div_mul_eq_mul_div,
        one_le_div hpos]
      have hmul := (Nat.div_lt_iff_lt_mul hnum).mp hhigh
      have hle : den ≤ num * 10 ^ k := by
        rw [Nat.mul_comm]
        omega
      exact_mod_cast hle
    · rw [hexponent, zpow_neg, zpow_natCast, lt_inv_comm₀ (div_pos (by exact_mod_cast hnum) hpos)
        (hten _), inv_div, lt_div_iff₀ (by exact_mod_cast hnum)]
      have hmul := (Nat.le_div_iff_mul_le hnum).mp hlow
      have hlt : 10 ^ (k - 1) * num < den := by omega
      exact_mod_cast hlt

/-- A fraction in units of a power of ten is rounded to the nearest integer. -/
theorem isNearestEven_scaled (num : Nat) (hden : 0 < den) (e : ℤ) :
    IsNearestEven ((num : ℚ) / den / (10 : ℚ) ^ e) (scaled num den e) := by
  have hten (i : Nat) : (10 : ℚ) ^ i ≠ 0 := pow_ne_zero i (by norm_num)
  have hfraction : (num : ℚ) / den / (10 : ℚ) ^ e =
      ((num * Nat.pow 10 (-e).toNat : Nat) : ℚ) / ((den * Nat.pow 10 e.toNat : Nat) : ℚ) := by
    rw [zpow_eq_div (by norm_num), Nat.pow_eq, Nat.pow_eq]
    push_cast
    rw [div_div_div_eq]
  rw [hfraction]
  exact isNearestEven_roundHalfEven _ (Nat.mul_pos hden (Nat.pow_pos (by decide)))

end Exponent

section Rounding

variable {v : Binary64} {P : Nat} {q : ℚ} {s : Scientific}

/-- The number that digits with an exponent write, `P` of them. -/
def Scientific.value (s : Scientific) (P : Nat) : ℚ := s.digits * (10 : ℚ) ^ (s.exponent + 1 - P)

/-- Digits with an exponent are a number rounded to `P` significant digits. -/
structure Scientific.Rounds (s : Scientific) (P : Nat) (q : ℚ) : Prop where
  /-- They are the nearest ones in units of the last of them. -/
  nearest : IsNearestEven (q / (10 : ℚ) ^ (s.exponent + 1 - P)) s.digits
  /-- They are also the nearest ones in units of the last digit of the number. -/
  rounded : IsRoundedTo P q (s.value P)
  /-- The first digit is not zero. -/
  low : 10 ^ (P - 1) ≤ s.digits
  /-- There are no more digits. -/
  high : s.digits < 10 ^ P

/-- The exponent is that of the first digit. -/
theorem Scientific.Rounds.log_value (h : s.Rounds P q) (hP : 0 < P) :
    Int.log 10 (s.value P) = s.exponent := by
  have hunit : (0 : ℚ) < (10 : ℚ) ^ (s.exponent + 1 - P) := zpow_pos (by norm_num) _
  have hlow : (10 : ℚ) ^ (P - 1) ≤ s.digits := by exact_mod_cast h.low
  have hhigh : (s.digits : ℚ) < (10 : ℚ) ^ P := by exact_mod_cast h.high
  refine log_eq_of_bounds ?_ ?_
  · have hsplit : s.exponent = ((P - 1 : Nat) : ℤ) + (s.exponent + 1 - P) := by omega
    conv_lhs => rw [hsplit, zpow_add₀ (by norm_num), zpow_natCast]
    exact mul_le_mul_of_nonneg_right hlow hunit.le
  · have hsplit : s.exponent + 1 = (P : ℤ) + (s.exponent + 1 - P) := by omega
    conv_rhs => rw [hsplit, zpow_add₀ (by norm_num), zpow_natCast]
    exact mul_lt_mul_of_pos_right hhigh hunit

/-- In units of the last of `P` digits a positive number has `P` digits before its point. -/
theorem units_bounds (hP : 0 < P) (hq : 0 < q) :
    (10 : ℚ) ^ (P - 1) ≤ q / significantUnit P q ∧ q / significantUnit P q < (10 : ℚ) ^ P := by
  have hunit := significantUnit_pos P q
  have hlow := Int.zpow_log_le_self (b := 10) (by decide) hq
  have hhigh := Int.lt_zpow_succ_log_self (b := 10) (by decide) q
  push_cast at hlow hhigh
  rw [le_div_iff₀ hunit, div_lt_iff₀ hunit, significantUnit, ← zpow_natCast, ← zpow_natCast,
    ← zpow_add₀ (by norm_num), ← zpow_add₀ (by norm_num)]
  have hfirst : ((P - 1 : Nat) : ℤ) + (Int.log 10 q + 1 - P) = Int.log 10 q := by omega
  have hnext : (P : ℤ) + (Int.log 10 q + 1 - P) = Int.log 10 q + 1 := by omega
  rw [hfirst, hnext]
  exact ⟨hlow, hhigh⟩

/-- A carry out of the first digit is written with one digit less and the next exponent. -/
theorem rounds_of_carry (hP : 0 < P) {e : ℤ}
    (hnearest : IsNearestEven (q / (10 : ℚ) ^ (e + 1 - P)) (10 ^ P : Nat))
    (hunit : significantUnit P q = (10 : ℚ) ^ (e + 1 - P)) :
    (⟨10 ^ (P - 1), e + 1⟩ : Scientific).Rounds P q := by
  have hten : (10 : ℚ) ≠ 0 := by norm_num
  have hpower : 10 ^ P = 10 * 10 ^ (P - 1) := by
    rw [← pow_succ', Nat.sub_add_cancel hP]
  have hnext : (10 : ℚ) ^ (e + 1 + 1 - P) = (10 : ℚ) ^ (e + 1 - P) * 10 := by
    rw [← zpow_add_one₀ hten]
    congr 1
    omega
  refine ⟨?_, ⟨10 ^ P, ?_, ?_⟩, Nat.le_refl _, ?_⟩
  · rw [hpower] at hnearest
    push_cast at hnearest ⊢
    rw [hnext, ← div_div]
    exact hnearest.div (by decide)
  · rw [Scientific.value, hnext, hunit, hpower]
    push_cast
    ring
  · rw [hunit]
    exact hnearest
  · exact Nat.pow_lt_pow_right (by decide) (by omega)

/-- The digits of a number that is not zero. -/
theorem scientific_rounds (hP : 0 < P) (hv : v.isZero = false) :
    (scientific v (P - 1)).Rounds P v.magnitude := by
  have hpos := Binary64.magnitude_pos hv
  have hnum : 0 < v.numerator := by
    rw [Nat.pos_iff_ne_zero]
    intro hzero
    rw [Binary64.magnitude_eq, hzero, Nat.cast_zero, zero_div] at hpos
    exact lt_irrefl 0 hpos
  have hlog := floorExponent_eq hnum v.denominator_pos
  rw [← Binary64.magnitude_eq] at hlog
  have hexponent : Int.log 10 v.magnitude - ((P - 1 : Nat) : ℤ) =
      Int.log 10 v.magnitude + 1 - P := by omega
  have hnearest := isNearestEven_scaled v.numerator v.denominator_pos
    (Int.log 10 v.magnitude + 1 - P)
  obtain ⟨hlow, hhigh⟩ := units_bounds hP hpos
  rw [← Binary64.magnitude_eq] at hnearest
  rw [scientific, if_neg (by rw [hv]; exact Bool.false_ne_true), Nat.pow_eq, Nat.pow_eq,
    Nat.sub_add_cancel hP]
  simp only [hlog, hexponent]
  generalize scaled v.numerator v.denominator (Int.log 10 v.magnitude + 1 - P) = n at hnearest
  by_cases hcarry : n = 10 ^ P
  · rw [if_pos hcarry]
    rw [hcarry] at hnearest
    exact rounds_of_carry hP hnearest rfl
  · rw [if_neg hcarry]
    have hle : n ≤ 10 ^ P := by
      exact_mod_cast hnearest.ge (m := (10 ^ P : Nat)) (by push_cast; exact hhigh.le)
    have hge : 10 ^ (P - 1) ≤ n := by
      exact_mod_cast hnearest.le (m := (10 ^ (P - 1) : Nat)) (by push_cast; exact hlow)
    exact ⟨hnearest, ⟨n, rfl, hnearest⟩, hge, Nat.lt_of_le_of_ne hle hcarry⟩

end Rounding

section Forms

open Numeral

variable {v : Binary64} {P : Nat} {alternate : Bool}

/-- Zero has the digit zero and the exponent zero. -/
theorem scientific_zero (hv : v.isZero = true) (places : Nat) : scientific v places = ⟨0, 0⟩ := by
  rw [scientific, if_pos hv]

/-- The digits are the number rounded to as many digits, also where it is zero. -/
theorem isRoundedTo_scientific (hP : 0 < P) (v : Binary64) :
    IsRoundedTo P v.magnitude ((scientific v (P - 1)).value P) := by
  cases hv : v.isZero with
  | false => exact (scientific_rounds hP hv).rounded
  | true =>
    rw [scientific_zero hv, Binary64.magnitude_eq_zero.mpr hv]
    refine ⟨0, ?_, ?_⟩
    · rw [Scientific.value, Nat.cast_zero, zero_mul, zero_mul]
    · have hzero := isNearestEven_roundHalfEven 0 Nat.one_pos
      rw [roundHalfEven_one, Nat.cast_zero, zero_div] at hzero
      rw [zero_div]
      exact hzero

/-- The exponent that chooses the style is that of the rounded number. -/
theorem log_value_scientific (hP : 0 < P) (v : Binary64) :
    Int.log 10 ((scientific v (P - 1)).value P) = (scientific v (P - 1)).exponent := by
  cases hv : v.isZero with
  | false => exact (scientific_rounds hP hv).log_value hP
  | true =>
    rw [scientific_zero hv, Scientific.value, Nat.cast_zero, zero_mul]
    exact Int.log_zero_right 10

/-- Rounding to the number of decimals that the exponent leaves gives the same digits, also where a
carry has changed the exponent. -/
theorem roundHalfEven_decimals (hP : 0 < P) {D : Nat}
    (hD : (D : ℤ) = P - 1 - (scientific v (P - 1)).exponent) :
    roundHalfEven (v.numerator * Nat.pow 10 D) v.denominator = (scientific v (P - 1)).digits := by
  have hten (i : Nat) : (10 : ℚ) ^ i ≠ 0 := pow_ne_zero i (by norm_num)
  have hnearest := isNearestEven_roundHalfEven (v.numerator * Nat.pow 10 D) v.denominator_pos
  cases hv : v.isZero with
  | true =>
    have hnum : v.numerator = 0 := by
      rw [Binary64.numerator, Binary64.isZero_iff.mp hv, Nat.zero_mul]
    rw [scientific_zero hv, hnum, Nat.zero_mul, roundHalfEven, Nat.zero_div, Nat.zero_mod]
    have hden := v.denominator_pos
    rw [if_neg (by omega)]
  | false =>
    have hscaled : ((v.numerator * Nat.pow 10 D : Nat) : ℚ) / v.denominator =
        v.magnitude / (10 : ℚ) ^ ((scientific v (P - 1)).exponent + 1 - P) := by
      have hexponent : (scientific v (P - 1)).exponent + 1 - P = -(D : ℤ) := by omega
      rw [hexponent, zpow_neg, zpow_natCast, div_inv_eq_mul, Binary64.magnitude_eq, Nat.pow_eq]
      push_cast
      rw [div_mul_eq_mul_div]
    rw [hscaled] at hnearest
    exact_mod_cast hnearest.unique (scientific_rounds hP hv).nearest

/-- An integer with a point and an exponent in decimal digits. -/
theorem write_decimal (places : Nat) (alternate : Bool) (exponent : Option Int) (n : Nat) :
    Style.decimal.write (ofInteger 10 places alternate exponent n) =
      placePoint places alternate (Digits.text 10 n) ++
        exponent.elim [] (exponentText exponentMarker · 2) :=
  write_ofInteger (by decide : 2 ≤ Style.decimal.base) places alternate exponent n

/-- The numeral of the exponential form. -/
def exponentialNumeral (v : Binary64) (places : Nat) (alternate : Bool) : Numeral :=
  ofInteger 10 places alternate (some (scientific v places).exponent) (scientific v places).digits

theorem exponential_eq (v : Binary64) (places : Nat) (alternate : Bool) :
    exponential v places alternate =
      Style.decimal.write (exponentialNumeral v places alternate) := by
  rw [exponentialNumeral, write_decimal]
  rfl

/-- The numeral of the form without an exponent. -/
def fixedNumeral (v : Binary64) (places : Nat) (alternate : Bool) : Numeral :=
  ofInteger 10 places alternate none
    (roundHalfEven (v.numerator * Nat.pow 10 places) v.denominator)

theorem fixed_eq (v : Binary64) (places : Nat) (alternate : Bool) :
    fixed v places alternate = Style.decimal.write (fixedNumeral v places alternate) := by
  rw [fixedNumeral, write_decimal, Option.elim_none, List.append_nil]
  rfl

/-- The exponential form writes the number that it is rounded to. -/
theorem value_exponentialNumeral (hP : 0 < P) (v : Binary64) (alternate : Bool) :
    (exponentialNumeral v (P - 1) alternate).value .decimal = (scientific v (P - 1)).value P := by
  have hten : (10 : ℚ) ≠ 0 := by norm_num
  have hexponent : (scientific v (P - 1)).exponent + 1 - P =
      (scientific v (P - 1)).exponent - ((P - 1 : Nat) : ℤ) := by omega
  have hvalue := value_ofInteger (by decide : 2 ≤ Style.decimal.base) (P - 1) alternate
    (some (scientific v (P - 1)).exponent) (scientific v (P - 1)).digits
  refine hvalue.trans ?_
  rw [Scientific.value, hexponent, zpow_sub₀ hten, zpow_natCast, div_mul_eq_mul_div, mul_div_assoc]
  rfl

/-- A numeral as it is, or without the zeros at the end of its fraction. -/
def finished (alternate : Bool) (n : Numeral) : Numeral :=
  if alternate then n else n.withoutZeros

/-- The numeral of the general form with `P` significant digits. -/
def generalNumeral (v : Binary64) (P : Nat) (alternate : Bool) : Numeral :=
  let s := scientific v (P - 1)
  finished alternate
    (if s.exponent < -4 ∨ (P : ℤ) ≤ s.exponent then
      ofInteger 10 (P - 1) alternate (some s.exponent) s.digits
    else ofInteger 10 ((P : ℤ) - 1 - s.exponent).toNat alternate none s.digits)

/-- Finishing the fraction of a text, with the exponent behind it, finishes its numeral. -/
theorem finishFraction_placePoint (places : Nat) (alternate : Bool) (exponent : Option Int)
    (n : Nat) :
    finishFraction alternate (placePoint places alternate (Digits.text 10 n)) ++
        exponent.elim [] (exponentText exponentMarker · 2) =
      Style.decimal.write (finished alternate (ofInteger 10 places alternate exponent n)) := by
  rw [finishFraction, finished]
  cases alternate with
  | true => exact (write_decimal places true exponent n).symm
  | false =>
    have hstripped := @stripZeros_write 10 .decimal (ofInteger 10 places false none n)
      (by decide) (isIn_ofInteger (by decide)) rfl
    rw [write_decimal, Option.elim_none, List.append_nil] at hstripped
    simp only [Bool.false_eq_true, ite_false]
    rw [hstripped]
    exact (Style.write_exponent .decimal (ofInteger 10 places false exponent n).withoutZeros).symm

theorem general_eq (v : Binary64) (precision : Nat) (alternate : Bool) :
    general v precision alternate =
      Style.decimal.write (generalNumeral v (max precision 1) alternate) := by
  have hP : 0 < max precision 1 := Nat.lt_of_lt_of_le Nat.one_pos (Nat.le_max_right _ _)
  simp only [general, generalNumeral]
  generalize max precision 1 = P at hP
  by_cases hstyle : (scientific v (P - 1)).exponent < -4 ∨ (P : ℤ) ≤ (scientific v (P - 1)).exponent
  · rw [if_pos hstyle, if_pos hstyle]
    exact finishFraction_placePoint (P - 1) alternate (some (scientific v (P - 1)).exponent)
      (scientific v (P - 1)).digits
  · rw [if_neg hstyle, if_neg hstyle, fixed]
    have hD : (((P : ℤ) - 1 - (scientific v (P - 1)).exponent).toNat : ℤ) =
        P - 1 - (scientific v (P - 1)).exponent := by omega
    rw [roundHalfEven_decimals hP hD, ← finishFraction_placePoint, Option.elim_none,
      List.append_nil]

theorem isIn_finished {n : Numeral} (hn : n.IsIn 10) (alternate : Bool) :
    (finished alternate n).IsIn 10 := by
  cases alternate with
  | true => exact hn
  | false => exact hn.withoutZeros

theorem isIn_generalNumeral (v : Binary64) (P : Nat) (alternate : Bool) :
    (generalNumeral v P alternate).IsIn 10 := by
  refine isIn_finished ?_ alternate
  split
  · exact isIn_ofInteger (by decide)
  · exact isIn_ofInteger (by decide)

/-- A numeral is a number rounded to `P` significant digits in the style that its exponent asks
for. -/
structure IsGeneral (P : Nat) (alternate : Bool) (q r : ℚ) (n : Numeral) : Prop where
  /-- The number that is written is the rounded one. -/
  rounded : IsRoundedTo P q r
  /-- The numeral writes it. -/
  value : n.value .decimal = r
  /-- There is an exponent, which is that of the first digit, where this is below -4 or not below
  the number of digits. -/
  exponent : n.exponent = if Int.log 10 r < -4 ∨ P ≤ Int.log 10 r then some (Int.log 10 r) else none
  /-- Before the point stand all digits of the whole part. -/
  whole : n.whole = Digits.inBase 10 ⌊r / (10 : ℚ) ^ n.exponent.getD 0⌋₊
  /-- In the alternative form the point is shown and `P` significant digits, or of zero `P`
  digits. -/
  shown : alternate = true → ∃ ds, n.fraction = some ds ∧
    (if q = 0 then n.whole ++ ds else (n.whole ++ ds).dropWhile (· == 0)).length = P
  /-- Otherwise the fraction does not end with a zero, and the point has digits behind it. -/
  trimmed : alternate = false → n.IsTrimmed ∧ n.fraction ≠ some []

/-- Finishing changes neither the value nor the whole part nor the exponent. -/
theorem finished_eq (alternate : Bool) (n : Numeral) :
    (finished alternate n).value .decimal = n.value .decimal ∧
      (finished alternate n).whole = n.whole ∧ (finished alternate n).exponent = n.exponent := by
  cases alternate with
  | true => exact ⟨rfl, rfl, rfl⟩
  | false => exact ⟨value_withoutZeros (by decide : 0 < Style.decimal.base) n, rfl, rfl⟩

/-- A finished integer has the style of the general form, if its value and its digits are right. -/
theorem isGeneral_finished {q r : ℚ} {places N : Nat} {e : Option Int}
    (hrounded : IsRoundedTo P q r)
    (hvalue : (N : ℚ) / (10 : ℚ) ^ places * (10 : ℚ) ^ e.getD 0 = r)
    (hexponent : e = if Int.log 10 r < -4 ∨ P ≤ Int.log 10 r then some (Int.log 10 r) else none)
    (hdigits : if q = 0 then N = 0 ∧ places + 1 = P else 10 ^ (P - 1) ≤ N ∧ N < 10 ^ P)
    (hP : 0 < P) :
    IsGeneral P alternate q r (finished alternate (ofInteger 10 places alternate e N)) := by
  have hten : (10 : ℚ) ≠ 0 := by norm_num
  obtain ⟨hsame, hwhole, he⟩ := finished_eq alternate (ofInteger 10 places alternate e N)
  have hwritten := value_ofInteger (by decide : 2 ≤ Style.decimal.base) places alternate e N
  refine ⟨hrounded, hsame.trans (hwritten.trans hvalue), he.trans hexponent, ?_, ?_, ?_⟩
  · have hpart : r / (10 : ℚ) ^ e.getD 0 = (N : ℚ) / (10 : ℚ) ^ places := by
      rw [← hvalue, mul_div_cancel_right₀ _ (zpow_ne_zero _ hten)]
    have hinteger := whole_ofInteger 10 places alternate e N
    rw [he, hwhole, hinteger]
    exact congrArg (fun x => Digits.inBase 10 ⌊x⌋₊) hpart.symm
  · rintro rfl
    refine ⟨Digits.lowest 10 places N, if_neg fun h => h.2 rfl, ?_⟩
    by_cases hq : q = 0
    · rw [if_pos hq] at hdigits ⊢
      obtain ⟨rfl, hplaces⟩ := hdigits
      rw [List.length_append, Digits.length_lowest]
      change (Digits.inBase 10 (0 / 10 ^ places)).length + places = P
      rw [Nat.zero_div, Digits.inBase_of_lt (by decide), Nat.add_comm]
      exact hplaces
    · rw [if_neg hq] at hdigits ⊢
      have hpos : 0 < N := Nat.lt_of_lt_of_le (Nat.pow_pos (by decide)) hdigits.1
      have hsucc : P - 1 + 1 = P := Nat.sub_add_cancel hP
      have hlength := Digits.length_inBase_of_bounds (by decide : 2 ≤ 10) hdigits.1
        (hsucc.symm ▸ hdigits.2)
      have hall := Digits.significant_append_lowest (by decide : 2 ≤ 10) places hpos
      exact (congrArg List.length hall).trans (hlength.trans hsucc)
  · rintro rfl
    exact withoutZeros_isTrimmed _

/-- The general form writes the number rounded to `P` significant digits. -/
theorem isGeneral_generalNumeral (hP : 0 < P) (v : Binary64) (alternate : Bool) :
    IsGeneral P alternate v.magnitude ((scientific v (P - 1)).value P)
      (generalNumeral v P alternate) := by
  have hrounded := isRoundedTo_scientific hP v
  have hlog := log_value_scientific hP v
  have hexponential := value_exponentialNumeral hP v alternate
  have hdigits (places : Nat) (hzero : v.isZero = true → places + 1 = P) :
      if v.magnitude = 0 then (scientific v (P - 1)).digits = 0 ∧ places + 1 = P
      else 10 ^ (P - 1) ≤ (scientific v (P - 1)).digits ∧
        (scientific v (P - 1)).digits < 10 ^ P := by
    cases hv : v.isZero with
    | true =>
      rw [if_pos (Binary64.magnitude_eq_zero.mpr hv), scientific_zero hv]
      exact ⟨rfl, hzero hv⟩
    | false =>
      rw [if_neg (Binary64.magnitude_pos hv).ne']
      exact ⟨(scientific_rounds hP hv).low, (scientific_rounds hP hv).high⟩
  simp only [generalNumeral]
  by_cases hstyle : (scientific v (P - 1)).exponent < -4 ∨
      (P : ℤ) ≤ (scientific v (P - 1)).exponent
  · rw [if_pos hstyle]
    refine isGeneral_finished hrounded ?_ ?_ (hdigits (P - 1) fun _ => Nat.sub_add_cancel hP) hP
    · rw [exponentialNumeral] at hexponential
      exact (value_ofInteger (by decide : 2 ≤ Style.decimal.base) _ alternate _ _).symm.trans
        hexponential
    · rw [hlog, if_pos hstyle]
  · rw [if_neg hstyle]
    refine isGeneral_finished hrounded ?_ ?_ (hdigits _ fun hv => ?_) hP
    · have hplaces : (scientific v (P - 1)).exponent + 1 - P =
          -(((P : ℤ) - 1 - (scientific v (P - 1)).exponent).toNat : ℤ) := by omega
      rw [Option.getD_none, zpow_zero, mul_one, Scientific.value, hplaces, zpow_neg, zpow_natCast,
        div_eq_mul_inv]
    · rw [hlog, if_neg hstyle]
    · rw [scientific_zero hv]
      change ((P : ℤ) - 1 - 0).toNat + 1 = P
      omega

end Forms

end Decimal

end FormattedText
