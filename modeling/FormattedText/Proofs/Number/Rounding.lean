import FormattedText.Number.Rounding
import Mathlib.Algebra.Ring.Int.Parity
import Mathlib.Data.Rat.Floor
import Mathlib.Tactic.FieldSimp
import Mathlib.Tactic.Linarith

/-!
# Rounding to the nearest integer

The integer nearest to a rational number, a tie going to the even one, is said as it is: no integer
is nearer, and if another one is as near, it is even (`IsNearestEven`). There is exactly one, an
integer at a distance of at most a half (`isNearestEven_iff`), and rounding a fraction by its
quotient and its remainder gives it (`isNearestEven_roundHalfEven`).
-/

namespace FormattedText

/-- No integer is nearer to a number, and none but itself is as near unless it is even. -/
structure IsNearestEven (x : ℚ) (n : ℤ) : Prop where
  /-- No integer is nearer. -/
  nearest : ∀ m : ℤ, |x - n| ≤ |x - m|
  /-- Where two integers are equally near, it is the even one. -/
  even_of_tie : ∀ m : ℤ, m ≠ n → |x - m| = |x - n| → Even n

section Nearest

variable {x : ℚ} {m n : ℤ}

/-- Integers lie at least one apart. -/
theorem one_le_distance (h : m ≠ n) : (1 : ℚ) ≤ |x - m| + |x - n| := by
  have hint : (1 : ℤ) ≤ |n - m| := Int.one_le_abs (sub_ne_zero.mpr h.symm)
  have hrat : (1 : ℚ) ≤ |(n : ℚ) - m| := by exact_mod_cast hint
  have hsub : |(n : ℚ) - m| ≤ |x - m| + |x - n| := by
    have heq : (n : ℚ) - m = (x - m) - (x - n) := by ring
    rw [heq]
    exact abs_sub (x - m : ℚ) (x - n)
  linarith

/-- No number is farther than a half from the nearest integer. -/
theorem IsNearestEven.distance_le (h : IsNearestEven x n) : |x - n| ≤ 1 / 2 := by
  have habove := h.nearest (n + 1)
  have hbelow := h.nearest (n - 1)
  push_cast at habove hbelow
  by_contra hfar
  rcases lt_abs.mp (not_le.mp hfar) with hpos | hneg
  · have hnearer : |x - (n + 1)| < x - n := abs_lt.mpr ⟨by linarith, by linarith⟩
    linarith [le_abs_self (x - n)]
  · have hnearer : |x - (n - 1)| < -(x - n) := abs_lt.mpr ⟨by linarith, by linarith⟩
    linarith [neg_le_abs (x - n)]

/-- At a distance of a half there is another integer at the same distance. -/
theorem exists_tie (h : |x - n| = 1 / 2) : ∃ m : ℤ, m ≠ n ∧ |x - m| = |x - n| := by
  rcases (abs_eq (by norm_num)).mp h with hpos | hneg
  · refine ⟨n + 1, by omega, ?_⟩
    rw [h, abs_eq (by norm_num)]
    push_cast
    right
    linarith
  · refine ⟨n - 1, by omega, ?_⟩
    rw [h, abs_eq (by norm_num)]
    push_cast
    left
    linarith

/-- An integer at a distance of at most a half is the nearest, the even one of two. -/
theorem isNearestEven_iff :
    IsNearestEven x n ↔ |x - n| ≤ 1 / 2 ∧ (|x - n| = 1 / 2 → Even n) := by
  constructor
  · intro h
    refine ⟨h.distance_le, fun htie => ?_⟩
    obtain ⟨m, hm, hequal⟩ := exists_tie htie
    exact h.even_of_tie m hm hequal
  · rintro ⟨hhalf, htie⟩
    refine ⟨fun m => ?_, fun m hm hequal => htie ?_⟩
    · by_cases hm : m = n
      · rw [hm]
      · have hone := @one_le_distance x m n hm
        linarith
    · have hone := @one_le_distance x m n hm
      linarith

/-- There is only one nearest integer. -/
theorem IsNearestEven.unique (hm : IsNearestEven x m) (hn : IsNearestEven x n) : m = n := by
  by_contra hne
  have hmHalf := hm.distance_le
  have hnHalf := hn.distance_le
  have hone := @one_le_distance x m n hne
  have hequal : |x - m| = |x - n| := by linarith
  have hmEven := hm.even_of_tie n (Ne.symm hne) hequal.symm
  have hnEven := hn.even_of_tie m hne hequal
  -- both lie at a distance of a half, so one apart, and cannot both be even
  have hdistance : |(m : ℚ) - n| ≤ 1 := by
    have heq : (m : ℚ) - n = (x - n) - (x - m) := by ring
    rw [heq]
    exact le_trans (abs_sub (x - n : ℚ) (x - m)) (by linarith)
  have hint : |m - n| ≤ 1 := by exact_mod_cast hdistance
  obtain ⟨i, rfl⟩ := hmEven
  obtain ⟨j, rfl⟩ := hnEven
  rw [abs_le] at hint
  omega

/-- A number that is not below an integer is not rounded below it. -/
theorem IsNearestEven.le (h : IsNearestEven x n) (hm : (m : ℚ) ≤ x) : m ≤ n := by
  by_contra hlt
  have hnext : (n : ℚ) + 1 ≤ m := by exact_mod_cast Int.not_le.mp hlt
  have hhalf := abs_le.mp h.distance_le
  linarith [hhalf.2]

/-- A number that is not above an integer is not rounded above it. -/
theorem IsNearestEven.ge (h : IsNearestEven x n) (hm : x ≤ m) : n ≤ m := by
  by_contra hlt
  have hnext : (m : ℚ) + 1 ≤ n := by exact_mod_cast Int.not_le.mp hlt
  have hhalf := abs_le.mp h.distance_le
  linarith [hhalf.1]

/-- Dividing a number that is close to a multiple of an integer leaves it close to the factor. -/
theorem IsNearestEven.div {k : ℤ} (hk : 2 ≤ k) (h : IsNearestEven x (k * n)) :
    IsNearestEven (x / k) n := by
  have hpos : (0 : ℚ) < k := by exact_mod_cast (by omega : (0 : ℤ) < k)
  have htwo : (2 : ℚ) ≤ k := by exact_mod_cast hk
  have hhalf := h.distance_le
  have hsplit : x / k - n = (x - (k * n : ℤ)) / k := by
    push_cast
    field_simp
  have hlt : |x / k - n| < 1 / 2 := by
    rw [hsplit, abs_div, abs_of_pos hpos, div_lt_iff₀ hpos]
    linarith
  exact isNearestEven_iff.mpr ⟨hlt.le, fun heq => absurd heq hlt.ne⟩

end Nearest

section Fractions

variable {num den : Nat}

/-- Rounding gives the quotient or the number after it. -/
theorem roundHalfEven_bounds (num den : Nat) :
    num / den ≤ roundHalfEven num den ∧ roundHalfEven num den ≤ num / den + 1 := by
  simp only [roundHalfEven]
  split <;> omega

theorem roundHalfEven_one (num : Nat) : roundHalfEven num 1 = num := by
  rw [roundHalfEven, Nat.div_one, Nat.mod_one]
  rfl

/-- A multiple of the denominator is rounded to its factor, whose parity counts in a tie. -/
theorem roundHalfEven_mul_add (hden : 0 < den) (a num : Nat) :
    roundHalfEven (a * den + num) den = a + (num / den +
      if den < 2 * (num % den) ∨ (2 * (num % den) = den ∧ (a + num / den) % 2 = 1) then 1
      else 0) := by
  have hdiv : (a * den + num) / den = a + num / den := by
    rw [Nat.mul_comm, Nat.mul_add_div hden]
  have hmod : (a * den + num) % den = num % den := Nat.mul_add_mod_self_right a den num
  simp only [roundHalfEven, hdiv, hmod]
  split
  · rw [Nat.add_assoc]
  · rw [Nat.add_zero]

/-- A fraction is the quotient and a part of the denominator. -/
theorem fraction_eq (hden : 0 < den) :
    (num : ℚ) / den = (num / den : Nat) + ((num % den : Nat) : ℚ) / den := by
  have hpos : (0 : ℚ) < den := by exact_mod_cast hden
  have hsplit : ((num / den : Nat) : ℚ) * den + (num % den : Nat) = num := by
    exact_mod_cast Nat.div_add_mod' num den
  field_simp
  linarith

/-- Rounding by the remainder gives the nearest integer. -/
theorem isNearestEven_of_remainder {q r : Nat} (hr : r < den) :
    IsNearestEven ((q : ℚ) + (r : ℚ) / den)
      (if den < 2 * r ∨ (2 * r = den ∧ q % 2 = 1) then q + 1 else q : Nat) := by
  have hden : 0 < den := Nat.zero_lt_of_lt hr
  have hpos : (0 : ℚ) < den := by exact_mod_cast hden
  have hnonneg : (0 : ℚ) ≤ (r : ℚ) / den := by positivity
  have hpart : (r : ℚ) / den < 1 := (div_lt_one hpos).mpr (by exact_mod_cast hr)
  have hmid : (r : ℚ) / den = 1 / 2 ↔ r * 2 = 1 * den := by
    rw [div_eq_div_iff hpos.ne' two_ne_zero]
    norm_cast
  rw [isNearestEven_iff]
  by_cases hup : den < 2 * r ∨ (2 * r = den ∧ q % 2 = 1)
  · rw [if_pos hup]
    have hhalf : 1 / 2 ≤ (r : ℚ) / den := by
      rw [div_le_div_iff₀ two_pos hpos]
      have hle : 1 * den ≤ r * 2 := by omega
      exact_mod_cast hle
    have hdistance : (q : ℚ) + (r : ℚ) / den - ((q + 1 : Nat) : ℤ) = -(1 - (r : ℚ) / den) := by
      push_cast
      ring
    rw [hdistance, abs_neg, abs_of_pos (by linarith)]
    refine ⟨by linarith, fun htie => ?_⟩
    have hexact := hmid.mp (by linarith)
    rw [Int.even_coe_nat, Nat.even_iff]
    omega
  · rw [if_neg hup]
    have hhalf : (r : ℚ) / den ≤ 1 / 2 := by
      rw [div_le_div_iff₀ hpos two_pos]
      have hle : r * 2 ≤ 1 * den := by omega
      exact_mod_cast hle
    have hdistance : (q : ℚ) + (r : ℚ) / den - (q : ℤ) = (r : ℚ) / den := by
      push_cast
      ring
    rw [hdistance, abs_of_nonneg hnonneg]
    refine ⟨hhalf, fun htie => ?_⟩
    have hexact := hmid.mp htie
    rw [Int.even_coe_nat, Nat.even_iff]
    omega

/-- Rounding a fraction gives the nearest integer. -/
theorem isNearestEven_roundHalfEven (num : Nat) (hden : 0 < den) :
    IsNearestEven ((num : ℚ) / den) (roundHalfEven num den) := by
  rw [fraction_eq hden]
  exact isNearestEven_of_remainder (Nat.mod_lt num hden)

end Fractions

end FormattedText
