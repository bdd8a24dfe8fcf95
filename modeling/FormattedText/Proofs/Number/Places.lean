import FormattedText.Number.Decimal
import FormattedText.Proofs.Number.Digits
import Mathlib.Algebra.Ring.Nat
import Mathlib.Data.Nat.Log

/-!
# Digits behind a point

The lowest `p` digits of a number, with the zeros that are missing (`Digits.lowest`), stand behind
the digits of what is left of it without them; the two together are the digits of the number, with
zeros before them if it has no more than `p` (`Digits.inBase_append_lowest`). So a text of digits
that is extended by zeros and has a point put into it shows these two
(`Decimal.placePoint_text`).
-/

namespace FormattedText

namespace Digits

variable {base n d p : Nat} {digits : List Nat}

/-- The number of digits is one more than the logarithm. -/
theorem length_inBase (hbase : 2 ≤ base) (n : Nat) :
    (inBase base n).length = Nat.log base n + 1 := by
  induction n using induction hbase with
  | digit n hn =>
    rw [inBase_of_lt hn, Nat.log_of_lt hn]
    rfl
  | digits n hn ih =>
    rw [inBase_of_le hbase hn, List.length_append, ih, Nat.log_of_one_lt_of_le hbase hn]
    rfl

theorem length_inBase_of_bounds (hbase : 2 ≤ base) (hlow : base ^ p ≤ n)
    (hhigh : n < base ^ (p + 1)) : (inBase base n).length = p + 1 := by
  rw [length_inBase hbase, Nat.log_eq_of_pow_le_of_lt_pow hlow hhigh]

/-- The lowest digits of a number, zeros where it has no more. -/
def lowest (base : Nat) : Nat → Nat → List Nat
  | 0, _ => []
  | p + 1, n => lowest base p (n / base) ++ [n % base]

@[simp] theorem length_lowest (base p n : Nat) : (lowest base p n).length = p := by
  induction p generalizing n with
  | zero => rfl
  | succ p ih =>
    rw [lowest, List.length_append, ih]
    rfl

theorem lt_of_mem_lowest (hbase : 2 ≤ base) (hd : d ∈ lowest base p n) : d < base := by
  induction p generalizing n with
  | zero => cases hd
  | succ p ih =>
    rcases List.mem_append.mp hd with hfirst | hlast
    · exact ih hfirst
    · rw [List.mem_singleton.mp hlast]
      exact Nat.mod_lt n (by omega)

/-- What is left without the lowest digits, and these digits, are all digits of the number; zeros
come before them where it has too few. -/
theorem inBase_append_lowest (hbase : 2 ≤ base) (p n : Nat) :
    inBase base (n / base ^ p) ++ lowest base p n =
      List.replicate (p + 1 - (inBase base n).length) 0 ++ inBase base n := by
  induction p generalizing n with
  | zero =>
    have hlength := length_inBase hbase n
    have hnone : 0 + 1 - (inBase base n).length = 0 := by omega
    rw [hnone, pow_zero, Nat.div_one, lowest, List.append_nil]
    rfl
  | succ p ih =>
    have hdiv : n / base ^ (p + 1) = n / base / base ^ p := by
      rw [Nat.div_div_eq_div_mul, pow_succ']
    rw [hdiv, lowest, ← List.append_assoc, ih]
    by_cases hn : n < base
    · -- the only digit of the number is the last one, and the quotient is the zero before it
      have hzero : n / base = 0 := Nat.div_eq_of_lt hn
      rw [hzero, inBase_of_lt (Nat.zero_lt_of_lt hn), inBase_of_lt hn, Nat.mod_eq_of_lt hn,
        List.length_singleton, List.length_singleton]
      exact congrArg (· ++ [n]) List.replicate_succ'.symm
    · rw [inBase_of_le hbase (Nat.not_lt.mp hn), List.length_append, List.length_singleton,
        Nat.add_sub_add_right, List.append_assoc]

/-- The digits before a place and those behind it write the number. -/
theorem value_append_lowest (hbase : 2 ≤ base) (p n : Nat) :
    value base (inBase base (n / base ^ p) ++ lowest base p n) = n := by
  induction p generalizing n with
  | zero => rw [pow_zero, Nat.div_one, lowest, List.append_nil, value_inBase hbase]
  | succ p ih =>
    have hdiv : n / base ^ (p + 1) = n / base / base ^ p := by
      rw [Nat.div_div_eq_div_mul, pow_succ']
    rw [hdiv, lowest, ← List.append_assoc, value_concat, ih, Nat.div_add_mod']

/-- Zeros before the digits do not count. -/
theorem value_zeros (base k : Nat) (digits : List Nat) :
    value base (List.replicate k 0 ++ digits) = value base digits := by
  induction k with
  | zero => rfl
  | succ k ih =>
    rw [List.replicate_succ, List.cons_append, value, List.foldl_cons, Nat.zero_mul]
    exact ih

/-- The significant digits of a positive number are those that it has. -/
theorem significant_append_lowest (hbase : 2 ≤ base) (p : Nat) (hn : 0 < n) :
    (inBase base (n / base ^ p) ++ lowest base p n).dropWhile (· == 0) = inBase base n := by
  obtain ⟨d, more, hcons, hd⟩ := exists_inBase_cons hbase n
  have hkeep : (d == 0) = false := beq_false_of_ne (hd hn)
  rw [inBase_append_lowest hbase, List.dropWhile_append_of_pos
    (fun c hc => by rw [List.eq_of_mem_replicate hc]; rfl), hcons,
    List.dropWhile_cons_of_neg (by rw [hkeep]; exact Bool.false_ne_true)]

/-- Bytes of zeros before the digits of a number. -/
theorem zeroExtend_text (length : Nat) (digits : List Nat) :
    zeroExtend length (digits.map byte) =
      (List.replicate (length - digits.length) 0 ++ digits).map byte := by
  rw [zeroExtend, List.length_map, List.map_append, List.map_replicate]
  rfl

end Digits

namespace Decimal

open Digits

variable {base : Nat}

/-- A number with a point shows the digits before a place and those behind it. -/
theorem placePoint_text (hbase : 2 ≤ base) (places : Nat) (alternate : Bool) (n : Nat) :
    placePoint places alternate (text base n) =
      text base (n / base ^ places) ++ (if places = 0 ∧ ¬alternate then [] else [point]) ++
        (lowest base places n).map byte := by
  have hextended : zeroExtend (places + 1) (text base n) =
      text base (n / base ^ places) ++ (lowest base places n).map byte := by
    rw [text, zeroExtend_text, ← inBase_append_lowest hbase, List.map_append, text]
  have hwhole : (text base (n / base ^ places) ++ (lowest base places n).map byte).length -
      places = (text base (n / base ^ places)).length := by
    rw [List.length_append, List.length_map, length_lowest, Nat.add_sub_cancel]
  simp only [placePoint, hextended, hwhole, List.take_left, List.drop_left]

end Decimal

end FormattedText
