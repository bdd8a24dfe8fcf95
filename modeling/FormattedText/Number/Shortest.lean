import FormattedText.Number.Decimal

/-!
# Shortest decimal digits

The decimal digits that tell a finite number from every other one: as few as
possible, and of these the ones nearest to the number. The reals that round to
the number form an interval, whose ends belong to it when the significand is
even. For one digit, two digits, and so on, the two neighbours of the number
among the decimals with that many digits are tried; seventeen digits always
suffice.
-/

namespace FormattedText

namespace Shortest

/-- The interval of the reals that round to a positive number, all in units of a
quarter of its last bit. -/
structure Interval where
  /-- The number itself. -/
  centre : Nat
  /-- The lower end. -/
  low : Nat
  /-- The upper end. -/
  high : Nat
  /-- Do the ends belong to the interval? -/
  closed : Bool
  /-- The exponent of two of the unit. -/
  exponent : Int
  deriving DecidableEq, Repr

/-- The interval of a positive finite number. Below a power of two the numbers lie
twice as close. -/
def Interval.ofBinary64 (v : Binary64) : Interval where
  centre := 4 * v.significand
  low := 4 * v.significand - (if v.fraction = 0 ∧ 1 < v.biasedExponent then 1 else 2)
  high := 4 * v.significand + 2
  closed := v.significand % 2 = 0
  exponent := v.exponent - Binary64.fractionBits - 2

/-- Does `n / scale` units lie in the interval? -/
def Interval.holds (i : Interval) (n scale : Nat) : Bool :=
  if i.closed then i.low * scale ≤ n && n ≤ i.high * scale
  else i.low * scale < n && n < i.high * scale

/-- The multiple of `10 ^ exponent` that lies in the interval, by its factor: of
two, the nearer one, and of two equally near the even one. -/
def onGrid? (i : Interval) (exponent : Int) : Option Nat :=
  let step := Nat.pow 10 exponent.toNat * Nat.pow 2 (-i.exponent).toNat
  let scale := Nat.pow 2 i.exponent.toNat * Nat.pow 10 (-exponent).toNat
  let below := i.centre * scale / step
  let above := below + 1
  match i.holds (below * step) scale, i.holds (above * step) scale with
  | false, false => none
  | true, false => some below
  | false, true => some above
  | true, true => some (roundHalfEven (i.centre * scale) step)

/-- The number of digits that tell any number from all others. -/
def sufficientDigits : Nat := 17

/-- Searches grids that become finer, `left` of them, from `10 ^ exponent` on. -/
def search (i : Interval) (exponent : Int) : Nat → Decimal.Scientific
  | 0 => ⟨0, exponent⟩
  | left + 1 =>
      match onGrid? i exponent with
      | some n => ⟨n, exponent⟩
      | none => search i (exponent - 1) left

/-- Moves zeros at the end of the digits into the exponent. -/
def withoutZeros (digits : Nat) (exponent : Int) : Decimal.Scientific :=
  if _h : digits ≠ 0 ∧ digits % 10 = 0 then withoutZeros (digits / 10) (exponent + 1)
  else ⟨digits, exponent⟩
  termination_by digits
  decreasing_by omega

/-- The shortest digits of a finite number as an integer, with the exponent of ten
of the last one. -/
def digits (v : Binary64) : Decimal.Scientific :=
  if v.isZero then ⟨0, 0⟩
  else
    let found := search (.ofBinary64 v) (Decimal.floorExponent v.numerator v.denominator)
      sufficientDigits
    withoutZeros found.digits found.exponent

end Shortest

end FormattedText
