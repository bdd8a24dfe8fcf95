import FormattedText.Number.Binary64
import FormattedText.Number.Digits
import FormattedText.Number.Rounding

/-!
# Decimal text of floating-point numbers

The magnitude of a finite number in decimal digits, rounded once from its exact
value: with a given number of digits after the point (`fixed`), or with a given
number of digits after the first one and an exponent of ten (`scientific`). The
third form (`general`) chooses between the two by the exponent and shows a
given number of significant digits.
-/

namespace FormattedText

namespace Decimal

/-- The byte of the decimal point. -/
def point : UInt8 := 0x2E

/-- A number with `places` digits after the point, given by the digits without a
point. There is no point without digits after it, unless one is asked for. -/
def placePoint (places : Nat) (alternate : Bool) (digits : List UInt8) : List UInt8 :=
  let digits := Digits.zeroExtend (places + 1) digits
  let whole := digits.length - places
  digits.take whole ++ (if places = 0 ∧ ¬alternate then [] else [point]) ++ digits.drop whole

/-- The magnitude with `places` digits after the point. -/
def fixed (v : Binary64) (places : Nat) (alternate : Bool) : List UInt8 :=
  placePoint places alternate
    (Digits.text 10 (roundHalfEven (v.numerator * Nat.pow 10 places) v.denominator))

/-- The exponent of ten of the first digit of a positive fraction. -/
def floorExponent (num den : Nat) : Int :=
  if den ≤ num then (Digits.decimalLength (num / den) : Int) - 1
  else -(Digits.decimalLength ((den - 1) / num) : Int)

/-- A positive fraction as `n * 10 ^ exponent`, rounded to an integer `n`. -/
def scaled (num den : Nat) (exponent : Int) : Nat :=
  roundHalfEven (num * Nat.pow 10 (-exponent).toNat) (den * Nat.pow 10 exponent.toNat)

/-- Decimal digits with an exponent: the first digit stands before the point, and
the exponent of ten is that of the first digit. -/
structure Scientific where
  /-- All digits as an integer. -/
  digits : Nat
  /-- The exponent of ten of the first digit. -/
  exponent : Int
  deriving DecidableEq, Repr

/-- The magnitude with `places` digits after the first one. A carry out of the
first digit raises the exponent. -/
def scientific (v : Binary64) (places : Nat) : Scientific :=
  if v.isZero then ⟨0, 0⟩
  else
    let e := floorExponent v.numerator v.denominator
    let n := scaled v.numerator v.denominator (e - places)
    if n = Nat.pow 10 (places + 1) then ⟨Nat.pow 10 places, e + 1⟩ else ⟨n, e⟩

/-- An exponent: its marker, its sign and at least `minDigits` digits. -/
def exponentText (marker : UInt8) (exponent : Int) (minDigits : Nat) : List UInt8 :=
  marker :: (if exponent < 0 then 0x2D else 0x2B) ::
    Digits.zeroExtend minDigits (Digits.text 10 exponent.natAbs)

/-- The marker of a decimal exponent. -/
def exponentMarker : UInt8 := 0x65

/-- The magnitude with `places` digits after the first one, and an exponent. -/
def exponential (v : Binary64) (places : Nat) (alternate : Bool) : List UInt8 :=
  let s := scientific v places
  placePoint places alternate (Digits.text 10 s.digits) ++
    exponentText exponentMarker s.exponent 2

/-- Removes the zeros at the end of the digits after the point, and the point if
no digit is left after it. A text without a point stays whole. -/
def stripZeros (text : List UInt8) : List UInt8 :=
  if text.contains point then
    ((text.reverse.dropWhile (· == 0x30)).dropWhile (· == point)).reverse
  else text

/-- Shows the point, or else removes the zeros at the end. -/
def finishFraction (alternate : Bool) (text : List UInt8) : List UInt8 :=
  if alternate then text else stripZeros text

/-- The magnitude with `precision` significant digits, at least one: with an
exponent where it is below -4 or not below the number of digits. -/
def general (v : Binary64) (precision : Nat) (alternate : Bool) : List UInt8 :=
  let digits := max precision 1
  let s := scientific v (digits - 1)
  if s.exponent < -4 ∨ (digits : Int) ≤ s.exponent then
    finishFraction alternate
        (placePoint (digits - 1) alternate (Digits.text 10 s.digits)) ++
      exponentText exponentMarker s.exponent 2
  else
    finishFraction alternate (fixed v ((digits : Int) - 1 - s.exponent).toNat alternate)

end Decimal

end FormattedText
