import FormattedText.Number.Decimal

/-!
# Hexadecimal text of floating-point numbers

The magnitude of a finite number as a hexadecimal fraction and an exponent of
two. Without a precision the digits are exact and end with the last digit that
is not zero; with one they are rounded, and the digit before the point may then
become two.
-/

namespace FormattedText

namespace Hexadecimal

/-- The number of hexadecimal digits of the fraction. -/
def fractionDigits : Nat := 13

/-- The marker of a binary exponent. -/
def exponentMarker : UInt8 := 0x70

/-- The exponent that is shown: that of the first digit, and zero for zero. -/
def shownExponent (v : Binary64) : Int := if v.isZero then 0 else v.exponent

/-- The fraction digits that are left when the zeros at the end are removed, as an
integer, and their number. -/
def trimmed (fraction : Nat) : Nat → Nat × Nat
  | 0 => (fraction, 0)
  | n + 1 => if fraction % 16 = 0 then trimmed (fraction / 16) n else (fraction, n + 1)

/-- The magnitude with `places` digits after the point; digits past the last one of
the fraction are zeros. -/
def rounded (v : Binary64) (places : Nat) : Nat :=
  roundHalfEven (v.significand * Nat.pow 16 (places - fractionDigits))
    (Nat.pow 16 (fractionDigits - places))

/-- The magnitude as an integer of hexadecimal digits, and the number of them that
stand after the point. -/
def digits (v : Binary64) : Option Nat → Nat × Nat
  | some places => (rounded v places, places)
  | none => trimmed v.significand fractionDigits

/-- The magnitude in hexadecimal digits, with an exponent of two. -/
def text (v : Binary64) (precision : Option Nat) (alternate : Bool) : List UInt8 :=
  let (n, places) := digits v precision
  Decimal.placePoint places alternate (Digits.text 16 n) ++
    Decimal.exponentText exponentMarker (shownExponent v) 1

end Hexadecimal

end FormattedText
