import FormattedText.Number.Binary64
import FormattedText.Number.Rounding

/-!
# Rounding to floating-point numbers

The floating-point number nearest to a fraction, a tie going to the even
significand; past the greatest finite number it is infinity. Sums, products and
quotients of magnitudes are rounded once from their exact value by this rule.
-/

namespace FormattedText

namespace Binary64

/-- The least exponent of the last bit of a significand, that of the subnormal numbers. -/
def leastQuantum : Int := -1074

/-- The exponent of two of the first bit of a positive fraction. -/
def floorLog2 (num den : Nat) : Int :=
  let estimate := (num.log2 : Int) - den.log2
  if den * Nat.pow 2 estimate.toNat ≤ num * Nat.pow 2 (-estimate).toNat then estimate
  else estimate - 1

/-- The exponent of the last bit of the number that a positive fraction is rounded to. -/
def quantum (num den : Nat) : Int := max (floorLog2 num den - fractionBits) leastQuantum

/-- The bits of infinity. -/
def infinityBits : Nat := 2047 * Nat.pow 2 52

/-- The number nearest to a fraction. -/
def nearest (num den : Nat) : Binary64 :=
  if num = 0 then zero
  else
    let q := quantum num den
    let significand := roundHalfEven (num * Nat.pow 2 (-q).toNat) (den * Nat.pow 2 q.toNat)
    let bits := (q - leastQuantum).toNat * Nat.pow 2 52 + significand
    ⟨UInt64.ofNat (min bits infinityBits)⟩

/-- The number nearest to a natural number. -/
def ofNat (n : Nat) : Binary64 := nearest n 1

/-- The sum of the magnitudes of two finite numbers. -/
def plus (a b : Binary64) : Binary64 :=
  nearest (a.numerator * b.denominator + b.numerator * a.denominator)
    (a.denominator * b.denominator)

/-- The product of the magnitudes of two finite numbers. -/
def times (a b : Binary64) : Binary64 :=
  nearest (a.numerator * b.numerator) (a.denominator * b.denominator)

/-- The quotient of the magnitudes of two finite numbers, the second not a zero. -/
def dividedBy (a b : Binary64) : Binary64 :=
  nearest (a.numerator * b.denominator) (a.denominator * b.numerator)

/-- The magnitude of a finite number as a natural number, a half going up. -/
def roundedHalfUp (v : Binary64) : Nat := (2 * v.numerator + v.denominator) / (2 * v.denominator)

end Binary64

end FormattedText
