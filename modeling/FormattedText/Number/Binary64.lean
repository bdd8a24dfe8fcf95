/-!
# Binary floating-point numbers of 64 bits

A number by its bits: a sign, an exponent of eleven bits and a fraction of
fifty-two. A finite number has the magnitude `significand * 2 ^ exponent`, which
`numerator` and `denominator` give as a fraction of natural numbers.
-/

namespace FormattedText

/-- A binary floating-point number, by its bits. -/
structure Binary64 where
  /-- The bits: sign, biased exponent, fraction. -/
  bits : UInt64
  deriving DecidableEq, Repr, Inhabited

namespace Binary64

/-- The number of bits of the fraction. -/
def fractionBits : Nat := 52

/-- Is the sign bit set? -/
def isNegative (v : Binary64) : Bool := Nat.pow 2 63 ≤ v.bits.toNat

/-- The exponent as it is stored. -/
def biasedExponent (v : Binary64) : Nat := v.bits.toNat / Nat.pow 2 52 % Nat.pow 2 11

/-- The bits of the fraction. -/
def fraction (v : Binary64) : Nat := v.bits.toNat % Nat.pow 2 52

/-- Is it neither infinite nor a NaN? -/
def isFinite (v : Binary64) : Bool := v.biasedExponent < 2047

/-- Is it no number? -/
def isNaN (v : Binary64) : Bool := v.biasedExponent == 2047 && v.fraction != 0

/-- Is it a zero of either sign? -/
def isZero (v : Binary64) : Bool := v.biasedExponent == 0 && v.fraction == 0

/-- The digit before the binary point: one for normal numbers. -/
def leadBit (v : Binary64) : Nat := if v.biasedExponent = 0 then 0 else 1

/-- The exponent of two of the digit before the binary point, for finite numbers. -/
def exponent (v : Binary64) : Int :=
  if v.biasedExponent = 0 then -1022 else (v.biasedExponent : Int) - 1023

/-- The digits of a finite number as an integer. -/
def significand (v : Binary64) : Nat := v.leadBit * Nat.pow 2 fractionBits + v.fraction

/-- The numerator of the magnitude of a finite number. -/
def numerator (v : Binary64) : Nat := v.significand * Nat.pow 2 (v.exponent - fractionBits).toNat

/-- The denominator of the magnitude of a finite number. -/
def denominator (v : Binary64) : Nat := Nat.pow 2 (fractionBits - v.exponent).toNat

/-- The bits of a number with a sign, a stored exponent and a fraction. -/
def pack (negative : Bool) (biased fraction : Nat) : Binary64 :=
  ⟨UInt64.ofNat ((if negative then Nat.pow 2 63 else 0) + biased * Nat.pow 2 52 + fraction)⟩

/-- The number with the sign bit set or cleared. -/
def withSign (negative : Bool) (v : Binary64) : Binary64 :=
  ⟨UInt64.ofNat ((if negative then Nat.pow 2 63 else 0) + v.bits.toNat % Nat.pow 2 63)⟩

/-- Zero. -/
def zero : Binary64 := ⟨0⟩

/-- Infinity of a sign. -/
def infinity (negative : Bool) : Binary64 := pack negative 2047 0

/-- A quiet NaN of a sign. -/
def nan (negative : Bool) : Binary64 := pack negative 2047 (Nat.pow 2 51)

/-- The number with the bits of a binary floating-point number of 32 bits. Every
such number has an exact counterpart; a NaN becomes quiet and keeps its payload. -/
def ofBinary32Bits (bits : UInt32) : Binary64 :=
  let n := bits.toNat
  let negative : Bool := Nat.pow 2 31 ≤ n
  let biased := n / Nat.pow 2 23 % Nat.pow 2 8
  let fraction := n % Nat.pow 2 23
  if biased = 255 then
    if fraction = 0 then infinity negative
    else pack negative 2047 (Nat.pow 2 51 + fraction % Nat.pow 2 22 * Nat.pow 2 29)
  else if biased = 0 then
    if fraction = 0 then pack negative 0 0
    else
      let top := fraction.log2
      pack negative (874 + top) ((fraction - Nat.pow 2 top) * Nat.pow 2 (52 - top))
  else pack negative (biased + 896) (fraction * Nat.pow 2 29)

end Binary64

end FormattedText
