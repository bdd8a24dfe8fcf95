import FormattedText.Field.Layout
import FormattedText.Number.Digits

/-!
# Integer fields

Signed and unsigned integers and pointers. The precision is a least number of
digits; a precision of zero prints no digit of zero, and any precision turns
off the padding with zeros.
-/

namespace FormattedText

/-- The sign of a number: a minus, or what the flags ask for. -/
def signText (flags : Flags) (negative : Bool) : List UInt8 :=
  if negative then [asciiByte '-']
  else if flags.forceSign then [asciiByte '+']
  else if flags.spaceSign then [Field.space]
  else []

/-- The base and the case of the digits of a conversion. -/
structure Radix where
  /-- The base. -/
  base : Nat
  /-- Are letters upper case? -/
  upper : Bool
  deriving DecidableEq, Repr

namespace Radix

/-- Decimal digits. -/
def decimal : Radix := ⟨10, false⟩

/-- The radix of an unsigned conversion. -/
def ofConversion (conversion : UInt8) : Radix :=
  if conversion = asciiByte 'o' then ⟨8, false⟩
  else if conversion = asciiByte 'x' then ⟨16, false⟩
  else if conversion = asciiByte 'X' then ⟨16, true⟩
  else decimal

end Radix

/-- An ASCII letter in upper case; other bytes as they are. -/
def upperByte (b : UInt8) : UInt8 :=
  if asciiByte 'a' ≤ b ∧ b ≤ asciiByte 'z' then b - 0x20 else b

/-- The digits of a number in a radix. -/
def Radix.text (r : Radix) (n : Nat) : List UInt8 :=
  let digits := Digits.text r.base n
  if r.upper then digits.map upperByte else digits

namespace Field

/-- Lays out digits with at least `minDigits` of them, zeros before the others. -/
def digits (d : Directive) (lead digits : List UInt8) (minDigits : Nat) : Field :=
  let zeros := minDigits - digits.length
  let zeroFill := d.flags.zeroPad && d.precision?.isNone
  .complete (layout d zeroFill lead [.fill zero zeros, .text digits])

/-- The digits that show a number: none for zero with precision zero. -/
def shownDigits (d : Directive) (r : Radix) (n : Nat) : List UInt8 :=
  if n = 0 ∧ d.precision? = some 0 then [] else r.text n

/-- The field of a signed integer. -/
def signed (d : Directive) (n : Int) : Field :=
  digits d (signText d.flags (decide (n < 0))) (shownDigits d .decimal n.natAbs)
    (d.precision?.getD 0)

/-- The lead that the alternative form gives a hexadecimal number. -/
def radixLead (d : Directive) (n : Nat) : List UInt8 :=
  if d.flags.alternate ∧ n ≠ 0 ∧ (d.conversion = asciiByte 'x' ∨ d.conversion = asciiByte 'X') then
    [zero, d.conversion]
  else []

/-- The least number of digits of an unsigned integer. The alternative form of
octal numbers makes the first digit a zero. -/
def unsignedMinDigits (d : Directive) (shown : List UInt8) : Nat :=
  let precision := d.precision?.getD 0
  if d.conversion = asciiByte 'o' ∧ d.flags.alternate ∧ shown.head? ≠ some zero then
    max precision (shown.length + 1)
  else precision

/-- The field of an unsigned integer. -/
def unsigned (d : Directive) (n : Nat) : Field :=
  let shown := shownDigits d (.ofConversion d.conversion) n
  digits d (radixLead d n) shown (unsignedMinDigits d shown)

/-- The field of a pointer. -/
def pointer (d : Directive) (n : Nat) : Field :=
  digits d [zero, asciiByte 'x'] (Digits.text 16 n) (d.precision?.getD 0)

end Field

end FormattedText
