import FormattedText.Field.Integer
import FormattedText.Number.Hexadecimal

/-!
# Floating-point fields

The conversions of floating-point numbers. The sign stands before the digits,
and zeros may pad between them; infinities and NaNs are words, which are never
padded with zeros. An upper-case conversion writes letters in upper case.
-/

namespace FormattedText

/-- Is the byte an upper-case ASCII letter? -/
def isUpperByte (b : UInt8) : Bool := asciiByte 'A' ≤ b && b ≤ asciiByte 'Z'

/-- An ASCII letter in lower case; other bytes as they are. -/
def lowerByte (b : UInt8) : UInt8 := if isUpperByte b then b + 0x20 else b

namespace Field

/-- The number of digits after the point where no precision is given. -/
def defaultPrecision : Nat := 6

/-- The word of a number that is not finite. -/
def nonFiniteWord (v : Binary64) : List UInt8 :=
  (if v.isNaN then ['n', 'a', 'n'] else ['i', 'n', 'f']).map asciiByte

/-- The lead and the digits of the magnitude of a finite number, in lower case. -/
def magnitude (d : Directive) (v : Binary64) : List UInt8 × List UInt8 :=
  let alternate := d.flags.alternate
  let places := d.precision?.getD defaultPrecision
  let conversion := lowerByte d.conversion
  if conversion = asciiByte 'e' then ([], Decimal.exponential v places alternate)
  else if conversion = asciiByte 'g' then ([], Decimal.general v places alternate)
  else if conversion = asciiByte 'a' then
    ([zero, asciiByte 'x'], Hexadecimal.text v d.precision? alternate)
  else ([], Decimal.fixed v places alternate)

/-- The field of a floating-point number. -/
def floating (d : Directive) (v : Binary64) : Field :=
  let sign := signText d.flags v.isNegative
  let cased (s : List UInt8) : List UInt8 :=
    if isUpperByte d.conversion then s.map upperByte else s
  if v.isFinite then
    let (lead, digits) := magnitude d v
    .complete (layout d d.flags.zeroPad (sign ++ cased lead) [.text (cased digits)])
  else .complete (layout d false sign [.text (cased (nonFiniteWord v))])

end Field

end FormattedText
