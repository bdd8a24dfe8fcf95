import FormattedText.Multibyte.ByteClass
import FormattedText.Multibyte.State

/-!
# Encoding one character

The bytes of a wide character, or `none` where the encoding has none for it.
Only the encoding with escape sequences looks at the state: it writes an escape
sequence first where the character needs another shift. Pending input bytes are
never touched.
-/

namespace FormattedText

open ByteClass

namespace Encoding

/-- The UTF-8 bytes of a code point; surrogates and values past the last code
point have none. -/
def encodeUtf8 (wc : UInt32) : Option (List UInt8) :=
  let n := wc.toNat
  let tail (k : Nat) : UInt8 := UInt8.ofNat (0x80 + n / Nat.pow 64 k % 64)
  if (0xD800 ≤ n ∧ n ≤ 0xDFFF) ∨ 0x10FFFF < n then none
  else if n < 0x80 then some [UInt8.ofNat n]
  else if n < 0x800 then some [UInt8.ofNat (0xC0 + n / 64), tail 0]
  else if n < 0x10000 then some [UInt8.ofNat (0xE0 + n / Nat.pow 64 2), tail 1, tail 0]
  else some [UInt8.ofNat (0xF0 + n / Nat.pow 64 3), tail 2, tail 1, tail 0]

/-- The EUC-JP bytes of a character. A pair whose second byte has a cleared high
bit is a JIS X 0212 character, announced by a byte of its own. -/
def encodeEucJp (wc : UInt32) : Option (List UInt8) :=
  let hi := pairHigh wc
  let lo := pairLow wc
  if wc < 0x80 then some [lo]
  else if 0xFFFF < wc then none
  else if (hi = eucKanaLead ∨ isEucByte hi) ∧ isEucByte lo then some [hi, lo]
  else if isEucByte hi ∧ isJisByte lo then some [eucTripleLead, hi, lo + 0x80]
  else none

/-- The Shift_JIS bytes of a character. -/
def encodeShiftJis (wc : UInt32) : Option (List UInt8) :=
  let hi := pairHigh wc
  let lo := pairLow wc
  if wc ≤ 0xFF then
    if isAscii lo ∨ isSjisKana lo then some [lo] else none
  else if 0xFFFF < wc then none
  else if isSjisLead hi ∧ isSjisTrail lo then some [hi, lo]
  else none

/-- The escape sequence that selects a shift. -/
def escapeTo : Shift → List UInt8
  | .ascii => [escape, 0x28, 0x42]
  | .jis0208 => [escape, 0x24, 0x42]

/-- The escape sequence that leads from one shift to another: none where they agree. -/
def escapeBetween (current wanted : Shift) : List UInt8 :=
  if current = wanted then [] else escapeTo wanted

/-- The shift and the bytes of a character in the encoding with escape sequences. -/
def jisForm? (wc : UInt32) : Option (Shift × List UInt8) :=
  let hi := pairHigh wc
  let lo := pairLow wc
  if wc < 0x80 then some (.ascii, [lo])
  else if wc ≤ 0xFFFF ∧ isJisByte hi ∧ isJisByte lo then some (.jis0208, [hi, lo])
  else none

/-- Encodes a wide character, with the state after it. -/
def encode (enc : Encoding) (s : ConversionState) (wc : UInt32) :
    Option (List UInt8 × ConversionState) :=
  match enc with
  | ascii => if wc ≤ 0x7F then some ([pairLow wc], s) else none
  | latin1 => if wc ≤ 0xFF then some ([pairLow wc], s) else none
  | utf8 => (encodeUtf8 wc).map (·, s)
  | eucJp => (encodeEucJp wc).map (·, s)
  | shiftJis => (encodeShiftJis wc).map (·, s)
  | jis => (jisForm? wc).map fun (shift, bytes) =>
      (escapeBetween s.shift shift ++ bytes, { s with shift := shift })

end Encoding

end FormattedText
