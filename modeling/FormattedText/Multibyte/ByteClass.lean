import FormattedText.Encoding

/-!
# Byte classes of the encodings

Which bytes begin a character of an encoding, how many bytes the first one
announces, which bytes may follow it, and the wide character that a complete
sequence stands for. These rules cover the encodings without escape sequences;
the two-byte characters of the Japanese encodings keep their two bytes as the
two low bytes of the wide character.
-/

namespace FormattedText

namespace ByteClass

/-- A seven-bit byte. -/
def isAscii (b : UInt8) : Bool := b < 0x80

/-- A byte of a two-byte or three-byte EUC-JP character. -/
def isEucByte (b : UInt8) : Bool := 0xA1 ≤ b && b ≤ 0xFE

/-- The first byte of a Shift_JIS pair. -/
def isSjisLead (b : UInt8) : Bool := (0x81 ≤ b && b ≤ 0x9F) || (0xE0 ≤ b && b ≤ 0xEF)

/-- The second byte of a Shift_JIS pair. -/
def isSjisTrail (b : UInt8) : Bool := (0x40 ≤ b && b ≤ 0x7E) || (0x80 ≤ b && b ≤ 0xFC)

/-- A half-width kana of Shift_JIS, a character of one byte. -/
def isSjisKana (b : UInt8) : Bool := 0xA1 ≤ b && b ≤ 0xDF

/-- A byte of a JIS X 0208 pair. -/
def isJisByte (b : UInt8) : Bool := 0x21 ≤ b && b ≤ 0x7E

/-- The byte that announces a half-width kana of EUC-JP. -/
def eucKanaLead : UInt8 := 0x8E

/-- The byte that announces a JIS X 0212 character of EUC-JP. -/
def eucTripleLead : UInt8 := 0x8F

/-- The byte that begins an escape sequence. -/
def escape : UInt8 := 0x1B

end ByteClass

open ByteClass

/-- The wide character of a pair of bytes. -/
def pairValue (hi lo : UInt8) : UInt32 := UInt32.ofNat (hi.toNat * 256 + lo.toNat)

/-- The second byte of a pair from the top, for a wide character below 2^16. -/
def pairHigh (wc : UInt32) : UInt8 := UInt8.ofNat (wc.toNat / 256)

/-- The low byte of a wide character. -/
def pairLow (wc : UInt32) : UInt8 := UInt8.ofNat (wc.toNat % 256)

namespace Encoding

/-- The number of bytes of the characters that begin with `lead`, or `none` where
no character does. The encoding with escape sequences has no such number. -/
def sequenceLength? (enc : Encoding) (lead : UInt8) : Option Nat :=
  match enc with
  | ascii => if isAscii lead then some 1 else none
  | latin1 => some 1
  | utf8 =>
      if isAscii lead then some 1
      else if 0xC2 ≤ lead ∧ lead ≤ 0xDF then some 2
      else if 0xE0 ≤ lead ∧ lead ≤ 0xEF then some 3
      else if 0xF0 ≤ lead ∧ lead ≤ 0xF4 then some 4
      else none
  | eucJp =>
      if isAscii lead then some 1
      else if lead = eucTripleLead then some 3
      else if lead = eucKanaLead ∨ isEucByte lead then some 2
      else none
  | shiftJis =>
      if isAscii lead ∨ isSjisKana lead then some 1
      else if isSjisLead lead then some 2
      else none
  | jis => none

/-- The least second byte that UTF-8 allows after `lead`: a smaller one would
write a character in more bytes than it needs. -/
def utf8SecondMin (lead : UInt8) : UInt8 :=
  if lead = 0xE0 then 0xA0 else if lead = 0xF0 then 0x90 else 0x80

/-- The greatest second byte that UTF-8 allows after `lead`: a greater one would
write a surrogate or a value past the last code point. -/
def utf8SecondMax (lead : UInt8) : UInt8 :=
  if lead = 0xED then 0x9F else if lead = 0xF4 then 0x8F else 0xBF

/-- May `b` stand at `position` (counted from zero) of a character that begins
with `lead`? -/
def continues (enc : Encoding) (lead : UInt8) (position : Nat) (b : UInt8) : Bool :=
  match enc with
  | utf8 =>
      if position = 1 then utf8SecondMin lead ≤ b && b ≤ utf8SecondMax lead
      else 0x80 ≤ b && b ≤ 0xBF
  | eucJp => isEucByte b
  | shiftJis => isSjisTrail b
  | _ => false

/-- The wide character of a complete sequence: UTF-8 joins the payload bits, the
Japanese encodings join two bytes, and a JIS X 0212 character of EUC-JP is told
from a pair by the cleared high bit of its last byte. -/
def sequenceValue (enc : Encoding) (bytes : List UInt8) : UInt32 :=
  match enc, bytes with
  | _, [b] => b.toUInt32
  | utf8, lead :: rest =>
      UInt32.ofNat (rest.foldl (fun value b => value * 64 + b.toNat % 64)
        (lead.toNat % Nat.pow 2 (6 - rest.length)))
  | eucJp, [lead, b, c] =>
      if lead = eucTripleLead then pairValue b (UInt8.ofNat (c.toNat % 128))
      else pairValue lead b
  | _, hi :: lo :: _ => pairValue hi lo
  | _, [] => 0

end Encoding

end FormattedText
