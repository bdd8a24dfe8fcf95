import FormattedText.Multibyte.ByteClass
import FormattedText.Multibyte.State

/-!
# Decoding one character

A decoder is fed one byte at a time: a byte completes a character, is kept for
later, or is refused, and it is refused as soon as no continuation could make a
character of it. `Encoding.decode` feeds the bytes of a source until one of the
three happens, so it reads no byte past the first character. A conversion state
may hold bytes that were left there under another encoding; `Encoding.held?`
covers the one case in which these already spell a whole character.
-/

namespace FormattedText

/-- What a decoder does with one byte. -/
inductive Feed where
  /-- The byte is kept: no character yet. -/
  | more (state : ConversionState)
  /-- The byte completes a character. -/
  | character (wc : UInt32) (state : ConversionState)
  /-- No character can continue with the byte. -/
  | refused
  deriving DecidableEq, Repr

/-- What the bytes of a source give. -/
inductive Decoded where
  /-- A character, and the number of bytes of the source that it took; zero
  stands for the terminator and for a character that took none. -/
  | character (wc : UInt32) (count : Nat) (state : ConversionState)
  /-- The source is used up inside a character. -/
  | incomplete (state : ConversionState)
  /-- The source does not go on with a character. -/
  | invalid
  deriving DecidableEq, Repr

open ByteClass

namespace Encoding

/-- Are all characters single bytes? Such an encoding never looks at the state. -/
def isSingleByte : Encoding → Bool
  | ascii | latin1 => true
  | _ => false

/-- The shift that an escape sequence selects, given by its second and third byte. -/
def escapeTarget? (second third : UInt8) : Option Shift :=
  if second = 0x24 ∧ (third = 0x42 ∨ third = 0x40) then some .jis0208
  else if second = 0x28 ∧ (third = 0x42 ∨ third = 0x4A) then some .ascii
  else none

/-- Feeds a byte in the encoding with escape sequences. The terminator ends the
shift, an escape sequence changes it, and any other byte is read under it. -/
def feedJis (s : ConversionState) (b : UInt8) : Feed :=
  match s.pending with
  | [] =>
      if b = escape then .more (s.holding [b])
      else if b = 0 then .character 0 .initial
      else match s.shift with
        | .ascii => if isAscii b then .character b.toUInt32 s else .refused
        | .jis0208 => if isJisByte b then .more (s.holding [b]) else .refused
  | [lead] =>
      if lead = escape then
        if b = 0x24 ∨ b = 0x28 then .more (s.holding [lead, b]) else .refused
      else if s.shift = .jis0208 ∧ isJisByte lead ∧ isJisByte b then
        .character (pairValue lead b) (s.holding [])
      else .refused
  | [lead, second] =>
      if lead = escape then
        match escapeTarget? second b with
        | some shift => .more (.shiftedTo shift)
        | none => .refused
      else .refused
  | _ => .refused

/-- Feeds a byte in an encoding whose first byte announces the length. -/
def feedSequence (enc : Encoding) (s : ConversionState) (b : UInt8) : Feed :=
  match s.pending with
  | [] =>
      match enc.sequenceLength? b with
      | none => .refused
      | some 1 => .character b.toUInt32 s
      | some _ => .more (s.holding [b])
  | lead :: rest =>
      match enc.sequenceLength? lead with
      | some (n + 2) =>
          if enc.continues lead (rest.length + 1) b then
            let bytes := lead :: rest ++ [b]
            if n + 2 ≤ bytes.length then .character (enc.sequenceValue bytes) (s.holding [])
            else .more (s.holding bytes)
          else .refused
      | _ => .refused

/-- Feeds a byte in an encoding of single bytes, which leaves the state alone. -/
def feedSingle (enc : Encoding) (s : ConversionState) (b : UInt8) : Feed :=
  if (enc.sequenceLength? b).isSome then .character b.toUInt32 s else .refused

/-- Feeds one byte to the decoder. -/
def feed (enc : Encoding) (s : ConversionState) (b : UInt8) : Feed :=
  match enc with
  | ascii | latin1 => enc.feedSingle s b
  | utf8 | eucJp | shiftJis => enc.feedSequence s b
  | jis => feedJis s b

/-- The character that the pending bytes spell already, before any byte of the
source. This arises only where the bytes were left under another encoding, or
the shift was changed by encoding with the same state. -/
def held? (enc : Encoding) (s : ConversionState) : Option (UInt32 × ConversionState) :=
  match enc, s.pending with
  | ascii, _ | latin1, _ | _, [] => none
  | jis, lead :: _ =>
      if lead ≠ escape ∧ s.shift = .ascii ∧ isAscii lead then some (lead.toUInt32, s) else none
  | _, lead :: rest =>
      match enc.sequenceLength? lead with
      | some (n + 2) =>
          if n + 2 ≤ rest.length + 1 then
            some (enc.sequenceValue ((lead :: rest).take (n + 2)), s.holding [])
          else none
      | _ => none

/-- The count that is reported for a character that took `used` bytes. -/
def reportedCount (wc : UInt32) (used : Nat) : Nat := if wc = 0 then 0 else used

/-- Feeds bytes until a character is complete or a byte is refused; `used` bytes
went before. -/
def scan (enc : Encoding) (s : ConversionState) (used : Nat) : List UInt8 → Decoded
  | [] => .incomplete s
  | b :: rest =>
      match enc.feed s b with
      | .more s' => enc.scan s' (used + 1) rest
      | .character wc s' => .character wc (reportedCount wc (used + 1)) s'
      | .refused => .invalid

/-- Decodes one character from a source. An empty source leaves the state alone. -/
def decode (enc : Encoding) (s : ConversionState) (source : List UInt8) : Decoded :=
  match source, enc.held? s with
  | [], _ => .incomplete s
  | _ :: _, some (wc, s') => .character wc 0 s'
  | _ :: _, none => enc.scan s 0 source

end Encoding

end FormattedText
