import FormattedText.Failure
import FormattedText.Multibyte.Decoder
import FormattedText.Multibyte.Encoder

/-!
# Conversion of single characters

Reading one character from multibyte text and writing one to it, with the
conventions for a missing source and a missing destination. A read that fails
for good and a write that fails leave the state alone; a read that only lacks
bytes keeps what it has seen in the state.
-/

namespace FormattedText

/-- The effect of reading one character. -/
structure CharacterRead where
  /-- The number of bytes taken (zero for the terminator), or why there is no
  character. -/
  result : Except Failure Nat
  /-- The character, where one was read. -/
  character : Option UInt32
  /-- The state afterwards. -/
  state : ConversionState

/-- The effect of writing one character. -/
structure CharacterWrite where
  /-- The number of bytes of the character, or why it was not written. -/
  result : Except Failure Nat
  /-- The bytes that were stored. -/
  stored : List UInt8
  /-- The state afterwards. -/
  state : ConversionState

namespace Encoding

/-- Reads one character. Without a source the state is made initial, and the
result tells whether the encoding has a shift state. -/
def decodeOne (enc : Encoding) (source : Option (List UInt8)) (s : ConversionState) :
    CharacterRead :=
  match source with
  | none => ⟨.ok (if enc.isStateful then 1 else 0), none, .initial⟩
  | some bytes =>
      match enc.decode s bytes with
      | .character wc count s' => ⟨.ok count, some wc, s'⟩
      | .incomplete s' => ⟨.error .incompleteSequence, none, s'⟩
      | .invalid => ⟨.error .invalidSequence, none, s⟩

/-- Writes one character into a destination of `capacity` bytes. Without a
destination the bytes are only counted and the state is left alone. -/
def encodeOne (enc : Encoding) (capacity : Option Nat) (wc : UInt32) (s : ConversionState) :
    CharacterWrite :=
  match enc.encode s wc, capacity with
  | none, _ => ⟨.error .invalidSequence, [], s⟩
  | some (bytes, _), none => ⟨.ok bytes.length, [], s⟩
  | some (bytes, s'), some capacity =>
      if capacity < bytes.length then ⟨.error (.insufficientSpace bytes.length), [], s⟩
      else ⟨.ok bytes.length, bytes, s'⟩

end Encoding

end FormattedText
