import FormattedText.Multibyte.Character

/-!
# Conversion of strings

Strings are converted character by character until a terminator has been
converted, the destination is full, the source is used up, or a character
cannot be converted. `Encoding.decodeAll` and `Encoding.encodeAll` describe how
far a conversion gets; `Encoding.decodeString` and `Encoding.encodeString` put
that into a count, the stored elements, and the cursor into the source, which
is gone once a terminator has been converted or nothing is left to convert.
-/

namespace FormattedText

/-- Why a conversion of a string stopped. -/
inductive Ending where
  /-- A terminator was converted. -/
  | terminated
  /-- The next character finds no room. -/
  | full
  /-- The source is used up. -/
  | drained
  /-- The next character cannot be converted. -/
  | invalid
  deriving DecidableEq, Repr

/-- How far a conversion got: `α` is the type of the elements of the source, `β`
of those of the destination. -/
structure Progress (α β : Type) where
  /-- What was converted, a terminator included. -/
  converted : List β
  /-- Why the conversion stopped. -/
  ending : Ending
  /-- The source from the first character that was not converted. -/
  rest : List α
  /-- The state after the last character that was converted; where the source
  ends inside a character, that part of it is pending. -/
  state : ConversionState

/-- More was converted before what `p` tells of. -/
def Progress.after {α β : Type} (front : List β) (p : Progress α β) : Progress α β :=
  { p with converted := front ++ p.converted }

/-- The effect of converting a string. -/
structure StringConversion (α β : Type) where
  /-- The number of elements converted, a terminator not counted, or the failure. -/
  result : Except Failure Nat
  /-- The elements stored in the destination from its start on. -/
  stored : List β
  /-- The source that is left, or `none` once there is nothing to go on with. -/
  cursor : Option (List α)
  /-- The state afterwards. -/
  state : ConversionState

/-- A destination after its first elements have been replaced. -/
def overlay {β : Type} (stored destination : List β) : List β :=
  stored ++ destination.drop stored.length

/-- Is there no room left? `none` stands for room without a bound. -/
def isSpent (room : Option Nat) : Bool := room == some 0

/-- Do `n` more elements fit? -/
def hasRoomFor (room : Option Nat) (n : Nat) : Bool :=
  match room with
  | none => true
  | some r => n ≤ r

/-- The room that is left after `n` elements. -/
def roomAfter (room : Option Nat) (n : Nat) : Option Nat := room.map (· - n)

namespace Encoding

/-- Decodes characters until the conversion stops. A source that ends inside a
character is used up, the pending bytes being in the state. -/
def decodeAll (enc : Encoding) (room : Option Nat) (s : ConversionState)
    (source : List UInt8) : Progress UInt8 UInt32 :=
  if isSpent room then ⟨[], .full, source, s⟩
  else match source with
    | [] => ⟨[], .drained, [], s⟩
    | b :: rest =>
        match enc.decode s (b :: rest) with
        | .character _ 0 s' => ⟨[0], .terminated, b :: rest, s'⟩
        | .character wc (n + 1) s' =>
            (enc.decodeAll (roomAfter room 1) s' (rest.drop n)).after [wc]
        | .incomplete s' => ⟨[], .drained, [], s'⟩
        | .invalid => ⟨[], .invalid, b :: rest, s⟩
  termination_by source.length
  decreasing_by simp only [List.length_drop, List.length_cons]; omega

/-- Encodes characters until the conversion stops. A character that does not fit
whole is not begun. -/
def encodeAll (enc : Encoding) (room : Option Nat) (s : ConversionState) :
    List UInt32 → Progress UInt32 UInt8
  | [] => ⟨[], .drained, [], s⟩
  | wc :: rest =>
      if isSpent room then ⟨[], .full, wc :: rest, s⟩
      else match enc.encode s wc with
        | none => ⟨[], .invalid, wc :: rest, s⟩
        | some (bytes, s') =>
            if !hasRoomFor room bytes.length then ⟨[], .full, wc :: rest, s⟩
            else if wc = 0 then ⟨bytes, .terminated, rest, s'⟩
            else (enc.encodeAll (roomAfter room bytes.length) s' rest).after bytes

end Encoding

/-- The cursor after a conversion that was stopped neither by a terminator nor by
a failure: nothing is left to go on with when the source is used up in the
initial state. -/
def remaining {α : Type} (rest : List α) (s : ConversionState) : Option (List α) :=
  if rest.isEmpty && s.isInitial then none else some rest

namespace Encoding

/-- Decodes a string into a destination of `capacity` characters. Without a
destination the characters are only counted, without a bound, and the cursor
stays. A failure makes the state initial. -/
def decodeString (enc : Encoding) (capacity : Option Nat) (source : Option (List UInt8))
    (s : ConversionState) : StringConversion UInt8 UInt32 :=
  match source with
  | none => ⟨.ok 0, [], none, s⟩
  | some bytes =>
      let p := enc.decodeAll capacity s bytes
      let keep {β : Type} (moved kept : β) : β := if capacity.isSome then moved else kept
      let stored := keep p.converted []
      match p.ending with
      | .terminated => ⟨.ok (p.converted.length - 1), stored, keep none source, p.state⟩
      | .invalid => ⟨.error .invalidSequence, stored, keep (some p.rest) source, .initial⟩
      | .full | .drained =>
          ⟨.ok p.converted.length, stored, keep (remaining p.rest p.state) source, p.state⟩

/-- Encodes a string into a destination of `capacity` bytes. Without a
destination the bytes are only counted, without a bound, and the cursor stays.
A terminator and a failure make the state initial. -/
def encodeString (enc : Encoding) (capacity : Option Nat) (source : Option (List UInt32))
    (s : ConversionState) : StringConversion UInt32 UInt8 :=
  match source with
  | none => ⟨.ok 0, [], none, s⟩
  | some wide =>
      let p := enc.encodeAll capacity s wide
      let keep {β : Type} (moved kept : β) : β := if capacity.isSome then moved else kept
      let stored := keep p.converted []
      match p.ending with
      | .terminated => ⟨.ok (p.converted.length - 1), stored, keep none source, .initial⟩
      | .invalid => ⟨.error .invalidSequence, stored, keep (some p.rest) source, .initial⟩
      | .full | .drained =>
          ⟨.ok p.converted.length, stored, keep (remaining p.rest p.state) source, p.state⟩

/-- Decodes a whole string from the initial state. -/
def decodeWhole (enc : Encoding) (capacity : Nat) (source : List UInt8) :
    StringConversion UInt8 UInt32 :=
  enc.decodeString (some capacity) (some source) .initial

/-- Encodes a whole string from the initial state. -/
def encodeWhole (enc : Encoding) (capacity : Nat) (source : List UInt32) :
    StringConversion UInt32 UInt8 :=
  enc.encodeString (some capacity) (some source) .initial

end Encoding

end FormattedText
