import FormattedText.Calls.Character
import FormattedText.Multibyte.Text

/-!
# String calls with C conventions

The string conversions as C programs know them. The source is the memory from
the source pointer on; a call examines it up to and including the first
terminator, and no further than its bound. With a destination the source
pointer moves: it is null once the terminator was converted, and otherwise
stands at the first element that was not converted.
-/

namespace FormattedText

/-- The effect of a string call: `β` is the type of the elements stored. -/
structure TextCall (β : Type) where
  /-- What the call returns. -/
  returned : Returned
  /-- The elements stored in the destination from its start on. -/
  stored : List β
  /-- Where the source pointer stands, counted from where it stood before; `none`
  is the null pointer. -/
  position : Option Nat
  /-- The state afterwards. -/
  state : ConversionState

namespace Calls

/-- The part of the source that a call examines: at most `bound` elements, and
none behind the first terminator. -/
def examined {α : Type} (isTerminator : α → Bool) (bound : Option Nat) : List α → List α
  | [] => []
  | a :: rest =>
      if isSpent bound then []
      else if isTerminator a then [a]
      else a :: examined isTerminator (roomAfter bound 1) rest

/-- Where the source pointer stands after a conversion of the elements `range`
that left `cursor`. -/
def resumePosition {α : Type} (isTerminator : α → Bool) (range : List α) :
    Option (List α) → Option Nat
  | some rest => some (range.length - rest.length)
  | none => if range.getLast?.any isTerminator then none else some range.length

/-- What a string call makes of a conversion. Without a destination the source
pointer stays. -/
def textCall {α β : Type} (isTerminator : α → Bool) (range : List α) (hasDestination : Bool)
    (conversion : StringConversion α β) : TextCall β where
  returned := .ofRestartable conversion.result
  stored := conversion.stored
  position :=
    if hasDestination then resumePosition isTerminator range conversion.cursor else some 0
  state := conversion.state

/-- Decodes at most `bound` bytes of a source into a destination of `capacity`
characters, restartably. -/
def mbsnrtowcs (enc : Encoding) (capacity : Option Nat) (source : Option (List UInt8))
    (bound : Option Nat) (s : ConversionState) : TextCall UInt32 :=
  match source with
  | none => ⟨.value 0, [], none, s⟩
  | some bytes =>
      let range := examined (· == 0) bound bytes
      textCall (· == 0) range capacity.isSome (enc.decodeString capacity (some range) s)

/-- Encodes at most `bound` characters of a source into a destination of
`capacity` bytes, restartably. -/
def wcsnrtombs (enc : Encoding) (capacity : Option Nat) (source : Option (List UInt32))
    (bound : Option Nat) (s : ConversionState) : TextCall UInt8 :=
  match source with
  | none => ⟨.value 0, [], none, s⟩
  | some wide =>
      let range := examined (· == 0) bound wide
      textCall (· == 0) range capacity.isSome (enc.encodeString capacity (some range) s)

/-- Where a source pointer stands that no call has moved. -/
def unmoved {α : Type} (source : Option (List α)) : Option Nat := source.map fun _ => 0

/-- A call without a place for the source pointer: it fails and does nothing. -/
def withoutHandle {α β : Type} (source : Option (List α)) (s : ConversionState) :
    TextCall β :=
  ⟨.failed .invalidArgument, [], unmoved source, s⟩

end Calls

end FormattedText
