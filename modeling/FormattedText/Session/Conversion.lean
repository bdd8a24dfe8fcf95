import FormattedText.Calls.Text
import FormattedText.Process.Thread

/-!
# Conversions as data

Every call that converts text, as a value: what it is given apart from the
encoding and the conversion state. `Conversion.run` is its effect on a state,
and `Conversion.usage` tells which state it may be run on: one that the caller
names, the implicit state of its slot, or a fresh one of its own.
-/

namespace FormattedText

/-- A destination: its elements before the call, or none passed. -/
abbrev Destination (β : Type) := Option (List β)

/-- A call that converts text. -/
inductive Conversion where
  /-- Reads one character; `store` tells whether an output slot is passed. -/
  | decodeOne (source : Option (List UInt8)) (store : Bool)
  /-- Writes one character. -/
  | encodeOne (wc : UInt32) (destination : Destination UInt8)
  /-- Decodes a string. -/
  | decodeString (source : Option (List UInt8)) (destination : Destination UInt32)
  /-- Encodes a string. -/
  | encodeString (source : Option (List UInt32)) (destination : Destination UInt8)
  /-- The length of the next character. -/
  | nextLength (source : List UInt8)
  /-- The length of the next character, on the implicit state only. -/
  | implicitLength (source : Option (List UInt8))
  /-- Decodes a whole string from a fresh state. -/
  | decodeWhole (source : List UInt8) (destination : List UInt32)
  /-- Encodes a whole string from a fresh state. -/
  | encodeWhole (source : List UInt32) (destination : List UInt8)
  /-- The C call `mbtowc`. -/
  | mbtowc (source : Option (List UInt8)) (store : Bool)
  /-- The C call `mblen`. -/
  | mblen (source : Option (List UInt8))
  /-- The C call `wctomb`. -/
  | wctomb (wc : UInt32) (destination : Destination UInt8)
  /-- The C call `mbrtowc`. -/
  | mbrtowc (source : Option (List UInt8)) (store : Bool)
  /-- The C call `mbrlen`. -/
  | mbrlen (source : Option (List UInt8))
  /-- The C call `wcrtomb`. -/
  | wcrtomb (wc : UInt32) (destination : Destination UInt8)
  /-- The C calls `mbsnrtowcs` and, without a bound, `mbsrtowcs`. -/
  | mbsnrtowcs (hasHandle : Bool) (source : Option (List UInt8)) (bound : Option Nat)
      (destination : Destination UInt32)
  /-- The C calls `wcsnrtombs` and, without a bound, `wcsrtombs`. -/
  | wcsnrtombs (hasHandle : Bool) (source : Option (List UInt32)) (bound : Option Nat)
      (destination : Destination UInt8)
  /-- The C call `mbstowcs`. -/
  | mbstowcs (source : Option (List UInt8)) (destination : Destination UInt32)
  /-- The C call `wcstombs`. -/
  | wcstombs (source : Option (List UInt32)) (destination : Destination UInt8)
  deriving DecidableEq, Repr

/-- Which state a call runs on. -/
inductive StateUsage where
  /-- The state that the caller names, or else the implicit one of the slot. -/
  | either (slot : Slot)
  /-- The implicit state of the slot. -/
  | implicit (slot : Slot)
  /-- A state of its own, initial at the start of the call. -/
  | fresh
  deriving DecidableEq, Repr

/-- What a call gives back, apart from the state. -/
inductive Answer where
  /-- A length or a failure. -/
  | length (result : Except Failure Nat)
  /-- A length or a failure, and the character that was stored. -/
  | character (result : Except Failure Nat) (stored : Option UInt32)
  /-- A length or a failure, and the destination afterwards. -/
  | bytes (result : Except Failure Nat) (destination : Destination UInt8)
  /-- A count or a failure, the destination and the cursor afterwards. -/
  | decoded (result : Except Failure Nat) (destination : Destination UInt32)
      (cursor : Option (List UInt8))
  /-- A count or a failure, the destination and the cursor afterwards. -/
  | encoded (result : Except Failure Nat) (destination : Destination UInt8)
      (cursor : Option (List UInt32))
  /-- The return of a C call. -/
  | returned (value : Returned)
  /-- The return of a C call, and the character that was stored. -/
  | returnedCharacter (value : Returned) (stored : Option UInt32)
  /-- The return of a C call, and the destination afterwards. -/
  | returnedBytes (value : Returned) (destination : Destination UInt8)
  /-- The return of a C call, the destination and the source pointer afterwards. -/
  | returnedDecoded (value : Returned) (destination : Destination UInt32)
      (position : Option Nat)
  /-- The return of a C call, the destination and the source pointer afterwards. -/
  | returnedEncoded (value : Returned) (destination : Destination UInt8)
      (position : Option Nat)

/-- The return of the C call that gave the answer, if a C call did. -/
def Answer.returned? : Answer → Option Returned
  | .returned r | .returnedCharacter r _ | .returnedBytes r _
  | .returnedDecoded r _ _ | .returnedEncoded r _ _ => some r
  | _ => none

namespace Conversion

/-- The state that a call runs on. -/
def usage : Conversion → StateUsage
  | decodeOne .. => .either .decode
  | encodeOne .. => .either .encode
  | decodeString .. => .either .mbsrtowcs
  | encodeString .. => .either .wcsrtombs
  | nextLength .. => .either .mbrlen
  | implicitLength .. => .implicit .mblen
  | decodeWhole .. | encodeWhole .. => .fresh
  | mbtowc .. => .implicit .mbtowc
  | mblen .. => .implicit .mblen
  | wctomb .. => .implicit .wctomb
  | mbrtowc .. => .either .mbrtowc
  | mbrlen .. => .either .mbrlen
  | wcrtomb .. => .either .wcrtomb
  | mbsnrtowcs .. => .either .mbsrtowcs
  | wcsnrtombs .. => .either .wcsrtombs
  | mbstowcs .. | wcstombs .. => .fresh

/-- Does the call follow C conventions? Such a call publishes error numbers. -/
def isC : Conversion → Bool
  | mbtowc .. | mblen .. | wctomb .. | mbrtowc .. | mbrlen .. | wcrtomb ..
  | mbsnrtowcs .. | wcsnrtombs .. | mbstowcs .. | wcstombs .. => true
  | _ => false

/-- A destination after its first elements have been replaced. -/
def store {β : Type} (stored : List β) (destination : Destination β) : Destination β :=
  destination.map (overlay stored)

/-- A character for the output slot, if one is passed. -/
def slotted (hasSlot : Bool) (character : Option UInt32) : Option UInt32 :=
  if hasSlot then character else none

/-- The effect of a call in an encoding on a state. -/
def run (enc : Encoding) (s : ConversionState) : Conversion → Answer × ConversionState
  | decodeOne source hasSlot =>
      let r := enc.decodeOne source s
      (.character r.result (slotted hasSlot r.character), r.state)
  | encodeOne wc destination =>
      let w := enc.encodeOne (destination.map List.length) wc s
      (.bytes w.result (store w.stored destination), w.state)
  | decodeString source destination =>
      let t := enc.decodeString (destination.map List.length) source s
      (.decoded t.result (store t.stored destination) t.cursor, t.state)
  | encodeString source destination =>
      let t := enc.encodeString (destination.map List.length) source s
      (.encoded t.result (store t.stored destination) t.cursor, t.state)
  | nextLength source =>
      let r := enc.decodeOne (some source) s
      (.length r.result, r.state)
  | implicitLength source =>
      let r := enc.decodeOne source s
      (.length r.result, forgetOnFailure r.result r.state)
  | decodeWhole source destination =>
      let t := enc.decodeString (some destination.length) (some source) s
      (.decoded t.result (some (overlay t.stored destination)) t.cursor, t.state)
  | encodeWhole source destination =>
      let t := enc.encodeString (some destination.length) (some source) s
      (.encoded t.result (some (overlay t.stored destination)) t.cursor, t.state)
  | mbtowc source hasSlot =>
      let r := Calls.mbtowc enc source s
      (.returnedCharacter r.returned (slotted hasSlot r.character), r.state)
  | mblen source =>
      let r := Calls.mblen enc source s
      (.returned r.returned, r.state)
  | wctomb wc destination =>
      let w := Calls.wctomb enc destination.isSome wc s
      (.returnedBytes w.returned (store w.stored destination), w.state)
  | mbrtowc source hasSlot =>
      let r := Calls.mbrtowc enc source s
      (.returnedCharacter r.returned (slotted hasSlot r.character), r.state)
  | mbrlen source =>
      let r := Calls.mbrlen enc source s
      (.returned r.returned, r.state)
  | wcrtomb wc destination =>
      let w := Calls.wcrtomb enc destination.isSome wc s
      (.returnedBytes w.returned (store w.stored destination), w.state)
  | mbsnrtowcs hasHandle source bound destination =>
      let t := if hasHandle
        then Calls.mbsnrtowcs enc (destination.map List.length) source bound s
        else Calls.withoutHandle source s
      (.returnedDecoded t.returned (store t.stored destination) t.position, t.state)
  | wcsnrtombs hasHandle source bound destination =>
      let t := if hasHandle
        then Calls.wcsnrtombs enc (destination.map List.length) source bound s
        else Calls.withoutHandle source s
      (.returnedEncoded t.returned (store t.stored destination) t.position, t.state)
  | mbstowcs source destination =>
      let t := Calls.mbsnrtowcs enc (destination.map List.length) source none s
      (.returnedDecoded t.returned (store t.stored destination) (Calls.unmoved source), t.state)
  | wcstombs source destination =>
      let t := Calls.wcsnrtombs enc (destination.map List.length) source none s
      (.returnedEncoded t.returned (store t.stored destination) (Calls.unmoved source), t.state)

end Conversion

end FormattedText
