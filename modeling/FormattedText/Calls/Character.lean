import FormattedText.Multibyte.Character

/-!
# Character calls with C conventions

The character conversions as C programs know them. A call returns a count, or
-1 with an error number, or -2 where a restartable call lacks bytes; -2 is no
error and leaves the error number alone. The calls that always work on their
implicit state forget it whenever they fail, and return an `int`, which has no
room for every count.
-/

namespace FormattedText

/-- What a call returns. -/
inductive Returned where
  /-- A count. -/
  | value (n : Nat)
  /-- A count as far as an `int` has room for it, or a yes or no as one or zero. -/
  | int (n : Int32)
  /-- A failure, with the error number to publish. -/
  | failed (errno : Errno)
  /-- The source ends inside a character. -/
  | incomplete
  deriving DecidableEq, Repr

namespace Returned

/-- The returned number, read as signed. -/
def code : Returned → Int
  | value n => n
  | int n => n.toInt
  | failed _ => -1
  | incomplete => -2

/-- The error number that the call publishes, if any. -/
def errno? : Returned → Option Errno
  | failed e => some e
  | _ => none

/-- The return of a call that knows no incomplete characters: they are failures. It
is an `int`, and takes the low bits of a count. -/
def ofResult : Except Failure Nat → Returned
  | .ok n => int (Int32.ofNat n)
  | .error failure => failed failure.errno

/-- The return of a restartable call. -/
def ofRestartable : Except Failure Nat → Returned
  | .ok n => value n
  | .error .incompleteSequence => incomplete
  | .error failure => failed failure.errno

end Returned

/-- The effect of a call that reads a character. -/
structure ReadCall where
  /-- What the call returns. -/
  returned : Returned
  /-- The character that it offers for the output slot. -/
  character : Option UInt32
  /-- The state afterwards. -/
  state : ConversionState

/-- The effect of a call that writes a character. -/
structure WriteCall where
  /-- What the call returns. -/
  returned : Returned
  /-- The bytes that it stores. -/
  stored : List UInt8
  /-- The state afterwards. -/
  state : ConversionState

/-- The state after a call that forgets it on failure. -/
def forgetOnFailure (result : Except Failure Nat) (s : ConversionState) : ConversionState :=
  match result with
  | .ok _ => s
  | .error _ => .initial

namespace Calls

/-- Reads a character with the implicit state. Without a source it tells whether
the encoding has a shift state. -/
def mbtowc (enc : Encoding) (source : Option (List UInt8)) (s : ConversionState) : ReadCall :=
  let read := enc.decodeOne source s
  ⟨.ofResult read.result, read.character, forgetOnFailure read.result read.state⟩

/-- The length of the next character, with the implicit state. -/
def mblen (enc : Encoding) (source : Option (List UInt8)) (s : ConversionState) : ReadCall :=
  { mbtowc enc source s with character := none }

/-- Writes a character with the implicit state, into a destination that holds any
character. Without a destination the state is made initial, and the call tells
whether the encoding has a shift state. -/
def wctomb (enc : Encoding) (hasDestination : Bool) (wc : UInt32) (s : ConversionState) :
    WriteCall :=
  if hasDestination then
    let write := enc.encodeOne (some Encoding.longestCharacter) wc s
    ⟨.ofResult write.result, write.stored, forgetOnFailure write.result write.state⟩
  else ⟨.int (if enc.isStateful then 1 else 0), [], .initial⟩

/-- Reads a character restartably. A missing source stands for the empty string,
whose terminator is read and not stored. -/
def mbrtowc (enc : Encoding) (source : Option (List UInt8)) (s : ConversionState) : ReadCall :=
  let read := enc.decodeOne (some (source.getD [0])) s
  ⟨.ofRestartable read.result, if source.isSome then read.character else none, read.state⟩

/-- The length of the next character, restartably. -/
def mbrlen (enc : Encoding) (source : Option (List UInt8)) (s : ConversionState) : ReadCall :=
  { mbrtowc enc source s with character := none }

/-- Writes a character restartably, into a destination that holds any character.
Without a destination the terminator is written to nowhere, which ends a shift. -/
def wcrtomb (enc : Encoding) (hasDestination : Bool) (wc : UInt32) (s : ConversionState) :
    WriteCall :=
  let write := enc.encodeOne (some Encoding.longestCharacter)
    (if hasDestination then wc else 0) s
  ⟨.ofRestartable write.result, if hasDestination then write.stored else [], write.state⟩

/-- Is a state initial? A missing state is. -/
def mbsinit (s : Option ConversionState) : Bool :=
  match s with
  | none => true
  | some s => s.isInitial

end Calls

end FormattedText
