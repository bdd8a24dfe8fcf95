import FormattedText.Errno

/-!
# Transports

A transport takes bytes on their way out: it may take fewer than it is offered,
or fail. Its behaviour is a script of the outcomes of the next offers; after the
script it takes all it is offered. It keeps the bytes that it took and the sizes
of all offers.
-/

namespace FormattedText

/-- Why a transport took nothing. -/
inductive TransportError where
  /-- An error with a number. -/
  | numbered (errno : Errno)
  /-- An interruption that came without a number. -/
  | interrupted
  /-- An error that came without a number. -/
  | unknown
  deriving DecidableEq, Repr

/-- The error number of a failed offer. -/
def TransportError.errno : TransportError → Errno
  | numbered e => e
  | interrupted => .interrupted
  | unknown => .inputOutput

/-- The outcome of an offer. -/
inductive Outcome where
  /-- The transport takes at most `n` bytes, and reports `n`. -/
  | accepts (n : Nat)
  /-- The offer fails. -/
  | fails (error : TransportError)
  deriving DecidableEq, Repr

/-- A transport, with what it has taken. -/
structure Transport where
  /-- The outcomes of the next offers. -/
  script : List Outcome
  /-- The bytes taken so far. -/
  buffer : Array UInt8
  /-- The sizes of all offers so far, the latest first. -/
  offers : List Nat
  deriving DecidableEq, Repr

namespace Transport

/-- A transport that has not been offered anything yet. -/
def scripted (script : List Outcome) : Transport := ⟨script, #[], []⟩

/-- The bytes taken so far, byte by byte. -/
def accepted (t : Transport) : List UInt8 := t.buffer.toList

/-- The sizes of all offers so far, in order. -/
def offered (t : Transport) : List Nat := t.offers.reverse

/-- The transport after an offer of which it took the first `n` bytes. -/
def taking (t : Transport) (script : List Outcome) (bytes : List UInt8) (n : Nat) : Transport :=
  ⟨script, t.buffer.append (bytes.take n).toArray, bytes.length :: t.offers⟩

@[simp] theorem accepted_taking (t : Transport) (script : List Outcome) (bytes : List UInt8)
    (n : Nat) : (t.taking script bytes n).accepted = t.accepted ++ bytes.take n := by
  simp [taking, accepted]

@[simp] theorem offered_taking (t : Transport) (script : List Outcome) (bytes : List UInt8)
    (n : Nat) : (t.taking script bytes n).offered = t.offered ++ [bytes.length] := by
  simp [taking, offered]

end Transport

end FormattedText
