import FormattedText.Failure
import FormattedText.Directive.Basic
import FormattedText.Number.Binary64

/-!
# Arguments

The arguments of a formatted write. Each has a kind of its own; a directive
takes the next argument and converts it, and fails where there is none or its
kind does not suit. An argument is used up even when its kind does not suit.
-/

namespace FormattedText

/-- Elements as they stand in memory. -/
structure Placed (α : Type) where
  /-- The elements. -/
  elements : List α
  /-- The address of the first of them. -/
  address : UInt64
  deriving DecidableEq, Repr

/-- An argument of a formatted write. -/
inductive Argument where
  /-- A signed integer. -/
  | int (value : Int64)
  /-- An unsigned integer. -/
  | uint (value : UInt64)
  /-- A floating-point number. -/
  | float (value : Binary64)
  /-- A byte as a character. -/
  | char (value : UInt8)
  /-- A wide character. -/
  | wideChar (value : UInt32)
  /-- Text in bytes, or a null pointer. -/
  | text (value : Option (Placed UInt8))
  /-- Wide text, or a null pointer. -/
  | wideText (value : Option (Placed UInt32))
  /-- An address. -/
  | pointer (value : UInt64)
  /-- A place for the number of bytes written so far, with its value before. -/
  | count (initial : Int64)
  deriving DecidableEq, Repr

namespace Argument

/-- The argument, its text standing at an address. -/
def placedAt (address : UInt64) : Argument → Argument
  | text t => text (t.map fun s => { s with address := address })
  | wideText t => wideText (t.map fun s => { s with address := address })
  | a => a

/-- The integer that an argument is, as far as it is one. Characters count as
integers. -/
def integer? : Argument → Option Int
  | int v => some v.toInt
  | uint v => some v.toNat
  | char c => some c.toNat
  | wideChar c => some c.toNat
  | _ => none

/-- The number of a pointer. Text has the address where it stands, a null pointer the
address zero. -/
def address? : Argument → Option Nat
  | pointer p => some p.toNat
  | uint v => some v.toNat
  | int v => some (Length.narrowUnsigned .long v.toInt)
  | text t => some (t.elim 0 (·.address.toNat))
  | wideText t => some (t.elim 0 (·.address.toNat))
  | _ => none

/-- What an argument is as a signed integer of a length. -/
def signed? (length : Length) (a : Argument) : Option Int :=
  a.integer?.map length.narrowSigned

/-- What an argument is as an unsigned integer of a length; an address is one too. -/
def unsigned? (length : Length) : Argument → Option Nat
  | pointer p => some (length.narrowUnsigned p.toNat)
  | a => a.integer?.map length.narrowUnsigned

/-- What an argument is as a byte. -/
def byte? (a : Argument) : Option UInt8 := a.integer?.map UInt8.ofInt

/-- What an argument is as a wide character. -/
def wideChar? (a : Argument) : Option UInt32 := a.integer?.map UInt32.ofInt

/-- What an argument is as a floating-point number. -/
def float? : Argument → Option Binary64
  | float v => some v
  | _ => none

/-- What an argument is as text. -/
def text? : Argument → Option (Option (List UInt8))
  | text t => some (t.map (·.elements))
  | _ => none

/-- What an argument is as wide text. -/
def wideText? : Argument → Option (Option (List UInt32))
  | wideText t => some (t.map (·.elements))
  | _ => none

/-- The value of a place for a count. -/
def count? : Argument → Option Int64
  | count initial => some initial
  | _ => none

end Argument

/-- The arguments that are still to be taken. -/
structure Arguments where
  /-- The arguments not taken yet. -/
  rest : List Argument
  /-- The number of arguments taken before. -/
  position : Nat
  deriving DecidableEq, Repr

namespace Arguments

/-- All arguments of a call. -/
def start (args : List Argument) : Arguments := ⟨args, 0⟩

/-- Takes the next argument as `pick` reads it. -/
def take {α : Type} (args : Arguments) (pick : Argument → Option α) :
    Except Failure α × Arguments :=
  match args.rest with
  | [] => (.error (.argumentMismatch args.position), args)
  | a :: rest =>
      (match pick a with
        | some v => .ok v
        | none => .error (.argumentMismatch args.position),
       ⟨rest, args.position + 1⟩)

/-- Takes the next argument as `pick` reads it, and goes on only if it suits. -/
def expect {α : Type} (args : Arguments) (pick : Argument → Option α) :
    Except Failure (α × Arguments) :=
  match args.take pick with
  | (.ok v, args') => .ok (v, args')
  | (.error e, _) => .error e

end Arguments

end FormattedText
