import FormattedText.Failure
import FormattedText.Directive.Basic

/-!
# Layout of fields

A field is written in pieces: bytes as they are, and runs of one byte. Layout
puts padding to the field width around the text: after it with the flag `-`,
between the sign and the digits where zeros may pad, and else before it.
-/

namespace FormattedText

/-- A piece of output. -/
inductive Piece where
  /-- Bytes as they are. -/
  | text (bytes : List UInt8)
  /-- A byte repeated. -/
  | fill (byte : UInt8) (count : Nat)
  deriving DecidableEq, Repr

namespace Piece

/-- The bytes of a piece. -/
def bytes : Piece → List UInt8
  | text bytes => bytes
  | fill byte count => List.replicate count byte

/-- The number of bytes of a piece. -/
def length : Piece → Nat
  | text bytes => bytes.length
  | fill _ count => count

@[simp] theorem length_bytes (p : Piece) : p.bytes.length = p.length := by
  cases p <;> simp [bytes, length]

/-- The bytes of pieces one after another. -/
def bytesOf (pieces : List Piece) : List UInt8 := pieces.flatMap bytes

/-- The number of bytes of pieces together. -/
def lengthOf (pieces : List Piece) : Nat := pieces.foldr (fun p n => p.length + n) 0

theorem length_bytesOf (pieces : List Piece) : (bytesOf pieces).length = lengthOf pieces := by
  induction pieces with
  | nil => rfl
  | cons p pieces ih =>
    rw [bytesOf, List.flatMap_cons, List.length_append, length_bytes, ← bytesOf, ih]
    rfl

end Piece

/-- What a directive contributes to the output: pieces, and a failure if it cannot be
written to its end. -/
structure Field where
  /-- The pieces to write. -/
  pieces : List Piece
  /-- Why the field ends early, if it does. -/
  failure : Option Failure
  deriving DecidableEq, Repr

namespace Field

/-- The byte of a space. -/
def space : UInt8 := asciiByte ' '

/-- The byte of the digit zero. -/
def zero : UInt8 := asciiByte '0'

/-- Pads a text of a sign or other lead and a body to the width of a directive. With
`zeroFill` the padding is zeros between the two, unless the text is left
justified. -/
def layout (d : Directive) (zeroFill : Bool) (lead : List UInt8) (body : List Piece) :
    List Piece :=
  let gap := d.minWidth - (lead.length + Piece.lengthOf body)
  if d.flags.leftJustify then .text lead :: body ++ [.fill space gap]
  else if zeroFill then .text lead :: .fill zero gap :: body
  else .fill space gap :: .text lead :: body

/-- A field without a failure. -/
def complete (pieces : List Piece) : Field := ⟨pieces, none⟩

/-- The bytes of a field. -/
def bytes (f : Field) : List UInt8 := Piece.bytesOf f.pieces

end Field

end FormattedText
