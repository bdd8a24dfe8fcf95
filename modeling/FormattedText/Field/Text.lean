import FormattedText.Field.Layout
import FormattedText.Multibyte.Text

/-!
# Text fields

Characters and strings of bytes and of wide characters. A string ends at its
first zero, and the precision bounds the bytes that are taken of it, whole
characters only. Wide text is encoded from the initial state in blocks; a
stateful encoding is brought back to the initial shift afterwards if the
precision leaves room for that.
-/

namespace FormattedText

namespace Field

/-- The text that stands for a null pointer. -/
def nullText : List UInt8 := "(null)".toList.map asciiByte

/-- The field of a byte as a character. -/
def char (d : Directive) (b : UInt8) : Field := .complete (layout d false [] [.text [b]])

/-- The field of a string of bytes. -/
def text (d : Directive) (bytes : List UInt8) : Field :=
  let whole := bytes.takeWhile (· ≠ 0)
  let shown := match d.precision? with
    | none => whole
    | some p => whole.take p
  .complete (layout d false [] [.text shown])

/-- The field of a wide character; the precision does not count. The terminator is
a character like any other here. -/
def wideChar (enc : Encoding) (d : Directive) (wc : UInt32) : Field :=
  match (enc.encodeOne (some Encoding.longestCharacter) wc .initial) with
  | ⟨.ok _, bytes, _⟩ => .complete (layout d false [] [.text bytes])
  | ⟨.error e, _, _⟩ => ⟨[], some e⟩

/-- The bytes that bring a state back to the initial shift. They are those of the
terminator without its zero byte. -/
def shiftReset (enc : Encoding) (s : ConversionState) : List UInt8 :=
  if s.isInitial then []
  else (enc.encodeOne (some Encoding.longestCharacter) 0 s).stored.dropLast

/-- The greatest number of bytes of wide text that are encoded at a time. -/
def blockLength : Nat := 256

/-- The buffer that blocks are encoded in, before the first of them. -/
def blockBuffer : List UInt8 := List.replicate blockLength 0

/-- The smaller of a bound and a possible bound. -/
def boundBy (limit : Option Nat) (n : Nat) : Nat :=
  match limit with
  | none => n
  | some l => min l n

/-- The wide characters before the first zero, measured in bytes: the number of
bytes of as many of them as fit within `limit`, and the state after them. -/
def measureFrom (enc : Encoding) (limit : Option Nat) (total : Nat) (s : ConversionState) :
    List UInt32 → Except Failure (Nat × ConversionState)
  | [] => .ok (total, s)
  | wc :: rest =>
      if wc = 0 ∨ !hasRoomFor limit (total + 1) then .ok (total, s)
      else match (enc.encodeOne (some Encoding.longestCharacter) wc s) with
        | ⟨.error e, _, _⟩ => .error e
        | ⟨.ok n, _, s'⟩ =>
            if !hasRoomFor limit (total + n) then .ok (total, s)
            else measureFrom enc limit (total + n) s' rest

/-- The number of bytes that wide text gives within `limit`. -/
def measureWide (enc : Encoding) (limit : Option Nat) (wide : List UInt32) :
    Except Failure Nat :=
  (measureFrom enc limit 0 .initial wide).map fun (total, s) =>
    let reset := (shiftReset enc s).length
    if hasRoomFor limit (total + reset) then total + reset else total

/-- What encoding wide text in blocks gives: the blocks, the state after them, and
why the text could not be encoded to its end. -/
structure WideBlocks where
  /-- The bytes of each block. -/
  blocks : List (List UInt8)
  /-- The state after the last block. -/
  state : ConversionState
  /-- The failure, if a character cannot be encoded. -/
  failure : Option Failure

/-- The number of bytes of all blocks. -/
def WideBlocks.length (w : WideBlocks) : Nat := w.blocks.foldr (fun b n => b.length + n) 0

/-- The number of bytes of a block that a failure cut short. A failure leaves no count,
so the characters in front of the cursor are counted again, from the state before the
block. -/
def recount (enc : Encoding) (s : ConversionState) (wide : List UInt32)
    (cursor : Option (List UInt32)) : Except Failure Nat :=
  let done := wide.length - (cursor.getD []).length
  (enc.encodeString none (some (wide.take done)) s).result

/-- Encodes wide text in blocks within `limit`, each in the same buffer over what is left
there of the block before. Each block is as long as possible; the text ends at its
terminator, at the limit, or before a character that has no bytes in the encoding. -/
def encodeBlocks (enc : Encoding) (limit : Option Nat) (s : ConversionState)
    (buffer : List UInt8) (wide : List UInt32) : WideBlocks :=
  if wide.isEmpty then ⟨[], s, none⟩
  else
    let block := enc.encodeString (some (boundBy limit blockLength)) (some wide) s
    let buffer := overlay block.stored buffer
    match block.result with
    | .error e =>
        match recount enc s wide block.cursor with
        | .error e' => ⟨[], block.state, some e'⟩
        | .ok n => ⟨[buffer.take n], block.state, some e⟩
    | .ok 0 => ⟨[], block.state, none⟩
    | .ok (n + 1) =>
        let bytes := buffer.take (n + 1)
        match block.cursor with
        | none => ⟨[bytes], block.state, none⟩
        | some rest =>
            if rest.length < wide.length then
              let more := encodeBlocks enc (roomAfter limit (n + 1)) block.state buffer rest
              { more with blocks := bytes :: more.blocks }
            else ⟨[bytes], block.state, none⟩
  termination_by wide.length

/-- The pieces of wide text within `limit`: its blocks, and the return to the
initial shift where nothing failed and the limit leaves room. -/
def widePieces (enc : Encoding) (limit : Option Nat) (wide : List UInt32) : Field :=
  let w := encodeBlocks enc limit .initial blockBuffer wide
  let reset := shiftReset enc w.state
  let tail := if w.failure.isNone ∧ hasRoomFor limit (w.length + reset.length)
    then [Piece.text reset] else []
  ⟨w.blocks.map .text ++ tail, w.failure⟩

/-- The field of wide text. Text that is padded on its left is measured first, and
not begun if a character of it cannot be encoded; other text is written up to
that character. -/
def wideText (enc : Encoding) (d : Directive) (wide : List UInt32) : Field :=
  let written := widePieces enc d.precision? wide
  if d.padsLeft then
    match measureWide enc d.precision? wide with
    | .error e => ⟨[], some e⟩
    | .ok n => { written with pieces := .fill space (d.minWidth - n) :: written.pieces }
  else if written.failure.isSome then written
  else
    let gap := d.minWidth - Piece.lengthOf written.pieces
    { written with pieces := written.pieces ++ [.fill space gap] }

end Field

end FormattedText
