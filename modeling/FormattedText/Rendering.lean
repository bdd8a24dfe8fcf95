import FormattedText.Argument
import FormattedText.Directive.Segment
import FormattedText.Field.Floating
import FormattedText.Field.Text

/-!
# Rendering

A format string and its arguments give a list of events: pieces to be written,
and counts to be stored. Rendering goes through the segments from left to right
and stops at the first failure; what was rendered before stays. It knows the
number of bytes rendered so far, which `%n` stores and which must not exceed the
greatest length that can be reported.
-/

namespace FormattedText

/-- Which conversions a writer has. -/
inductive Writer where
  /-- All of them. -/
  | full
  /-- All but the floating-point ones, which are unknown conversions here. -/
  | integerOnly
  deriving DecidableEq, Repr

/-- What a formatted write depends on besides the format and the arguments. -/
structure FormatOptions where
  /-- The conversions that there are. -/
  writer : Writer
  /-- The encoding that wide characters are written in. -/
  encoding : Encoding
  deriving DecidableEq, Repr

/-- Something that happens in a formatted write. -/
inductive OutputEvent where
  /-- A piece is written. -/
  | write (piece : Piece)
  /-- The count argument at `index` takes a value. -/
  | count (index : Nat) (value : Int)
  deriving DecidableEq, Repr

/-- What a format gives: the events in order, and the length of all output or why
rendering ended. -/
structure Rendering where
  /-- What happens. -/
  events : List OutputEvent
  /-- The number of bytes, or the failure. -/
  result : Except Failure Nat

/-- What a conversion does. -/
inductive ConversionKind where
  | signed
  | unsigned
  | char
  | wideChar
  | text
  | wideText
  | pointer
  | count
  | floating
  /-- The conversion is unknown: its own character is written. -/
  | unknown
  deriving DecidableEq, Repr

namespace Directive

/-- What the conversion of a directive does in a writer. -/
def kind (writer : Writer) (d : Directive) : ConversionKind :=
  let isOneOf (letters : List Char) : Bool := (letters.map asciiByte).contains d.conversion
  let wide := d.length == .long
  if isOneOf ['d', 'i'] then .signed
  else if isOneOf ['u', 'o', 'x', 'X'] then .unsigned
  else if isOneOf ['c'] then if wide then .wideChar else .char
  else if isOneOf ['C'] then .wideChar
  else if isOneOf ['s'] then if wide then .wideText else .text
  else if isOneOf ['S'] then .wideText
  else if isOneOf ['p'] then .pointer
  else if isOneOf ['n'] then .count
  else if writer = .full ∧ isOneOf ['f', 'F', 'e', 'E', 'g', 'G', 'a', 'A'] then .floating
  else .unknown

/-- The directive with a width taken from an argument: a negative one asks for left
justification. -/
def withWidth (d : Directive) (w : Int) : Except Failure Directive :=
  if maxMeasure < w.natAbs then .error .overflow
  else .ok { d with
    flags := if w < 0 then d.flags.set .leftJustify else d.flags
    width := .fixed w.natAbs }

/-- The directive with a precision taken from an argument: a negative one counts as
none. -/
def withPrecision (d : Directive) (p : Int) : Directive :=
  { d with precision := if p < 0 then .absent else .fixed p.toNat }

/-- Takes the width from the arguments if the directive leaves it to them. -/
def resolveWidth (d : Directive) (args : Arguments) : Except Failure (Directive × Arguments) :=
  if d.width = .fromArgument then do
    let (w, args) ← args.expect (Argument.signed? .plain)
    return (← d.withWidth w, args)
  else .ok (d, args)

/-- Takes the precision from the arguments if the directive leaves it to them. -/
def resolvePrecision (d : Directive) (args : Arguments) :
    Except Failure (Directive × Arguments) :=
  if d.precision = .fromArgument then do
    let (p, args) ← args.expect (Argument.signed? .plain)
    return (d.withPrecision p, args)
  else .ok (d, args)

end Directive

/-- What a directive does: it writes a field or stores a count. -/
inductive Expansion where
  /-- A field is written. -/
  | field (field : Field)
  /-- The count argument at `index` takes the number of bytes so far. -/
  | count (index : Nat)
  deriving DecidableEq, Repr

namespace Directive

/-- Expands a directive whose width and precision are known, with its argument. -/
def expand (options : FormatOptions) (d : Directive) (args : Arguments) :
    Except Failure (Expansion × Arguments) :=
  let field {α : Type} (pick : Argument → Option α) (f : α → Field) :=
    (args.expect pick).map fun (v, args') => (Expansion.field (f v), args')
  match d.kind options.writer with
  | .signed => field (Argument.signed? d.length) (Field.signed d)
  | .unsigned => field (Argument.unsigned? d.length) (Field.unsigned d)
  | .char => field Argument.byte? (Field.char d)
  | .wideChar => field Argument.wideChar? (Field.wideChar options.encoding d)
  | .text => field Argument.text? fun t => Field.text d (t.getD Field.nullText)
  | .wideText => field Argument.wideText? fun t =>
      match t with
      | none => Field.text d Field.nullText
      | some wide => Field.wideText options.encoding d wide
  | .pointer => field Argument.address? (Field.pointer d)
  | .floating => field Argument.float? (Field.floating d)
  | .count => (args.expect Argument.count?).map fun (_, args') => (.count args.position, args')
  | .unknown => .ok (.field (Field.char d d.conversion), args)

/-- Expands a directive with the arguments that its width, its precision and its
conversion take, in this order. -/
def expandResolved (options : FormatOptions) (d : Directive) (args : Arguments) :
    Except Failure (Expansion × Arguments) := do
  let (d, args) ← d.resolveWidth args
  let (d, args) ← d.resolvePrecision args
  d.expand options args

end Directive

/-- The length of the runs in which a repeated byte is written. -/
def fillRun : Nat := 32

/-- What is written of a piece that exceeds the `budget` of bytes: nothing of bytes as
they are, and whole runs of a repeated byte. -/
def Piece.cut (budget : Nat) : Piece → Piece
  | .text _ => .text []
  | .fill byte _ => .fill byte (budget / fillRun * fillRun)

/-- Pieces as far as they may be written after `total` bytes, and the number of bytes
then, or `none` where they exceed the greatest length. -/
def fitting (total : Nat) : List Piece → List Piece × Option Nat
  | [] => ([], some total)
  | p :: rest =>
      if total + p.length ≤ Directive.maxMeasure then
        let (pieces, total') := fitting (total + p.length) rest
        (p :: pieces, total')
      else ([p.cut (Directive.maxMeasure - total)], none)

namespace Rendering

/-- The rendering of a field after `total` bytes. -/
def ofField (total : Nat) (f : Field) : Rendering :=
  let (pieces, total') := fitting total f.pieces
  ⟨pieces.map .write,
   match total', f.failure with
    | none, _ => .error .overflow
    | some _, some e => .error e
    | some n, none => .ok n⟩

/-- A rendering that comes after other events. -/
def after (events : List OutputEvent) (r : Rendering) : Rendering :=
  { r with events := events ++ r.events }

/-- The rendering of one segment after `total` bytes, and the arguments that are left. -/
def ofSegment (options : FormatOptions) (total : Nat) (args : Arguments) :
    Segment → Rendering × Arguments
  | .literal bytes => (ofField total (.complete [.text bytes]), args)
  | .percent => (ofField total (.complete [.text [percentByte]]), args)
  | .directive d =>
      match d.expandResolved options args with
      | .error e => (⟨[], .error e⟩, args)
      | .ok (.field f, args') => (ofField total f, args')
      | .ok (.count index, args') =>
          (⟨[.count index (d.length.narrowSigned total)], .ok total⟩, args')

/-- The rendering of segments after `total` bytes. -/
def ofItems (options : FormatOptions) (total : Nat) (args : Arguments) :
    List FormatItem → Rendering
  | [] => ⟨[], .ok total⟩
  | item :: rest =>
      match item.content with
      | .error e => ⟨[], .error e⟩
      | .ok segment =>
          let (r, args') := ofSegment options total args segment
          match r.result with
          | .error e => ⟨r.events, .error e⟩
          | .ok total' => (ofItems options total' args' rest).after r.events

/-- The rendering of a format with its arguments. -/
def ofFormat (options : FormatOptions) (format : List UInt8) (args : List Argument) :
    Rendering :=
  ofItems options 0 (.start args) (Format.items format)

/-- The bytes that a rendering writes. -/
def bytes (r : Rendering) : List UInt8 :=
  r.events.flatMap fun event =>
    match event with
    | .write p => p.bytes
    | .count _ _ => []

end Rendering

end FormattedText
