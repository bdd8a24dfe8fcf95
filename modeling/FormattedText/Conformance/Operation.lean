import FormattedText.Json.Printer
import FormattedText.Locale
import FormattedText.Multibyte.Text
import FormattedText.Number.Nearest
import FormattedText.Print
import FormattedText.Text.Quoted
import FormattedText.Text.Replacement

/-!
# Operations under test

The operations that a case may name. Each reads its inputs from a JSON value of
its own shape and is carried out in an encoding; what is observed is an output
text and a result. An operation whose inputs are refused meets an obstacle
instead. One that asks for a buffer longer than the machine can make is broken
off: there is nothing to observe of it.
-/

namespace FormattedText

namespace Conformance

/-- Why a case could not be carried out. -/
inductive Obstacle where
  /-- The locale of the case was refused. -/
  | locale (error : LocaleError)
  /-- There is no operation of this name. -/
  | unsupported (function : String)
  /-- The inputs do not have the shape that the operation needs; the reader complains. -/
  | badInputs (complaint : String)
  /-- A word in the place of a floating-point number means none. -/
  | unknownFloat (word : String)
  deriving DecidableEq, Repr

/-- The obstacle in words. -/
def Obstacle.message : Obstacle → String
  | locale error => error.message
  | unsupported function => "unsupported function " ++ function
  | badInputs complaint => "bad inputs: " ++ complaint
  | unknownFloat word => "unknown float literal " ++ Quoted.text word

/-- What was observed of an operation. -/
structure Observation where
  /-- The output as text. -/
  output : String
  /-- The number that was returned, or the failure. -/
  result : Except Failure Nat

/-- The name of a failure, as cases spell it. -/
def failureName : Failure → String
  | .incompleteSequence => "IncompleteSequence"
  | .invalidSequence => "InvalidSequence"
  | .outputFailed _ => "OutputError"
  | .malformedDirective _ => "MalformedDirective"
  | .insufficientSpace _ => "InsufficientSpace"
  | .argumentMismatch _ => "ArgumentMismatch"
  | .overflow => "Overflow"

/-- An operation. -/
inductive Operation where
  /-- Prints into a buffer. -/
  | printToBuffer (writer : Writer)
  /-- Prints into memory that grows. -/
  | printToMemory (writer : Writer)
  /-- Decodes a string. -/
  | decodeString
  /-- Encodes a string. -/
  | encodeString
  /-- Decodes one character after another, the bytes arriving in pieces. -/
  | decodeOne
  deriving DecidableEq, Repr

/-- The operations by their names. -/
def Operation.names : List (String × Operation) :=
  [("snprintf", .printToBuffer .full), ("sniprintf", .printToBuffer .integerOnly),
   ("asprintf", .printToMemory .full), ("asiprintf", .printToMemory .integerOnly),
   ("decode_string", .decodeString), ("encode_string", .encodeString),
   ("decode_one", .decodeOne)]

/-! ## Arguments of formatted writes -/

/-- Reads an integer of 64 bits with a sign. -/
def int64? (j : Json) : Option Int64 :=
  (j.integerWithin? (-Int.pow 2 63) (Int.pow 2 63 - 1)).map Int64.ofInt

/-- Reads an integer of 64 bits without a sign. -/
def uint64? (j : Json) : Option UInt64 := (j.natBelow? (Nat.pow 2 64)).map UInt64.ofNat

/-- Reads a count of elements. -/
def size? (j : Json) : Option Nat := j.natBelow? (Nat.pow 2 64)

/-- Reads a byte. -/
def byte? (j : Json) : Option UInt8 := (j.natBelow? (Nat.pow 2 8)).map UInt8.ofNat

/-- Reads a wide character. -/
def wide? (j : Json) : Option UInt32 := (j.natBelow? (Nat.pow 2 32)).map UInt32.ofNat

/-- Reads a list. -/
def list? {α : Type} (read : Json → Option α) (j : Json) : Option (List α) :=
  j.array?.bind (·.mapM read)

/-- The bytes of a text. -/
def textBytes (s : String) : List UInt8 := s.toUTF8.toList

/-- The code points of a text. -/
def textWide (s : String) : List UInt32 := s.toList.map Char.val

/-- The floating-point numbers that are given by a word. -/
def floatWords : List (String × Binary64) :=
  [("inf", .infinity false), ("-inf", .infinity true), ("nan", .nan false), ("-nan", .nan true)]

/-- Reads a floating-point number: a number, or a word. -/
def float? : Json → Option (Except Obstacle Binary64)
  | .number (.integer n) => some (.ok ((Binary64.ofNat n.natAbs).withSign (n < 0)))
  | .number (.float v) => some (.ok v)
  | .string word =>
      some (match floatWords.lookup word with
        | some v => .ok v
        | none => .error (.unknownFloat word))
  | _ => none

/-- Reads an argument: an object with one member, whose key tells the kind. Where a text
comes to stand is not settled yet. -/
def argument? : Json → Option (Except Obstacle Argument)
  | .object [(kind, value)] =>
      match kind with
      | "int" => (int64? value).map (.ok ∘ .int)
      | "uint" => (uint64? value).map (.ok ∘ .uint)
      | "float" => (float? value).map (·.map .float)
      | "char" => (byte? value).map (.ok ∘ .char)
      | "wide_char" => (wide? value).map (.ok ∘ .wideChar)
      | "str" =>
          (value.orNull? Json.string?).map fun s => .ok (.text (s.map fun s => ⟨textBytes s, 0⟩))
      | "wide_str" =>
          (value.orNull? Json.string?).map fun s =>
            .ok (.wideText (s.map fun s => ⟨textWide s, 0⟩))
      | "pointer" => (uint64? value).map (.ok ∘ .pointer)
      | "count" => (int64? value).map (.ok ∘ .count)
      | _ => none
  | _ => none

/-! ## Inputs -/

/-- Reads a field that may be missing. -/
def orDefault? {α : Type} (read : Json → Option α) (default : α) : Option Json → Option α
  | none => some default
  | some j => read j

/-- The inputs of a formatted write. -/
structure PrintInputs where
  /-- The format. -/
  format : String
  /-- The arguments, as far as they mean something. -/
  args : List (Except Obstacle Argument)
  /-- The length of the buffer. -/
  capacity : Nat

/-- Reads the inputs of a formatted write. -/
def PrintInputs.ofJson? (j : Json) : Option PrintInputs :=
  match j.fields? ["format", "args", "capacity"] with
  | some [some format, args, capacity] => do
      some ⟨← format.string?, ← orDefault? (list? argument?) [] args,
        ← orDefault? size? 0 capacity⟩
  | _ => none

/-- Reads the inputs of a conversion of a string: the source, and the room in the
destination if there is one. -/
def conversionInputs? {α : Type} (sourceName roomName : String) (element : Json → Option α)
    (j : Json) : Option (List α × Option Nat) :=
  match j.fields? [sourceName, roomName] with
  | some [some source, room] => do
      some (← list? element source, ← orDefault? (·.orNull? size?) none room)
  | _ => none

/-- Reads the pieces in which bytes arrive; `null` makes the state initial. -/
def chunks? (j : Json) : Option (List (Option (List UInt8))) :=
  match j.fields? ["chunks"] with
  | some [some chunks] => list? (·.orNull? (list? byte?)) chunks
  | _ => none

/-! ## The machine -/

/-- What the operations depend on of the machine that carries them out. -/
structure Host where
  /-- Can a buffer of so many bytes be made? -/
  reserves : Nat → Bool
  /-- The length of a buffer is a signed number of 64 bits. -/
  reserves_lt : ∀ n, reserves n = true → n < Nat.pow 2 63
  /-- Does the machine carry an operation to its end, in an encoding and on its inputs? What is
  built on the way may be more than it can hold. -/
  endures : Operation → Encoding → Json → Bool
  /-- What the reader says of inputs of an operation that it refuses. -/
  complaint : Operation → Json → String

/-- A machine that makes every buffer whose length can be counted, and never gives out. -/
def Host.ample (complaint : Operation → Json → String) : Host where
  reserves n := decide (n < Nat.pow 2 63)
  reserves_lt _ h := of_decide_eq_true h
  endures _ _ _ := true
  complaint := complaint

/-- Where the texts of a case stand, by the places of the arguments. -/
abbrev Placement := Nat → UInt64

/-- Arguments with their texts at their addresses. -/
def placed (place : Placement) (args : List Argument) : List Argument :=
  args.mapIdx fun i a => a.placedAt (place i)

/-! ## Observations -/

/-- What is observed of a formatted write into a buffer of zeros: the text up to the
first zero. -/
def observeBuffer (writer : Writer) (inputs : PrintInputs) (args : List Argument)
    (enc : Encoding) : Observation :=
  let d := FormattedText.printToBuffer ⟨writer, enc⟩ (List.replicate inputs.capacity 0)
    (textBytes inputs.format) args
  ⟨Replacement.text (d.sink.storage.takeWhile (· ≠ 0)), d.result⟩

/-- What is observed of a formatted write into memory: all of the text, and nothing
after a failure. -/
def observeMemory (writer : Writer) (inputs : PrintInputs) (args : List Argument)
    (enc : Encoding) : Observation :=
  match printed ⟨writer, enc⟩ (textBytes inputs.format) args with
  | .ok bytes => ⟨Replacement.text bytes, .ok bytes.length⟩
  | .error e => ⟨"", .error e⟩

/-- The output of a conversion of a string: the destination, and how much of the
source is left. -/
def conversionOutput {α β : Type} (name : String) (element : β → Json) (room : Option Nat)
    (zero : β) (t : StringConversion α β) : String :=
  let destination := overlay t.stored (List.replicate (room.getD 0) zero)
  Json.compact (.object
    [(name, .array (destination.map element)),
     ("rest", Json.ofOption (fun rest => Json.integer rest.length) t.cursor)])

/-- What is observed of decoding a string. -/
def observeDecodeString (bytes : List UInt8) (room : Option Nat) (enc : Encoding) :
    Observation :=
  let t := enc.decodeString room (some bytes) .initial
  ⟨conversionOutput "chars" (fun wc => Json.integer wc.toNat) room 0 t, t.result⟩

/-- What is observed of encoding a string. -/
def observeEncodeString (wide : List UInt32) (room : Option Nat) (enc : Encoding) :
    Observation :=
  let t := enc.encodeString room (some wide) .initial
  ⟨conversionOutput "bytes" (fun b => Json.integer b.toNat) room 0 t, t.result⟩

/-- The reads of characters from pieces, one from each, on one state. -/
def readPieces (enc : Encoding) (s : ConversionState) :
    List (Option (List UInt8)) → List CharacterRead
  | [] => []
  | piece :: rest =>
      let r := enc.decodeOne piece s
      r :: readPieces enc r.state rest

/-- A read of a character as an output. -/
def readOutput (r : CharacterRead) : Json :=
  match r.result with
  | .ok n =>
      .object (("ret", Json.integer n) ::
        (r.character.map fun wc => ("wc", Json.integer wc.toNat)).toList)
  | .error e => .object [("error", .string (failureName e))]

/-- What is observed of reading characters. -/
def readsObservation (reads : List CharacterRead) : Observation :=
  ⟨Json.compact (.array (reads.map readOutput)),
    (reads.getLast?.map (·.result)).getD (.ok 0)⟩

/-! ## Trials -/

/-- What is to be done once the inputs of an operation are read. -/
structure Trial where
  /-- The number of bytes of the buffer that is made first, if one is. -/
  buffer : Option Nat
  /-- What is observed, in an encoding and with the texts where they stand. -/
  observe : Placement → Encoding → Observation

namespace Trial

/-- A formatted write; its arguments must mean something. -/
def ofPrint (buffer : PrintInputs → Option Nat)
    (observe : PrintInputs → List Argument → Encoding → Observation) (inputs : PrintInputs) :
    Except Obstacle Trial :=
  (inputs.args.mapM id).map fun args =>
    ⟨buffer inputs, fun place => observe inputs (placed place args)⟩

/-- A conversion of a string into a buffer of elements of so many bytes. -/
def ofConversion {α : Type} (elementSize : Nat)
    (observe : List α → Option Nat → Encoding → Observation) (inputs : List α × Option Nat) :
    Except Obstacle Trial :=
  .ok ⟨inputs.2.map (elementSize * ·), fun _ => observe inputs.1 inputs.2⟩

/-- Characters are read from pieces, with no buffer. -/
def ofPieces (pieces : List (Option (List UInt8))) : Except Obstacle Trial :=
  .ok ⟨none, fun _ enc => readsObservation (readPieces enc .initial pieces)⟩

/-- The trial that inputs give, if they can be read. -/
def ofInputs {α : Type} (complaint : String) (trial : α → Except Obstacle Trial) :
    Option α → Except Obstacle Trial
  | none => .error (.badInputs complaint)
  | some inputs => trial inputs

end Trial

namespace Operation

/-- Reads the inputs of an operation. -/
def trial (op : Operation) (complaint : String) (inputs : Json) : Except Obstacle Trial :=
  match op with
  | .printToBuffer writer =>
      Trial.ofInputs complaint (Trial.ofPrint (some ·.capacity) (observeBuffer writer))
        (PrintInputs.ofJson? inputs)
  | .printToMemory writer =>
      Trial.ofInputs complaint (Trial.ofPrint (fun _ => none) (observeMemory writer))
        (PrintInputs.ofJson? inputs)
  | .decodeString =>
      Trial.ofInputs complaint (Trial.ofConversion 4 observeDecodeString)
        (conversionInputs? "bytes" "max_chars" byte? inputs)
  | .encodeString =>
      Trial.ofInputs complaint (Trial.ofConversion 1 observeEncodeString)
        (conversionInputs? "wide" "max_bytes" wide? inputs)
  | .decodeOne => Trial.ofInputs complaint Trial.ofPieces (chunks? inputs)

/-- What is observed of an operation, or nothing where the machine breaks it off. -/
def observe (op : Operation) (host : Host) (place : Placement) (enc : Encoding)
    (inputs : Json) : Option (Except Obstacle Observation) :=
  match op.trial (host.complaint op inputs) inputs with
  | .error o => some (.error o)
  | .ok trial =>
      if trial.buffer.all host.reserves && host.endures op enc inputs then
        some (.ok (trial.observe place enc))
      else none

end Operation

end Conformance

end FormattedText
