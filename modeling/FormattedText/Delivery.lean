import FormattedText.Rendering
import FormattedText.Sink.Basic

/-!
# Delivery

Formatted writing into a sink. The events of a rendering are carried out in
order; the bytes are gathered in a chunk, which is handed to the sink whenever it
is full and another byte is to come. A failure of the sink ends the events. In
any case the rest of the chunk is handed over and the sink is finished, so that a
buffer is terminated whatever happened; the first failure is the one reported.
-/

namespace FormattedText

/-- The length of a chunk. -/
def chunkLength : Nat := 256

/-- A delivery in progress: `σ` is the type of the sink. -/
structure Delivery (σ : Type) where
  /-- The sink, with what it was handed so far. -/
  sink : σ
  /-- Bytes not handed over yet. -/
  chunk : List UInt8
  /-- The values that count arguments have taken, the latest first. -/
  counts : List (Nat × Int)
  /-- The failure of the sink, if it has failed. -/
  failure : Option Failure

namespace Delivery

variable {σ : Type} [Sink σ]

/-- Hands over full chunks until what is left fits one chunk. -/
def drain (d : Delivery σ) : Delivery σ :=
  if _h : d.chunk.drop chunkLength = [] then d
  else
    match Sink.write d.sink (d.chunk.take chunkLength) with
    | ⟨sink, none⟩ => drain { d with sink := sink, chunk := d.chunk.drop chunkLength }
    | ⟨sink, some e⟩ => { d with sink := sink, chunk := [], failure := some e }
  termination_by d.chunk.length
  decreasing_by
    simp only [List.drop_eq_nil_iff, chunkLength] at *
    simp only [List.length_drop]
    omega

/-- Gathers bytes. -/
def put (d : Delivery σ) (bytes : List UInt8) : Delivery σ :=
  drain { d with chunk := d.chunk ++ bytes }

/-- Gathers a byte repeated, run by run; a failure ends it. -/
def putFill (d : Delivery σ) (byte : UInt8) (count : Nat) : Delivery σ :=
  if count = 0 ∨ d.failure.isSome then d
  else putFill (d.put (List.replicate (min count fillRun) byte)) byte (count - fillRun)
  termination_by count
  decreasing_by simp only [fillRun]; omega

/-- Carries out an event, unless the sink has failed. -/
def perform (d : Delivery σ) (event : OutputEvent) : Delivery σ :=
  if d.failure.isSome then d
  else match event with
    | .write (.text bytes) => d.put bytes
    | .write (.fill byte count) => d.putFill byte count
    | .count index value => { d with counts := (index, value) :: d.counts }

/-- Carries out events in order. -/
def performAll (d : Delivery σ) (events : List OutputEvent) : Delivery σ :=
  events.foldl perform d

/-- Hands over the rest of the chunk. -/
def flush (d : Delivery σ) : Effect σ :=
  if d.chunk.isEmpty then ⟨d.sink, none⟩ else Sink.write d.sink d.chunk

end Delivery

/-- The outcome of a formatted write. -/
structure Delivered (σ : Type) where
  /-- The number of bytes of the output, or the first failure. -/
  result : Except Failure Nat
  /-- The sink afterwards. -/
  sink : σ
  /-- The values that count arguments have taken, the latest first. -/
  counts : List (Nat × Int)

/-- The result of a write, from the failures in the order in which they count. -/
def firstFailure (failures : List (Option Failure)) (result : Except Failure Nat) :
    Except Failure Nat :=
  match failures.findSome? id with
  | some e => .error e
  | none => result

/-- Writes formatted text into a sink. -/
def formatInto {σ : Type} [Sink σ] (sink : σ) (options : FormatOptions)
    (format : List UInt8) (args : List Argument) : Delivered σ :=
  let rendering := Rendering.ofFormat options format args
  let delivery := Delivery.performAll ⟨sink, [], [], none⟩ rendering.events
  let flushed := delivery.flush
  let finished := Sink.finish flushed.sink
  let rendered : Option Failure := match rendering.result with
    | .ok _ => none
    | .error e => some e
  ⟨firstFailure [delivery.failure, rendered, flushed.failure, finished.failure] rendering.result,
   finished.sink, delivery.counts⟩

/-- The value of a count argument after a write. -/
def finalCount (counts : List (Nat × Int)) (index : Nat) (initial : Int) : Int :=
  (counts.lookup index).getD initial

/-- The values of all count arguments after a write, in the order of the arguments. -/
def finalCounts (counts : List (Nat × Int)) (args : List Argument) : List Int :=
  args.zipIdx.filterMap fun (a, index) =>
    a.count?.map fun initial => finalCount counts index initial.toInt

end FormattedText
