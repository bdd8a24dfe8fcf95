import FormattedText.Delivery

/-!
# Steps on a sink

A sink is used in steps: whole formatted writes, chunks of bytes, and ends of
writes, in any order. Each step has an outcome of its own and goes on with the sink
that the step before has left.
-/

namespace FormattedText

/-- A step in the use of a sink. -/
inductive SinkStep where
  /-- Formatted text is written, and the write ended. -/
  | print (options : FormatOptions) (format : List UInt8) (args : List Argument)
  /-- A chunk of bytes is written. -/
  | write (bytes : List UInt8)
  /-- A write is ended. -/
  | finish
  deriving DecidableEq, Repr

/-- The outcome of an operation that writes no formatted text. -/
def Effect.delivered {σ : Type} (e : Effect σ) : Delivered σ :=
  ⟨match e.failure with
    | none => .ok 0
    | some failure => .error failure,
   e.sink, []⟩

namespace SinkStep

variable {σ : Type} [Sink σ]

/-- The outcome of a step on a sink. -/
def perform (sink : σ) : SinkStep → Delivered σ
  | .print options format args => formatInto sink options format args
  | .write bytes => (Sink.write sink bytes).delivered
  | .finish => (Sink.finish sink).delivered

/-- The outcomes of steps on a sink, one after another. -/
def performAll (sink : σ) : List SinkStep → List (Delivered σ)
  | [] => []
  | step :: rest =>
      let d := step.perform sink
      d :: performAll d.sink rest

/-- The sink after some steps on it. -/
def sinkAfter (sink : σ) (steps : List SinkStep) : σ :=
  steps.foldl (fun sink step => (step.perform sink).sink) sink

end SinkStep

end FormattedText
