import FormattedText.Proofs.Delivery
import FormattedText.Sink.Step

/-!
# All sinks get the same text

What a step writes does not depend on the sink: `SinkStep.bytes`, `SinkStep.result` and
`SinkStep.counts` say what it is. A faithful sink performs a step by showing these bytes
behind the others (`perform_faithful`), and so any number of steps. The three kinds of
sinks are faithful, each to its own view, so the same steps give the same results on all
of them, and their contents are views of one text (`performAll_agree`).
-/

namespace FormattedText

namespace SinkStep

/-- The bytes that a step adds. -/
def bytes : SinkStep → List UInt8
  | .print options format args => (Rendering.ofFormat options format args).bytes
  | .write chunk => chunk
  | .finish => []

/-- The result of a step on a sink that does not fail. -/
def result : SinkStep → Except Failure Nat
  | .print options format args => (Rendering.ofFormat options format args).result
  | .write _ | .finish => .ok 0

/-- The values that count arguments take in a step, the latest first. -/
def counts : SinkStep → List (Nat × Int)
  | .print options format args => (Rendering.ofFormat options format args).counts
  | .write _ | .finish => []

/-- Is the step a formatted write? -/
def isPrint : SinkStep → Bool
  | .print .. => true
  | .write _ | .finish => false

/-- Does the step finish the sink? -/
def finishes : SinkStep → Bool
  | .print .. | .finish => true
  | .write _ => false

/-- The outcome of a step on a sink that loses nothing: `front` are the bytes from the
steps before. -/
structure Performs {σ : Type} (view finished : σ → List UInt8 → Prop) (front : List UInt8)
    (step : SinkStep) (d : Delivered σ) : Prop where
  /-- The result does not depend on the sink. -/
  result : d.result = step.result
  /-- The counts do not depend on the sink. -/
  counts : d.counts = step.counts
  /-- The bytes of the step are shown behind the others. -/
  shown : view d.sink (front ++ step.bytes)
  /-- The sink is finished if the step finishes it. -/
  finished : step.finishes = true → finished d.sink (front ++ step.bytes)

section Steps

variable {σ : Type} [Sink σ] {view finished : σ → List UInt8 → Prop}

theorem perform_faithful (hv : Sink.Faithful view finished) {sink : σ} {front : List UInt8}
    (h : view sink front) (step : SinkStep) :
    Performs view finished front step (step.perform sink) := by
  cases step with
  | print options format args =>
    obtain ⟨hshow, hresult, hcounts⟩ := formatInto_faithful hv h options format args
    exact ⟨hresult, hcounts, hv.view_of_finished hshow, fun _ => hshow⟩
  | write chunk =>
    obtain ⟨hok, hshow⟩ := hv.write h chunk
    refine ⟨?_, rfl, hshow, nofun⟩
    simp only [perform, Effect.delivered, hok, result]
  | finish =>
    obtain ⟨hok, hshow⟩ := hv.finish h
    rw [← List.append_nil front] at hshow
    refine ⟨?_, rfl, hv.view_of_finished hshow, fun _ => hshow⟩
    simp only [perform, Effect.delivered, hok, result]

/-- After some steps a sink shows what they have added. -/
theorem sinkAfter_faithful (hv : Sink.Faithful view finished) (steps : List SinkStep) {sink : σ}
    {front : List UInt8} (h : view sink front) :
    view (sinkAfter sink steps) (front ++ steps.flatMap bytes) := by
  induction steps generalizing sink front with
  | nil =>
    rw [List.flatMap_nil, List.append_nil]
    exact h
  | cons step steps ih =>
    rw [List.flatMap_cons, ← List.append_assoc]
    exact ih (perform_faithful hv h step).shown

/-- The outcome at any place of a list of steps. -/
theorem performAll_faithful (hv : Sink.Faithful view finished) {sink : σ} {front : List UInt8}
    (h : view sink front) {steps : List SinkStep} {i : Nat} {step : SinkStep}
    (hi : steps[i]? = some step) :
    ∃ d, (performAll sink steps)[i]? = some d ∧
      Performs view finished (front ++ (steps.take i).flatMap bytes) step d := by
  induction steps generalizing sink front i with
  | nil => cases hi
  | cons first steps ih =>
    have hfirst := perform_faithful hv h first
    cases i with
    | zero =>
      cases hi
      refine ⟨_, rfl, ?_⟩
      rw [List.take_zero, List.flatMap_nil, List.append_nil]
      exact hfirst
    | succ i =>
      obtain ⟨d, hd, hperforms⟩ := ih hfirst.shown hi
      refine ⟨d, hd, ?_⟩
      rw [List.take_succ_cons, List.flatMap_cons, ← List.append_assoc]
      exact hperforms

end Steps

/-- A step has gone alike on memory that grows, on a buffer of the given capacity and on
buffered output; `before` is the content of the memory before it. -/
structure Agrees (capacity : Nat) (before : List UInt8) (step : SinkStep)
    (memory : Delivered GrowableBuffer) (buffer : Delivered FixedBuffer)
    (output : Delivered Descriptor) : Prop where
  /-- The same length or the same failure is returned. -/
  results : buffer.result = memory.result ∧ output.result = memory.result
  /-- All count arguments take the same values. -/
  counts : buffer.counts = memory.counts ∧ output.counts = memory.counts
  /-- The content grows, in a formatted write by as many bytes as it returns. -/
  grown : ∃ added, memory.sink.content = before ++ added ∧
    ∀ n, step.isPrint = true → memory.result = .ok n → added.length = n
  /-- The buffer keeps what fits before its zero byte. -/
  kept : buffer.sink.stored = memory.sink.content.take (capacity - 1)
  /-- Nothing is lost, doubled or moved on the way to the transport. -/
  sent : output.sink.transport.accepted ++ output.sink.staged = memory.sink.content
  /-- The transport has taken everything after a step that finishes. -/
  finished : step.finishes = true → output.sink.transport.accepted = memory.sink.content

/-- A formatted write that succeeds returns the number of its bytes. -/
theorem length_bytes_of_result {step : SinkStep} (hp : step.isPrint = true) {n : Nat}
    (h : step.result = .ok n) : step.bytes.length = n := by
  cases step with
  | print => exact Rendering.length_bytes h
  | write => cases hp
  | finish => cases hp

/-- Steps go alike on every kind of sink, if the transport only takes a part of what it
is offered or is interrupted. -/
theorem performAll_agree (storage : List UInt8) {script : List Outcome}
    (hsoft : ∀ o ∈ script, o.IsSoft) {steps : List SinkStep} {i : Nat} {step : SinkStep}
    (hi : steps[i]? = some step) :
    ∃ memory buffer output,
      (performAll GrowableBuffer.empty steps)[i]? = some memory ∧
      (performAll (FixedBuffer.ofStorage storage) steps)[i]? = some buffer ∧
      (performAll (Descriptor.ofTransport (.scripted script)) steps)[i]? = some output ∧
      Agrees storage.length (sinkAfter GrowableBuffer.empty (steps.take i)).content step
        memory buffer output := by
  have hempty : GrowableBuffer.empty.Shows [] := rfl
  have hstorage : FixedBuffer.Shows storage.length (.ofStorage storage) [] :=
    ⟨rfl, List.take_nil.symm⟩
  have htransport : (Descriptor.ofTransport (.scripted script)).Shows [] := ⟨rfl, hsoft⟩
  obtain ⟨memory, hm, hmemory⟩ := performAll_faithful GrowableBuffer.faithful hempty hi
  obtain ⟨buffer, hb, hbuffer⟩ := performAll_faithful (FixedBuffer.faithful _) hstorage hi
  obtain ⟨output, ho, houtput⟩ := performAll_faithful Descriptor.faithful htransport hi
  have hbefore : (sinkAfter GrowableBuffer.empty (steps.take i)).content =
      [] ++ (steps.take i).flatMap bytes :=
    sinkAfter_faithful GrowableBuffer.faithful (steps.take i) hempty
  have hcontent : memory.sink.content = [] ++ (steps.take i).flatMap bytes ++ step.bytes :=
    hmemory.shown
  refine ⟨memory, buffer, output, hm, hb, ho, ?_, ?_, ?_, ?_, ?_, ?_⟩
  · exact ⟨hbuffer.result.trans hmemory.result.symm, houtput.result.trans hmemory.result.symm⟩
  · exact ⟨hbuffer.counts.trans hmemory.counts.symm, houtput.counts.trans hmemory.counts.symm⟩
  · refine ⟨step.bytes, by rw [hbefore, hcontent], fun n hp hn => ?_⟩
    exact length_bytes_of_result hp (hmemory.result.symm.trans hn)
  · rw [hcontent]
    exact hbuffer.shown.2
  · rw [hcontent]
    exact houtput.shown.1
  · intro hf
    rw [hcontent]
    exact (houtput.finished hf).1

/-- A write of three bytes that is interrupted and then goes out byte by byte. -/
theorem performAll_agree_interrupted :
    let script := [.fails .interrupted, .accepts 1, .accepts 1]
    ∃ memory buffer output,
      (performAll GrowableBuffer.empty [.write [1, 2, 3], .finish])[1]? = some memory ∧
      (performAll (FixedBuffer.ofStorage [9, 9, 9]) [.write [1, 2, 3], .finish])[1]? = some buffer ∧
      (performAll (Descriptor.ofTransport (.scripted script)) [.write [1, 2, 3], .finish])[1]? =
        some output ∧
      Agrees 3 [1, 2, 3] .finish memory buffer output := by
  have hsoft : ∀ o ∈ [Outcome.fails .interrupted, .accepts 1, .accepts 1], o.IsSoft := by decide
  have hi : [SinkStep.write [1, 2, 3], .finish][1]? = some .finish := rfl
  exact performAll_agree [9, 9, 9] hsoft hi

end SinkStep

end FormattedText
