import FormattedText.Sink.Step

/-!
# Sinks that carry more than others

A sink may be another sink with something beside it, such as an account of what it was
given. If each operation does the same without that (`Sink.Forgets`), then so does a
formatted write, whatever it renders and however it hands over its bytes, because delivery
uses a sink through its operations only (`Sink.Forgets.formatInto`). So what is carried
beside a sink may be forgotten after any steps as well as before them
(`Sink.Forgets.sinkAfter`): it watches the sink and changes nothing.
-/

namespace FormattedText

section Maps

variable {σ τ : Type}

/-- An effect on a sink, seen on another sink. -/
def Effect.map (f : σ → τ) (e : Effect σ) : Effect τ := ⟨f e.sink, e.failure⟩

@[simp] theorem Effect.sink_map (f : σ → τ) (e : Effect σ) : (e.map f).sink = f e.sink := rfl

@[simp] theorem Effect.failure_map (f : σ → τ) (e : Effect σ) :
    (e.map f).failure = e.failure := rfl

/-- A delivery in progress, seen on another sink. -/
def Delivery.map (f : σ → τ) (d : Delivery σ) : Delivery τ :=
  ⟨f d.sink, d.chunk, d.counts, d.failure⟩

@[simp] theorem Delivery.sink_map (f : σ → τ) (d : Delivery σ) : (d.map f).sink = f d.sink := rfl

@[simp] theorem Delivery.chunk_map (f : σ → τ) (d : Delivery σ) :
    (d.map f).chunk = d.chunk := rfl

@[simp] theorem Delivery.counts_map (f : σ → τ) (d : Delivery σ) :
    (d.map f).counts = d.counts := rfl

@[simp] theorem Delivery.failure_map (f : σ → τ) (d : Delivery σ) :
    (d.map f).failure = d.failure := rfl

/-- The outcome of a write, seen on another sink. -/
def Delivered.map (f : σ → τ) (d : Delivered σ) : Delivered τ := ⟨d.result, f d.sink, d.counts⟩

end Maps

variable {σ τ : Type} [Sink σ] [Sink τ] {forget : σ → τ}

/-- Every operation goes alike on a sink and on what is left of it: it fails alike, and leaves
what is left of the sink afterwards. -/
structure Sink.Forgets (forget : σ → τ) : Prop where
  /-- A chunk is taken alike. -/
  write : ∀ s chunk, Sink.write (forget s) chunk = (Sink.write s chunk).map forget
  /-- A write is ended alike. -/
  finish : ∀ s, Sink.finish (forget s) = (Sink.finish s).map forget

namespace Sink.Forgets

theorem drain (hf : Sink.Forgets forget) (d : Delivery σ) :
    (d.map forget).drain = d.drain.map forget := by
  fun_induction Delivery.drain d with
  | case1 d hfit =>
    rw [Delivery.drain]
    exact dif_pos hfit
  | case2 d hlong sink hw ih =>
    have hwrite := hf.write d.sink (d.chunk.take chunkLength)
    rw [hw] at hwrite
    rw [Delivery.drain]
    simp only [Delivery.chunk_map, Delivery.sink_map, hlong, hwrite, dite_false]
    exact ih
  | case3 d hlong sink e hw =>
    have hwrite := hf.write d.sink (d.chunk.take chunkLength)
    rw [hw] at hwrite
    rw [Delivery.drain]
    simp only [Delivery.chunk_map, Delivery.sink_map, hlong, hwrite, dite_false]
    rfl

theorem put (hf : Sink.Forgets forget) (d : Delivery σ) (bytes : List UInt8) :
    (d.map forget).put bytes = (d.put bytes).map forget :=
  hf.drain { d with chunk := d.chunk ++ bytes }

theorem putFill (hf : Sink.Forgets forget) (d : Delivery σ) (byte : UInt8) (count : Nat) :
    (d.map forget).putFill byte count = (d.putFill byte count).map forget := by
  fun_induction Delivery.putFill d byte count with
  | case1 d count hdone =>
    rw [Delivery.putFill]
    exact if_pos hdone
  | case2 d count hmore ih =>
    rw [Delivery.putFill, Delivery.failure_map, if_neg hmore, hf.put]
    exact ih

/-- An event is carried out alike. -/
theorem perform (hf : Sink.Forgets forget) (d : Delivery σ) (event : OutputEvent) :
    (d.map forget).perform event = (d.perform event).map forget := by
  cases hd : d.failure.isSome with
  | true => simp only [Delivery.perform, Delivery.failure_map, hd, ite_true]
  | false =>
    simp only [Delivery.perform, Delivery.failure_map, hd, Bool.false_eq_true, ite_false]
    cases event with
    | write piece =>
      cases piece with
      | text bytes => exact hf.put d bytes
      | fill byte count => exact hf.putFill d byte count
    | count index value => rfl

theorem performAll (hf : Sink.Forgets forget) (d : Delivery σ) (events : List OutputEvent) :
    (d.map forget).performAll events = (d.performAll events).map forget :=
  List.foldl_hom (Delivery.map forget) hf.perform

theorem flush (hf : Sink.Forgets forget) (d : Delivery σ) :
    (d.map forget).flush = d.flush.map forget := by
  rw [Delivery.flush, Delivery.flush, Delivery.chunk_map]
  split
  · rfl
  · exact hf.write d.sink d.chunk

/-- A formatted write goes alike. -/
theorem formatInto (hf : Sink.Forgets forget) (sink : σ) (options : FormatOptions)
    (format : List UInt8) (args : List Argument) :
    FormattedText.formatInto (forget sink) options format args =
      (FormattedText.formatInto sink options format args).map forget := by
  have hall := hf.performAll ⟨sink, [], [], none⟩ (Rendering.ofFormat options format args).events
  rw [Delivery.map] at hall
  simp only [FormattedText.formatInto, hall, hf.flush, hf.finish, Effect.sink_map,
    Effect.failure_map, Delivery.failure_map, Delivery.counts_map, Delivered.map]

/-- A step goes alike. -/
theorem performStep (hf : Sink.Forgets forget) (sink : σ) (step : SinkStep) :
    step.perform (forget sink) = (step.perform sink).map forget := by
  cases step with
  | print options format args => exact hf.formatInto sink options format args
  | write chunk => exact congrArg Effect.delivered (hf.write sink chunk)
  | finish => exact congrArg Effect.delivered (hf.finish sink)

/-- It makes no difference whether something is forgotten before or after the steps. -/
theorem sinkAfter (hf : Sink.Forgets forget) (sink : σ) (steps : List SinkStep) :
    SinkStep.sinkAfter (forget sink) steps = forget (SinkStep.sinkAfter sink steps) :=
  List.foldl_hom forget fun sink step => congrArg Delivered.sink (hf.performStep sink step)

end Sink.Forgets

end FormattedText
