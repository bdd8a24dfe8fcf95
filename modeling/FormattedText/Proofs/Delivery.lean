import FormattedText.Print
import FormattedText.Proofs.Rendering
import FormattedText.Proofs.Sink.Faithful

/-!
# Delivery to a reliable sink

A delivery to a reliable sink either carries the bytes of the events so far, those that
the sink shows and behind them the gathered chunk, or the sink has failed and nothing is
gathered any more (`Delivery.Holds`). Each event keeps that (`Delivery.Holds.perform`),
whatever the chunk and the sink do with its bytes. So a formatted write leaves the sink
finished, with the result and the counts of the rendering, or failed, with an error
(`formatInto_reliable`); into a faithful sink it is always the first (`formatInto_faithful`).
-/

namespace FormattedText

namespace Delivery

variable {σ : Type} [Sink σ] {view finished : σ → List UInt8 → Prop}
  {failed : σ → List UInt8 → Failure → Prop}

/-- Events with the given bytes and counts have been carried out as far as the sink allows. -/
inductive Holds (view : σ → List UInt8 → Prop) (failed : σ → List UInt8 → Failure → Prop)
    (bytes : List UInt8) (counts : List (Nat × Int)) (d : Delivery σ) : Prop where
  /-- The sink has not failed, and the chunk comes behind what it shows. -/
  | carries {front : List UInt8} (hok : d.failure = none) (hc : d.counts = counts)
      (hs : view d.sink front) (hb : front ++ d.chunk = bytes)
  /-- The sink has failed, and the chunk has been dropped. -/
  | failed {e : Failure} (he : d.failure = some e) (hnil : d.chunk = [])
      (hs : failed d.sink bytes e)

variable {d : Delivery σ} {bytes : List UInt8} {counts : List (Nat × Int)}

/-- After a failure of the sink nothing more is carried out. -/
theorem Holds.append_of_failure (hv : Sink.Reliable view finished failed)
    (h : Holds view failed bytes counts d) (hd : d.failure.isSome = true) (more : List UInt8)
    (counts' : List (Nat × Int)) : Holds view failed (bytes ++ more) counts' d := by
  cases h with
  | carries hok =>
    rw [hok] at hd
    cases hd
  | failed he hnil hs => exact .failed he hnil (hv.failed_append hs more)

/-- Handing over full chunks changes neither the bytes nor the counts. -/
theorem Holds.drain (hv : Sink.Reliable view finished failed)
    (h : Holds view failed bytes counts d) : Holds view failed bytes counts d.drain := by
  fun_induction Delivery.drain d with
  | case1 d hfit => exact h
  | case2 d hlong sink hw ih =>
    cases h with
    | @carries front hok hc hs hb =>
      have hwrite := hv.write hs (d.chunk.take chunkLength)
      rw [hw] at hwrite
      cases hwrite with
      | shown hshow =>
        refine ih (.carries hok hc hshow ?_)
        rw [List.append_assoc, List.take_append_drop, hb]
    | failed he hnil hs =>
      rw [hnil] at hlong
      exact absurd List.drop_nil hlong
  | case3 d hlong sink e hw =>
    cases h with
    | @carries front hok hc hs hb =>
      have hwrite := hv.write hs (d.chunk.take chunkLength)
      rw [hw] at hwrite
      cases hwrite with
      | failed hfail =>
        have hall := hv.failed_append hfail (d.chunk.drop chunkLength)
        rw [List.append_assoc, List.take_append_drop, hb] at hall
        exact .failed rfl rfl hall
    | failed he hnil hs =>
      rw [hnil] at hlong
      exact absurd List.drop_nil hlong

theorem Holds.put (hv : Sink.Reliable view finished failed)
    (h : Holds view failed bytes counts d) (hok : d.failure = none) (more : List UInt8) :
    Holds view failed (bytes ++ more) counts (d.put more) := by
  cases h with
  | @carries front _ hc hs hb =>
    refine Holds.drain hv (d := { d with chunk := d.chunk ++ more }) (.carries hok hc hs ?_)
    rw [← List.append_assoc, hb]
  | failed he =>
    rw [hok] at he
    cases he

/-- A repeated byte may be gathered run by run. -/
theorem Holds.putFill (hv : Sink.Reliable view finished failed)
    (h : Holds view failed bytes counts d) (byte : UInt8) (count : Nat) :
    Holds view failed (bytes ++ List.replicate count byte) counts (d.putFill byte count) := by
  fun_induction Delivery.putFill d byte count generalizing bytes with
  | case1 d count hdone =>
    rcases hdone with rfl | hfail
    · rw [List.replicate_zero, List.append_nil]
      exact h
    · exact h.append_of_failure hv hfail _ _
  | case2 d count hmore ih =>
    have hok : d.failure = none := Option.not_isSome_iff_eq_none.mp fun hf => hmore (Or.inr hf)
    have hput := h.put hv hok (List.replicate (min count fillRun) byte)
    have hrun : List.replicate (min count fillRun) byte ++ List.replicate (count - fillRun) byte =
        List.replicate count byte := by
      rw [List.replicate_append_replicate]
      congr 1
      omega
    rw [← hrun, ← List.append_assoc]
    exact ih hput

/-- An event adds its bytes and its count. -/
theorem Holds.perform (hv : Sink.Reliable view finished failed)
    (h : Holds view failed bytes counts d) (event : OutputEvent) :
    Holds view failed (bytes ++ event.bytes) (event.counts ++ counts) (d.perform event) := by
  cases hd : d.failure.isSome with
  | true =>
    simp only [Delivery.perform, hd, ite_true]
    exact h.append_of_failure hv hd _ _
  | false =>
    have hok : d.failure = none := Option.isSome_eq_false_iff.mp hd |> Option.isNone_iff_eq_none.mp
    simp only [Delivery.perform, hd, Bool.false_eq_true, ite_false]
    cases event with
    | write piece =>
      cases piece with
      | text more => exact h.put hv hok more
      | fill byte count => exact h.putFill hv byte count
    | count index value =>
      rw [OutputEvent.bytes, List.append_nil]
      cases h with
      | carries _ hc hs hb => exact .carries hok (congrArg ((index, value) :: ·) hc) hs hb
      | failed he hnil hs => exact .failed he hnil hs

theorem Holds.performAll (hv : Sink.Reliable view finished failed) (events : List OutputEvent)
    (h : Holds view failed bytes counts d) :
    Holds view failed (bytes ++ events.flatMap OutputEvent.bytes)
      (events.reverse.flatMap OutputEvent.counts ++ counts) (d.performAll events) := by
  induction events generalizing d bytes counts with
  | nil =>
    rw [List.flatMap_nil, List.append_nil]
    exact h
  | cons event events ih =>
    have hrest := ih (h.perform hv event)
    rw [List.append_assoc, ← List.append_assoc _ _ counts] at hrest
    rw [List.flatMap_cons, List.reverse_cons, List.flatMap_append, List.flatMap_singleton]
    exact hrest

/-- Handing over the rest of the chunk leaves all bytes with the sink. -/
theorem flush_gives (hv : Sink.Reliable view finished failed) {front : List UInt8}
    (hs : view d.sink front) :
    d.flush.Gives (view · (front ++ d.chunk)) (failed · (front ++ d.chunk)) := by
  rw [Delivery.flush]
  split
  · rename_i hnil
    rw [List.isEmpty_iff.mp hnil, List.append_nil]
    exact .shown hs
  · exact hv.write hs d.chunk

end Delivery

/-- What a formatted write into a reliable sink can have done. -/
inductive Delivered.Carries {σ : Type} (finished : σ → List UInt8 → Prop)
    (failed : σ → List UInt8 → Failure → Prop) (bytes : List UInt8) (r : Rendering)
    (d : Delivered σ) : Prop where
  /-- The sink has taken everything, and the result and the counts are those of the
  rendering. -/
  | complete (hs : finished d.sink bytes) (hr : d.result = r.result) (hc : d.counts = r.counts)
  /-- The sink has failed, and its failure is the result, if not one of the rendering is. -/
  | broken {e : Failure} (hs : failed d.sink bytes e)
      (hr : d.result = .error e ∨ ∃ e', r.result = .error e' ∧ d.result = .error e')

/-- The failure that is reported when the sink fails after the events. -/
theorem firstFailure_of_rendering (r : Except Failure Nat) {flushed finished : Option Failure}
    {e : Failure} (he : [flushed, finished].findSome? id = some e) :
    let rendered : Option Failure := match r with
      | .ok _ => none
      | .error e => some e
    firstFailure [none, rendered, flushed, finished] r = .error e ∨
      ∃ e', r = .error e' ∧ firstFailure [none, rendered, flushed, finished] r = .error e' := by
  cases r with
  | ok n =>
    have hlater : firstFailure [none, none, flushed, finished] (.ok n) =
        firstFailure [flushed, finished] (.ok n) := rfl
    exact Or.inl (by rw [hlater, firstFailure, he])
  | error e' => exact Or.inr ⟨e', rfl, rfl⟩

/-- A formatted write into a reliable sink is complete, or it fails as the sink does. -/
theorem formatInto_reliable {σ : Type} [Sink σ] {view finished : σ → List UInt8 → Prop}
    {failed : σ → List UInt8 → Failure → Prop} (hv : Sink.Reliable view finished failed) {sink : σ}
    {bytes : List UInt8} (h : view sink bytes) (options : FormatOptions) (format : List UInt8)
    (args : List Argument) :
    let rendering := Rendering.ofFormat options format args
    (formatInto sink options format args).Carries finished failed (bytes ++ rendering.bytes)
      rendering := by
  intro rendering
  have hstart : Delivery.Holds view failed bytes [] ⟨sink, [], [], none⟩ :=
    .carries rfl rfl h (List.append_nil bytes)
  have hall := hstart.performAll hv rendering.events
  rw [← Rendering.bytes_eq] at hall
  rw [formatInto]
  change Delivered.Carries _ _ _ rendering _
  generalize Delivery.performAll ⟨sink, [], [], none⟩ rendering.events = d at hall
  cases hall with
  | @carries front hok hc hs hb =>
    have hflush := d.flush_gives hv hs
    rw [hb] at hflush
    simp only [hok]
    generalize d.flush = flushed at hflush
    cases hflush with
    | @shown s hshow =>
      have hfinish := hv.finish hshow
      generalize Sink.finish s = f at hfinish
      cases hfinish with
      | shown hdone =>
        refine .complete hdone ?_ (hc.trans (List.append_nil _))
        cases rendering.result with
        | ok n => rfl
        | error e => rfl
      | failed hfail => exact .broken hfail (firstFailure_of_rendering _ rfl)
    | failed hfail =>
      exact .broken (hv.finish_failed hfail) (firstFailure_of_rendering _ rfl)
  | failed he hnil hs =>
    have hflush : d.flush = ⟨d.sink, none⟩ := by
      rw [Delivery.flush, hnil]
      rfl
    simp only [hflush, he]
    exact .broken (hv.finish_failed hs) (Or.inl rfl)

/-- A formatted write into a sink that loses nothing shows the bytes of the rendering
behind what was shown, and gives the result and the counts of the rendering. -/
theorem formatInto_faithful {σ : Type} [Sink σ] {view finished : σ → List UInt8 → Prop}
    (hv : Sink.Faithful view finished) {sink : σ} {bytes : List UInt8} (h : view sink bytes)
    (options : FormatOptions) (format : List UInt8) (args : List Argument) :
    let rendering := Rendering.ofFormat options format args
    let written := formatInto sink options format args
    finished written.sink (bytes ++ rendering.bytes) ∧ written.result = rendering.result ∧
      written.counts = rendering.counts := by
  intro rendering written
  cases formatInto_reliable hv.reliable h options format args with
  | complete hs hr hc => exact ⟨hs, hr, hc⟩
  | broken hs => exact hs.elim

/-- Printing into memory gives the rendering. -/
theorem printToMemory_rendering (options : FormatOptions) (format : List UInt8)
    (args : List Argument) :
    let rendering := Rendering.ofFormat options format args
    let memory := printToMemory options format args
    memory.sink.content = rendering.bytes ∧ memory.result = rendering.result ∧
      memory.counts = rendering.counts := by
  have hempty : GrowableBuffer.empty.Shows [] := rfl
  exact formatInto_faithful GrowableBuffer.faithful hempty options format args

end FormattedText
