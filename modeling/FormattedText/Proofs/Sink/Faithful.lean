import FormattedText.Proofs.Sink.Reliable
import FormattedText.Sink.Fixed
import FormattedText.Sink.Growable

/-!
# Sinks that lose nothing

A sink is faithful to a view of it if no operation fails, every chunk comes behind what
the view showed, and finishing shows the same (`Sink.Faithful`). The growing buffer
shows its content, a fixed buffer the first bytes of what it was given, and buffered
output what the transport has taken and what is staged, as long as the transport only
takes a part or is interrupted. A faithful sink is a reliable one that never fails.
-/

namespace FormattedText

/-- No operation on a sink that shows some bytes fails, and the sink shows what it is
given behind them. `view` holds between operations and `finished` after the end of a
write. -/
structure Sink.Faithful {σ : Type} [Sink σ] (view finished : σ → List UInt8 → Prop) : Prop where
  /-- A chunk is shown behind the others. -/
  write : ∀ {s bytes}, view s bytes → ∀ chunk, (Sink.write s chunk).failure = none ∧
    view (Sink.write s chunk).sink (bytes ++ chunk)
  /-- Finishing changes nothing that is shown. -/
  finish : ∀ {s bytes}, view s bytes → (Sink.finish s).failure = none ∧
    finished (Sink.finish s).sink bytes
  /-- A finished sink can be used again. -/
  view_of_finished : ∀ {s bytes}, finished s bytes → view s bytes

/-- A faithful sink is reliable. -/
theorem Sink.Faithful.reliable {σ : Type} [Sink σ] {view finished : σ → List UInt8 → Prop}
    (h : Sink.Faithful view finished) : Sink.Reliable view finished fun _ _ _ => False where
  write := by
    intro s bytes hs chunk
    obtain ⟨hnone, hview⟩ := h.write hs chunk
    generalize Sink.write s chunk = e at hnone hview
    obtain ⟨s', failure⟩ := e
    cases hnone
    exact .shown hview
  finish := by
    intro s bytes hs
    obtain ⟨hnone, hview⟩ := h.finish hs
    generalize Sink.finish s = e at hnone hview
    obtain ⟨s', failure⟩ := e
    cases hnone
    exact .shown hview
  finish_failed := False.elim
  failed_append := fun h => h.elim

namespace GrowableBuffer

/-- The buffer shows its content. -/
def Shows (b : GrowableBuffer) (bytes : List UInt8) : Prop := b.content = bytes

theorem faithful : Sink.Faithful Shows Shows where
  write := by
    rintro b _ rfl chunk
    exact ⟨rfl, content_append b chunk⟩
  finish := by
    rintro b _ rfl
    exact ⟨rfl, rfl⟩
  view_of_finished := id

end GrowableBuffer

namespace FixedBuffer

/-- A buffer of the given capacity keeps as many bytes as fit before the zero byte. -/
def Shows (capacity : Nat) (b : FixedBuffer) (bytes : List UInt8) : Prop :=
  b.capacity = capacity ∧ b.stored = bytes.take (capacity - 1)

/-- The content is as long as what was given, as far as there is room. -/
theorem Shows.length_eq {capacity : Nat} {b : FixedBuffer} {bytes : List UInt8}
    (h : b.Shows capacity bytes) : b.length = min bytes.length (capacity - 1) := by
  rw [← b.length_stored, h.2, List.length_take, Nat.min_comm]

theorem take_append_take {α : Type} (n : Nat) (a b : List α) :
    (a.take n ++ b).take n = (a ++ b).take n := by
  rw [List.take_append, List.take_append, List.take_take, Nat.min_self, List.length_take]
  congr 2
  omega

theorem faithful (capacity : Nat) : Sink.Faithful (Shows capacity) (Shows capacity) where
  write := by
    rintro b bytes ⟨hc, hs⟩ chunk
    refine ⟨rfl, (capacity_append b chunk).trans hc, ?_⟩
    calc (b.append chunk).stored
      _ = (b.stored ++ chunk).take (b.capacity - 1) := stored_append b chunk
      _ = (bytes.take (capacity - 1) ++ chunk).take (capacity - 1) := by rw [hs, hc]
      _ = (bytes ++ chunk).take (capacity - 1) := take_append_take _ _ _
  finish := by
    rintro b bytes ⟨hc, hs⟩
    exact ⟨rfl, (capacity_terminate b).trans hc, (stored_terminate b).trans hs⟩
  view_of_finished := id

end FixedBuffer

/-- The transport takes a part of what it is offered, or is interrupted. -/
def Outcome.IsSoft : Outcome → Prop
  | .accepts n => 1 ≤ n
  | .fails error => error.errno = .interrupted

instance : DecidablePred Outcome.IsSoft := fun o =>
  match o with
  | .accepts n => inferInstanceAs (Decidable (1 ≤ n))
  | .fails error => inferInstanceAs (Decidable (error.errno = .interrupted))

/-- No outcome that the transport has in store is a failure. -/
def Transport.IsSoft (t : Transport) : Prop := ∀ o ∈ t.script, o.IsSoft

theorem Outcome.IsSoft.failure?_eq_none {o : Outcome} (h : o.IsSoft) : o.failure? = none := by
  cases o with
  | accepts n => exact if_neg (Nat.one_le_iff_ne_zero.mp h)
  | fails error => exact if_pos h

namespace Descriptor

/-- What is staged comes behind what the transport has taken. -/
def Shows (d : Descriptor) (bytes : List UInt8) : Prop :=
  d.transport.accepted ++ d.staged = bytes ∧ d.transport.IsSoft

/-- The transport has taken all bytes. -/
def ShowsFinished (d : Descriptor) (bytes : List UInt8) : Prop :=
  d.transport.accepted = bytes ∧ d.staged = [] ∧ d.transport.IsSoft

variable {start d : Descriptor} {bytes : List UInt8}

/-- Offers leave the outcomes that they have not used. -/
theorem Sent.isSoft (h : Sent start bytes d) (hs : start.transport.IsSoft) :
    d.transport.IsSoft := by
  obtain ⟨sizes, hm, _⟩ := h
  intro o ho
  rw [hm.script] at ho
  exact hs o (List.mem_of_mem_drop ho)

/-- A transport that has no failure in store does not fail. -/
theorem not_failed (hs : start.transport.IsSoft) {e : Failure} : ¬ Failed start d bytes e := by
  rintro ⟨⟨taken, sizes, size, last, _, _, _, hlast, hfailure⟩, _⟩
  rw [(hs last (List.mem_of_getElem? hlast)).failure?_eq_none] at hfailure
  cases hfailure

theorem Holds.refl (d : Descriptor) : Holds d d d.staged :=
  ⟨[], .refl d, List.nil_append _⟩

theorem Holds.shows (h : Holds start d bytes) (hs : start.transport.IsSoft) :
    d.Shows (start.transport.accepted ++ bytes) := by
  obtain ⟨sent, hsent, rfl⟩ := h
  refine ⟨?_, hsent.isSoft hs⟩
  obtain ⟨sizes, hm, _⟩ := hsent
  rw [hm.accepted, List.append_assoc]

theorem Finished.shows (h : Finished start d bytes) (hs : start.transport.IsSoft) :
    d.ShowsFinished (start.transport.accepted ++ bytes) := by
  obtain ⟨hsent, hnil⟩ := h
  refine ⟨?_, hnil, hsent.isSoft hs⟩
  obtain ⟨sizes, hm, _⟩ := hsent
  exact hm.accepted

theorem faithful : Sink.Faithful Shows ShowsFinished where
  write := by
    rintro d _ ⟨rfl, hs⟩ chunk
    obtain ⟨hok, hholds⟩ := ((Holds.refl d).write chunk).of_not_failed fun _ _ => not_failed hs
    refine ⟨hok, ?_⟩
    rw [List.append_assoc]
    exact hholds.shows hs
  finish := by
    rintro d _ ⟨rfl, hs⟩
    obtain ⟨hok, hfinished⟩ := (Holds.refl d).flush.of_not_failed fun _ _ => not_failed hs
    exact ⟨hok, hfinished.shows hs⟩
  view_of_finished := by
    rintro d bytes ⟨hacc, hst, hsc⟩
    exact ⟨by rw [hst, List.append_nil, hacc], hsc⟩

end Descriptor

end FormattedText
