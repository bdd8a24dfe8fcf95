import FormattedText.Proofs.Sink.Offering

/-!
# Sinks that lose nothing unnoticed

A sink is reliable if every operation on it either shows all bytes that the sink was
given or fails, and a failed sink may still be finished, which does nothing
(`Sink.Reliable`). Buffered output is reliable whatever the transport does
(`Descriptor.reliable`): it shows what the transport has taken and what is staged, and
once an offer has failed the transport has taken a part of that and nothing is staged.
-/

namespace FormattedText

/-- Operations on a sink show what they are given or fail. `view` holds of the bytes given
between operations, `finished` after the end of a write, and `failed` after a failure. -/
structure Sink.Reliable {σ : Type} [Sink σ] (view finished : σ → List UInt8 → Prop)
    (failed : σ → List UInt8 → Failure → Prop) : Prop where
  /-- A chunk is shown behind the others, or the operation fails. -/
  write : ∀ {s bytes}, view s bytes → ∀ chunk,
    (Sink.write s chunk).Gives (view · (bytes ++ chunk)) (failed · (bytes ++ chunk))
  /-- Finishing changes nothing that is shown, or fails. -/
  finish : ∀ {s bytes}, view s bytes →
    (Sink.finish s).Gives (finished · bytes) (failed · bytes)
  /-- Finishing a sink that has failed changes nothing. -/
  finish_failed : ∀ {s bytes e}, failed s bytes e → failed (Sink.finish s).sink bytes e
  /-- A sink that has failed misses what comes later. -/
  failed_append : ∀ {s bytes e}, failed s bytes e → ∀ more, failed s (bytes ++ more) e

namespace Descriptor

/-- Since it was `start`, the bytes were given: all offers went well, and what the
transport has not taken is staged. -/
def Holds (start d : Descriptor) (bytes : List UInt8) : Prop :=
  ∃ sent, Sent start sent d ∧ sent ++ d.staged = bytes

/-- Since it was `start`, the bytes were given, and the transport has taken them all. -/
def Finished (start d : Descriptor) (bytes : List UInt8) : Prop :=
  Sent start bytes d ∧ d.staged = []

/-- Since it was `start`, the bytes were given, and the last offer has failed. -/
def Failed (start d : Descriptor) (bytes : List UInt8) (e : Failure) : Prop :=
  Broken start bytes d e ∧ d.staged = []

variable {start d : Descriptor} {bytes : List UInt8}

/-- Bytes that are offered at once while nothing is staged. -/
theorem Finished.offer (h : Finished start d bytes) (more : List UInt8) :
    (d.writeAll more).Gives (Finished start · (bytes ++ more))
      (Failed start · (bytes ++ more)) := by
  have hst := staged_offerAll d more d.transport.script
  have hgives := offerAll_gives d more rfl
  rw [← writeAll] at hst hgives
  generalize d.writeAll more = e at hst hgives
  cases hgives with
  | shown hsent => exact .shown ⟨h.1.trans hsent, hst.trans h.2⟩
  | failed hbroken => exact .failed ⟨h.1.broken hbroken, hst.trans h.2⟩

theorem Finished.holds (h : Finished start d bytes) : Holds start d bytes :=
  ⟨bytes, h.1, by rw [h.2, List.append_nil]⟩

/-- Offering what is staged leaves nothing staged. -/
theorem Holds.flush (h : Holds start d bytes) :
    d.flushStaged.Gives (Finished start · bytes) (Failed start · bytes) := by
  obtain ⟨sent, hsent, rfl⟩ := h
  -- The transport does not see the stage, so clearing it first keeps what was sent.
  have hcleared : Finished start { d with staged := [] } sent := by
    obtain ⟨sizes, hm, hsoft⟩ := hsent
    exact ⟨⟨sizes, ⟨hm.accepted, hm.flushed, hm.offered, hm.positive, hm.script⟩, hsoft⟩, rfl⟩
  exact hcleared.offer d.staged

/-- Bytes are staged or offered at once, and nothing overtakes what is staged if they fit
the stage or it is empty. -/
theorem Holds.stage (h : Holds start d bytes) {chunk : List UInt8}
    (hfit : d.staged = [] ∨ d.staged.length + chunk.length ≤ stageLength) :
    (d.stage chunk).Gives (Holds start · (bytes ++ chunk)) (Failed start · (bytes ++ chunk)) := by
  obtain ⟨sent, hsent, rfl⟩ := h
  rw [Descriptor.stage]
  split
  · rename_i hlong
    have hnil : d.staged = [] := hfit.elim id fun hle => List.eq_nil_of_length_eq_zero (by omega)
    rw [hnil, List.append_nil]
    have hoffer := Finished.offer ⟨hsent, hnil⟩ chunk
    exact hoffer.imp (fun _ hs => hs.holds) (fun _ _ hf => hf)
  · refine .shown ⟨sent, ?_, (List.append_assoc _ _ _).symm⟩
    obtain ⟨sizes, hm, hsoft⟩ := hsent
    exact ⟨sizes, ⟨hm.accepted, hm.flushed, hm.offered, hm.positive, hm.script⟩, hsoft⟩

theorem Failed.append {e : Failure} (h : Failed start d bytes e) (more : List UInt8) :
    Failed start d (bytes ++ more) e :=
  ⟨h.1.append more, h.2⟩

theorem Holds.write (h : Holds start d bytes) (chunk : List UInt8) :
    (d.write chunk).Gives (Holds start · (bytes ++ chunk)) (Failed start · (bytes ++ chunk)) := by
  rw [Descriptor.write]
  split
  · have hflush := h.flush
    generalize d.flushStaged = e at hflush
    cases hflush with
    | shown hfinished => exact hfinished.holds.stage (Or.inl hfinished.2)
    | failed hfailed => exact .failed (hfailed.append chunk)
  · exact h.stage (Or.inr (by omega))

/-- With nothing staged there is nothing to offer. -/
theorem flushStaged_of_nil (h : d.staged = []) : d.flushStaged = ⟨d, none⟩ := by
  obtain ⟨⟨script, buffer, offers⟩, staged, flushed⟩ := d
  cases h
  cases script <;> rfl

theorem reliable (start : Descriptor) :
    Sink.Reliable (Holds start) (Finished start) (Failed start) where
  write h := h.write
  finish h := h.flush
  finish_failed := by
    intro s bytes e h
    have hfinish : Sink.finish s = ⟨s, none⟩ := flushStaged_of_nil h.2
    rw [hfinish]
    exact h
  failed_append h := h.append

end Descriptor

end FormattedText
