import FormattedText.Proofs.Format.Expansion
import FormattedText.Proofs.Sink.Termination

/-!
# Other numbers for arguments and offsets

Failures and counts name arguments by their number, and failures name places of the format by
their offset. A rendering with other numbers is the same otherwise: it writes the same bytes
(`Rendering.bytes_renumbered`), and the fields of directives are left as they are, since they
name neither (`Rendering.renumbered_ofField`). So a sink that loses nothing ends up with the same,
if what it has been given determines it (`formatInto_renumbered`).
-/

namespace FormattedText

/-- A failure with other numbers for its argument and its offset. -/
def Failure.renumbered (index offset : Nat → Nat) : Failure → Failure
  | .argumentMismatch i => .argumentMismatch (index i)
  | .malformedDirective o => .malformedDirective (offset o)
  | e => e

/-- A result with other numbers in its failure. -/
def renumberedResult {α : Type} (index offset : Nat → Nat) : Except Failure α → Except Failure α
  | .ok v => .ok v
  | .error e => .error (e.renumbered index offset)

/-- A failure that says nothing of arguments and offsets stays as it is. -/
theorem Failure.IsPlaceless.renumbered {e : Failure} (h : e.IsPlaceless)
    (index offset : Nat → Nat) : e.renumbered index offset = e := by
  cases e with
  | argumentMismatch i =>
    have hmoved : Failure.argumentMismatch (1 + i) = .argumentMismatch i := h 1 0
    have hi : 1 + i = i := Failure.argumentMismatch.inj hmoved
    omega
  | malformedDirective o =>
    have hmoved : Failure.malformedDirective (1 + o) = .malformedDirective o := h 0 1
    have ho : 1 + o = o := Failure.malformedDirective.inj hmoved
    omega
  | _ => rfl

/-- An expansion with another number for its argument. -/
def Expansion.renumbered (index : Nat → Nat) : Expansion → Expansion
  | .field f => .field f
  | .count i => .count (index i)

/-- An event with another number for its argument. -/
def OutputEvent.renumbered (index : Nat → Nat) : OutputEvent → OutputEvent
  | .write piece => .write piece
  | .count i value => .count (index i) value

namespace Rendering

/-- A rendering with other numbers for its arguments and offsets. -/
def renumbered (index offset : Nat → Nat) (r : Rendering) : Rendering :=
  ⟨r.events.map (.renumbered index), renumberedResult index offset r.result⟩

section Renumbered

variable (index offset : Nat → Nat)

theorem renumbered_after (events : List OutputEvent) (r : Rendering) :
    (r.after events).renumbered index offset =
      (r.renumbered index offset).after (events.map (.renumbered index)) := by
  rw [renumbered, renumbered, after, after, List.map_append]

/-- A field names no argument. -/
theorem renumbered_ofField (total : Nat) {f : Field} (hf : f.IsPlaceless) :
    (ofField total f).renumbered index offset = ofField total f := by
  rw [ofField, renumbered, List.map_map]
  generalize fitting total f.pieces = fitted
  obtain ⟨written, more⟩ := fitted
  have hevents : OutputEvent.renumbered index ∘ OutputEvent.write = .write := rfl
  rw [hevents]
  congr 1
  cases more with
  | none => rfl
  | some m =>
    cases he : f.failure with
    | none => rfl
    | some e => exact congrArg Except.error ((hf e he).renumbered index offset)

variable {index offset}

theorem bytes_renumbered (r : Rendering) : (r.renumbered index offset).bytes = r.bytes := by
  rw [bytes_eq, bytes_eq, renumbered, List.flatMap_map]
  congr 1
  funext event
  cases event <;> rfl

theorem counts_renumbered (r : Rendering) :
    (r.renumbered index offset).counts = r.counts.map fun c => (index c.1, c.2) := by
  rw [counts, counts, renumbered, ← List.map_reverse, List.flatMap_map, List.map_flatMap]
  congr 1
  funext event
  cases event <;> rfl

theorem renumbered_id (r : Rendering) : r.renumbered id id = r := by
  obtain ⟨events, result⟩ := r
  have hevents : events.map (OutputEvent.renumbered id) = events := by
    rw [List.map_congr_left fun event _ => ?_, List.map_id]
    cases event <;> rfl
  rw [renumbered, hevents]
  congr 1
  cases result with
  | ok n => rfl
  | error e => cases e <;> rfl

end Renumbered

end Rendering

section Memory

/-- The same outcome with other numbers for arguments and offsets. -/
def Delivered.renumbered {σ : Type} (index offset : Nat → Nat) (d : Delivered σ) : Delivered σ :=
  ⟨renumberedResult index offset d.result, d.sink, d.counts.map fun c => (index c.1, c.2)⟩

/-- What a buffer of fixed size holds, terminated, and its first contents determine it. -/
theorem FixedBuffer.HoldsTerminated.unique {initial bytes : List UInt8} {a b : FixedBuffer}
    (ha : a.HoldsTerminated initial bytes) (hb : b.HoldsTerminated initial bytes) : a = b := by
  have hstorage := ha.storage_eq.trans hb.storage_eq.symm
  have hlength := congrArg List.length (ha.holds.shows.2.trans hb.holds.shows.2.symm)
  rw [length_stored, length_stored] at hlength
  obtain ⟨_, _, _⟩ := a
  obtain ⟨_, _, _⟩ := b
  cases hstorage
  cases hlength
  rfl

theorem GrowableBuffer.ShowsTerminated.terminated {bytes : List UInt8} {b : GrowableBuffer}
    (h : b.ShowsTerminated bytes) : b.terminated = true := by
  obtain ⟨hcontent, hstorage⟩ := h
  rw [storage, hcontent] at hstorage
  have hzero := List.append_cancel_left hstorage
  split at hzero
  · assumption
  · cases hzero

/-- The terminated content determines memory that grows. -/
theorem GrowableBuffer.ShowsTerminated.unique {bytes : List UInt8} {a b : GrowableBuffer}
    (ha : a.ShowsTerminated bytes) (hb : b.ShowsTerminated bytes) : a = b := by
  have hcontent := ha.1.trans hb.1.symm
  have hterminated := ha.terminated.trans hb.terminated.symm
  obtain ⟨_, _⟩ := a
  obtain ⟨_, _⟩ := b
  rw [mk.injEq]
  exact ⟨Array.toList_inj.mp hcontent, hterminated⟩

/-- Renderings that differ in their numbers alone leave the same in a sink that loses nothing. -/
theorem formatInto_renumbered {σ : Type} [Sink σ] {view finished : σ → List UInt8 → Prop}
    (hv : Sink.Faithful view finished)
    (hunique : ∀ {a b bytes}, finished a bytes → finished b bytes → a = b) {sink : σ}
    {bytes : List UInt8} (h : view sink bytes) {options options' : FormatOptions}
    {format format' : List UInt8} {args args' : List Argument} {index offset : Nat → Nat}
    (hr : Rendering.ofFormat options' format' args' =
      (Rendering.ofFormat options format args).renumbered index offset) :
    formatInto sink options' format' args' =
      (formatInto sink options format args).renumbered index offset := by
  obtain ⟨hsink, hresult, hcounts⟩ := formatInto_faithful hv h options format args
  obtain ⟨hsink', hresult', hcounts'⟩ := formatInto_faithful hv h options' format' args'
  rw [hr, Rendering.bytes_renumbered] at hsink'
  rw [hr] at hresult' hcounts'
  rw [Rendering.counts_renumbered, ← hcounts] at hcounts'
  rw [Rendering.renumbered, ← hresult] at hresult'
  generalize formatInto sink options' format' args' = written' at *
  obtain ⟨_, _, _⟩ := written'
  rw [Delivered.renumbered, Delivered.mk.injEq]
  exact ⟨hresult', hunique hsink' hsink, hcounts'⟩

end Memory

end FormattedText
