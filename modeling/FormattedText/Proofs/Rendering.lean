import FormattedText.Rendering

/-!
# The length of a rendering

The result of a rendering that ends well is the number of its bytes
(`Rendering.length_bytes`): fields, padding and literal text are counted as they are
written, and a piece that would pass the greatest length ends the rendering.
-/

namespace FormattedText

/-- The bytes that an event writes. -/
def OutputEvent.bytes : OutputEvent → List UInt8
  | .write piece => piece.bytes
  | .count _ _ => []

/-- The value that an event gives to a count argument. -/
def OutputEvent.counts : OutputEvent → List (Nat × Int)
  | .write _ => []
  | .count index value => [(index, value)]

namespace Rendering

theorem bytes_eq (r : Rendering) : r.bytes = r.events.flatMap OutputEvent.bytes := by
  rfl

/-- The values that the rendering gives to count arguments, the latest first. -/
def counts (r : Rendering) : List (Nat × Int) := r.events.reverse.flatMap OutputEvent.counts

theorem bytes_after (events : List OutputEvent) (r : Rendering) :
    (r.after events).bytes = events.flatMap OutputEvent.bytes ++ r.bytes := by
  simp only [bytes_eq, after, List.flatMap_append]

/-- Pieces that all fit are all written. -/
theorem fitting_some {total n : Nat} {pieces written : List Piece}
    (h : fitting total pieces = (written, some n)) :
    written = pieces ∧ n = total + Piece.lengthOf pieces := by
  induction pieces generalizing total written with
  | nil =>
    cases h
    exact ⟨rfl, rfl⟩
  | cons p pieces ih =>
    rw [fitting] at h
    split at h
    · generalize hr : fitting (total + p.length) pieces = fitted at h
      obtain ⟨rest, more⟩ := fitted
      cases h
      obtain ⟨rfl, rfl⟩ := ih hr
      refine ⟨rfl, ?_⟩
      simp only [Piece.lengthOf, List.foldr_cons, Nat.add_assoc]
    · cases h

/-- Pieces that are not too long all fit. -/
theorem fitting_all {total : Nat} {pieces : List Piece}
    (h : total + Piece.lengthOf pieces ≤ Directive.maxMeasure) :
    fitting total pieces = (pieces, some (total + Piece.lengthOf pieces)) := by
  induction pieces generalizing total with
  | nil => rfl
  | cons p pieces ih =>
    rw [Piece.lengthOf, List.foldr_cons, ← Piece.lengthOf, ← Nat.add_assoc] at h ⊢
    rw [fitting, if_pos (by omega), ih h]

/-- A field that has not failed and is not too long is written to its end. -/
theorem ofField_all {total : Nat} {f : Field} (hf : f.failure = none)
    (h : total + f.bytes.length ≤ Directive.maxMeasure) :
    (ofField total f).bytes = f.bytes ∧
      (ofField total f).result = .ok (total + f.bytes.length) := by
  rw [Field.bytes, Piece.length_bytesOf] at h ⊢
  simp only [ofField, fitting_all h, hf, bytes_eq, List.flatMap_map]
  exact ⟨rfl, trivial⟩

/-- A field that has failed and is not too long is written up to the failure, and fails so. -/
theorem ofField_failed {total : Nat} {f : Field} {e : Failure} (hf : f.failure = some e)
    (h : total + f.bytes.length ≤ Directive.maxMeasure) :
    (ofField total f).bytes = f.bytes ∧ (ofField total f).result = .error e := by
  rw [Field.bytes, Piece.length_bytesOf] at h
  simp only [ofField, fitting_all h, hf, bytes_eq, List.flatMap_map]
  exact ⟨rfl, trivial⟩

/-- A field that is written to its end is counted in full. -/
theorem length_ofField {total n : Nat} {f : Field} (h : (ofField total f).result = .ok n) :
    n = total + (ofField total f).bytes.length := by
  rw [ofField] at h ⊢
  generalize hf : fitting total f.pieces = fitted at h ⊢
  obtain ⟨written, more⟩ := fitted
  cases more with
  | none => cases h
  | some m =>
    cases he : f.failure with
    | some e =>
      simp only [he] at h
      cases h
    | none =>
      simp only [he] at h
      cases h
      obtain ⟨rfl, rfl⟩ := fitting_some hf
      rw [bytes_eq, List.flatMap_map]
      exact congrArg (total + ·) (Piece.length_bytesOf f.pieces).symm

/-- A segment that is written to its end is counted in full. -/
theorem length_ofSegment {options : FormatOptions} {total n : Nat} {args : Arguments}
    {segment : Segment} (h : (ofSegment options total args segment).1.result = .ok n) :
    n = total + (ofSegment options total args segment).1.bytes.length := by
  cases segment with
  | literal bytes => exact length_ofField h
  | percent => exact length_ofField h
  | directive d =>
    rw [ofSegment] at h ⊢
    split at h
    · cases h
    · exact length_ofField h
    · cases h
      rfl

section Items

variable {options : FormatOptions} {total : Nat} {args : Arguments} {item : FormatItem}
  {items : List FormatItem} {segment : Segment}

/-- A segment that cannot be read ends the rendering. -/
theorem ofItems_of_unread {e : Failure} (hc : item.content = .error e) :
    ofItems options total args (item :: items) = ⟨[], .error e⟩ := by
  simp only [ofItems, hc]

/-- A segment that cannot be written to its end ends the rendering. -/
theorem ofItems_of_failed (hc : item.content = .ok segment) {e : Failure}
    (hr : (ofSegment options total args segment).1.result = .error e) :
    ofItems options total args (item :: items) =
      ⟨(ofSegment options total args segment).1.events, .error e⟩ := by
  simp only [ofItems, hc, hr]

/-- After a segment that is written to its end come the others. -/
theorem ofItems_of_written (hc : item.content = .ok segment) {n : Nat}
    (hr : (ofSegment options total args segment).1.result = .ok n) :
    ofItems options total args (item :: items) =
      (ofItems options n (ofSegment options total args segment).2 items).after
        (ofSegment options total args segment).1.events := by
  simp only [ofItems, hc, hr]

/-- A single segment is rendered alone. -/
theorem ofItems_singleton (hc : item.content = .ok segment) :
    ofItems options total args [item] = (ofSegment options total args segment).1 := by
  cases hr : (ofSegment options total args segment).1.result with
  | error e => rw [ofItems_of_failed hc hr, ← hr]
  | ok n =>
    rw [ofItems_of_written hc hr, ofItems, after, List.append_nil, ← hr]

theorem length_ofItems {n : Nat} (h : (ofItems options total args items).result = .ok n) :
    n = total + (ofItems options total args items).bytes.length := by
  induction items generalizing total args with
  | nil =>
    cases h
    rfl
  | cons item items ih =>
    cases hc : item.content with
    | error e =>
      rw [ofItems_of_unread hc] at h
      cases h
    | ok segment =>
      cases hr : (ofSegment options total args segment).1.result with
      | error e =>
        rw [ofItems_of_failed hc hr] at h
        cases h
      | ok m =>
        rw [ofItems_of_written hc hr] at h ⊢
        have hseg := length_ofSegment hr
        have hrest := ih h
        rw [bytes_after, List.length_append, ← bytes_eq]
        omega

end Items

/-- A rendering that ends well gives the number of its bytes. -/
theorem length_bytes {options : FormatOptions} {format : List UInt8} {args : List Argument}
    {n : Nat} (h : (ofFormat options format args).result = .ok n) :
    (ofFormat options format args).bytes.length = n := by
  have hlen := length_ofItems h
  rw [Nat.zero_add] at hlen
  exact hlen.symm

end Rendering

end FormattedText
