import FormattedText.Proofs.Delivery
import FormattedText.Proofs.Format.Expansion

/-!
# Rendering at another place

What comes behind other output in a format is rendered as at the beginning of one, only
with other numbers of arguments and bytes in failures and counts: `Rendering.ofItems_add`
says so of the bytes, the result and the counts that are stored (`Rendering.stores`), as
long as all output together can be reported.
-/

namespace FormattedText

/-- A count that a rendering stores. -/
structure CountStore where
  /-- The index of the argument. -/
  index : Nat
  /-- The length modifier of the directive. -/
  length : Length
  /-- The number of bytes before the directive. -/
  before : Nat
  deriving DecidableEq, Repr

namespace CountStore

/-- The argument and the value that it takes. -/
def entry (c : CountStore) : Nat × Int := (c.index, c.length.narrowSigned c.before)

/-- The store behind other arguments and other output. -/
def shifted (args bytes : Nat) (c : CountStore) : CountStore :=
  ⟨args + c.index, c.length, bytes + c.before⟩

end CountStore

namespace Rendering

section Fields

variable {total n : Nat}

/-- Pieces that fit behind more output are cut alike there. -/
theorem fitting_add {pieces : List Piece}
    (h : n + total + Piece.lengthOf (fitting total pieces).1 ≤ Directive.maxMeasure) :
    fitting (n + total) pieces =
      ((fitting total pieces).1, (fitting total pieces).2.map (n + ·)) := by
  induction pieces generalizing total with
  | nil => rfl
  | cons p pieces ih =>
    rw [fitting] at h ⊢
    by_cases hp : total + p.length ≤ Directive.maxMeasure
    · rw [if_pos hp] at h
      rw [fitting, if_pos hp]
      have hlen : n + (total + p.length) +
          Piece.lengthOf (fitting (total + p.length) pieces).1 ≤ Directive.maxMeasure := by
        simp only [Piece.lengthOf, List.foldr_cons] at h ⊢
        omega
      have hfits : n + total + p.length ≤ Directive.maxMeasure := by omega
      rw [if_pos hfits, Nat.add_assoc n, ih hlen]
    · rw [if_neg hp] at h
      rw [fitting, if_neg hp]
      have hlong : ¬ n + total + p.length ≤ Directive.maxMeasure := by omega
      rw [if_neg hlong]
      have hcut : p.cut (Directive.maxMeasure - (n + total)) =
          p.cut (Directive.maxMeasure - total) := by
        cases p with
        | text bytes => rfl
        | fill byte count =>
          simp only [Piece.lengthOf, List.foldr_cons, List.foldr_nil, Piece.cut, Piece.length,
            fillRun] at h
          simp only [Piece.cut, fillRun]
          congr 1
          omega
      rw [hcut]
      rfl

theorem bytes_ofField (total : Nat) (f : Field) :
    (ofField total f).bytes = Piece.bytesOf (fitting total f.pieces).1 := by
  rw [ofField, bytes_eq, List.flatMap_map]
  rfl

/-- A field that fits behind more output is written alike there. -/
theorem ofField_add (args bytes : Nat) {f : Field} (hf : f.IsPlaceless)
    (h : n + total + (ofField total f).bytes.length ≤ Directive.maxMeasure) :
    ofField (n + total) f = ⟨(ofField total f).events,
      shiftedResult args bytes (n + ·) (ofField total f).result⟩ := by
  rw [bytes_ofField, Piece.length_bytesOf] at h
  rw [ofField, fitting_add h, ofField]
  generalize fitting total f.pieces = fitted
  obtain ⟨written, more⟩ := fitted
  cases more with
  | none => rfl
  | some m =>
    cases he : f.failure with
    | none => rfl
    | some e =>
      have hplaceless := hf e he args bytes
      simp only [shiftedResult, hplaceless, Option.map_some]

end Fields

/-- The counts that a segment stores. -/
def storesOfSegment (options : FormatOptions) (total : Nat) (args : Arguments) :
    Segment → List CountStore
  | .literal _ | .percent => []
  | .directive d =>
      match d.expandResolved options args with
      | .ok (.count index, _) => [⟨index, d.length, total⟩]
      | .ok (.field _, _) | .error _ => []

/-- The counts that segments store, as far as they are reached. -/
def stores (options : FormatOptions) (total : Nat) (args : Arguments) :
    List FormatItem → List CountStore
  | [] => []
  | item :: rest =>
      match item.content with
      | .error _ => []
      | .ok segment =>
          let (r, args') := ofSegment options total args segment
          storesOfSegment options total args segment ++
            match r.result with
            | .error _ => []
            | .ok total' => stores options total' args' rest

section Stores

variable {options : FormatOptions} {total n : Nat} {args : Arguments}

theorem flatMap_counts_write (pieces : List Piece) :
    (pieces.map OutputEvent.write).flatMap OutputEvent.counts = [] := by
  induction pieces with
  | nil => rfl
  | cons p pieces ih => exact ih

theorem counts_ofSegment (options : FormatOptions) (total : Nat) (args : Arguments)
    (segment : Segment) :
    (ofSegment options total args segment).1.events.flatMap OutputEvent.counts =
      (storesOfSegment options total args segment).map CountStore.entry := by
  cases segment with
  | literal | percent => exact flatMap_counts_write _
  | directive d =>
    rw [ofSegment, storesOfSegment]
    cases d.expandResolved options args with
    | error e => rfl
    | ok p =>
      obtain ⟨expansion, args'⟩ := p
      cases expansion with
      | field f => exact flatMap_counts_write _
      | count index => rfl

section Reached

variable {item : FormatItem} {items : List FormatItem} {segment : Segment}

theorem stores_of_unread {e : Failure} (hc : item.content = .error e) :
    stores options total args (item :: items) = [] := by
  simp only [stores, hc]

theorem stores_of_failed (hc : item.content = .ok segment) {e : Failure}
    (hr : (ofSegment options total args segment).1.result = .error e) :
    stores options total args (item :: items) = storesOfSegment options total args segment := by
  simp only [stores, hc, hr, List.append_nil]

theorem stores_of_written (hc : item.content = .ok segment) {m : Nat}
    (hr : (ofSegment options total args segment).1.result = .ok m) :
    stores options total args (item :: items) = storesOfSegment options total args segment ++
      stores options m (ofSegment options total args segment).2 items := by
  simp only [stores, hc, hr]

end Reached

/-- The values of count arguments are those of the stores. -/
theorem counts_ofItems (options : FormatOptions) (total : Nat) (args : Arguments)
    (items : List FormatItem) :
    (ofItems options total args items).events.flatMap OutputEvent.counts =
      (stores options total args items).map CountStore.entry := by
  induction items generalizing total args with
  | nil => rfl
  | cons item items ih =>
    cases hc : item.content with
    | error e =>
      rw [ofItems_of_unread hc, stores_of_unread hc]
      rfl
    | ok segment =>
      have hsegment := counts_ofSegment options total args segment
      cases hr : (ofSegment options total args segment).1.result with
      | error e =>
        rw [ofItems_of_failed hc hr, stores_of_failed hc hr]
        exact hsegment
      | ok m =>
        rw [ofItems_of_written hc hr, stores_of_written hc hr, after, List.flatMap_append,
          List.map_append, hsegment, ih]

theorem counts_eq (r : Rendering) : r.counts = (r.events.flatMap OutputEvent.counts).reverse := by
  rw [counts, List.reverse_flatMap]
  congr 1
  funext event
  cases event <;> rfl

end Stores

section Shifted

variable {options : FormatOptions} {total : Nat} {args : Arguments} (n k b : Nat)

/-- A segment further on in a format and behind more output. -/
theorem ofSegment_add {segment : Segment}
    (h : n + total + (ofSegment options total args segment).1.bytes.length ≤
      Directive.maxMeasure) :
    let here := ofSegment options total args segment
    let there := ofSegment options (n + total) (args.shifted k) segment
    there.1.bytes = here.1.bytes ∧ there.1.result = shiftedResult k b (n + ·) here.1.result ∧
      there.2 = here.2.shifted k ∧
      storesOfSegment options (n + total) (args.shifted k) segment =
        (storesOfSegment options total args segment).map (.shifted k n) := by
  have field {f : Field} (hf : f.IsPlaceless)
      (h : n + total + (ofField total f).bytes.length ≤ Directive.maxMeasure) :
      (ofField (n + total) f).bytes = (ofField total f).bytes ∧
        (ofField (n + total) f).result = shiftedResult k b (n + ·) (ofField total f).result := by
    rw [ofField_add k b hf h]
    exact ⟨rfl, rfl⟩
  intro here there
  cases segment with
  | literal | percent =>
    obtain ⟨hbytes, hresult⟩ := field (Field.isPlaceless_complete _) h
    exact ⟨hbytes, hresult, rfl, rfl⟩
  | directive d =>
    have hthere := Directive.expandResolved_shifted k b options d args
    simp only [here, there]
    rw [ofSegment] at h ⊢
    rw [ofSegment, storesOfSegment, storesOfSegment, hthere]
    cases he : d.expandResolved options args with
    | error e => exact ⟨rfl, rfl, rfl, rfl⟩
    | ok p =>
      obtain ⟨expansion, args'⟩ := p
      cases expansion with
      | field f =>
        simp only [he] at h
        obtain ⟨hbytes, hresult⟩ := field (Directive.isPlaceless_expandResolved he) h
        exact ⟨hbytes, hresult, rfl, rfl⟩
      | count index => exact ⟨rfl, rfl, rfl, rfl⟩

/-- Segments further on in a format and behind more output. -/
theorem ofItems_add {items : List FormatItem}
    (h : n + total + (ofItems options total args items).bytes.length ≤ Directive.maxMeasure) :
    let here := ofItems options total args items
    let there := ofItems options (n + total) (args.shifted k) (items.map (.shifted k b))
    there.bytes = here.bytes ∧ there.result = shiftedResult k b (n + ·) here.result ∧
      stores options (n + total) (args.shifted k) (items.map (.shifted k b)) =
        (stores options total args items).map (.shifted k n) := by
  induction items generalizing total args with
  | nil => exact ⟨rfl, rfl, rfl⟩
  | cons item items ih =>
    intro here there
    cases hc : item.content with
    | error e =>
      have hc' : (item.shifted k b).content = .error (e.shifted k b) := by
        rw [FormatItem.shifted, hc]
        rfl
      simp only [here, there, List.map_cons]
      rw [ofItems_of_unread hc, ofItems_of_unread hc', stores_of_unread hc, stores_of_unread hc']
      exact ⟨rfl, rfl, rfl⟩
    | ok segment =>
      have hc' : (item.shifted k b).content = .ok segment := by
        rw [FormatItem.shifted, hc]
        rfl
      simp only [here, there, List.map_cons]
      cases hr : (ofSegment options total args segment).1.result with
      | error e =>
        rw [ofItems_of_failed hc hr] at h
        obtain ⟨hbytes, hresult, _, hstores⟩ := ofSegment_add n k b h
        rw [hr] at hresult
        rw [ofItems_of_failed hc hr, ofItems_of_failed hc' hresult, stores_of_failed hc hr,
          stores_of_failed hc' hresult]
        exact ⟨hbytes, rfl, hstores⟩
      | ok m =>
        rw [ofItems_of_written hc hr, bytes_after, List.length_append, ← bytes_eq] at h
        have hm := length_ofSegment hr
        have hfirst : n + total + (ofSegment options total args segment).1.bytes.length ≤
            Directive.maxMeasure := by omega
        obtain ⟨hbytes, hresult, hargs, hstores⟩ := ofSegment_add n k b hfirst
        have hlater : n + m + (ofItems options m (ofSegment options total args segment).2
            items).bytes.length ≤ Directive.maxMeasure := by omega
        obtain ⟨hbytes', hresult', hstores'⟩ := ih hlater
        rw [hr] at hresult
        rw [ofItems_of_written hc hr, ofItems_of_written hc' hresult, stores_of_written hc hr,
          stores_of_written hc' hresult, hargs, bytes_after, bytes_after, ← bytes_eq, ← bytes_eq,
          hbytes, hbytes', hstores, hstores', List.map_append]
        exact ⟨rfl, hresult', rfl⟩

end Shifted

end Rendering

end FormattedText
