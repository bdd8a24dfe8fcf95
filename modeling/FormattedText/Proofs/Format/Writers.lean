import FormattedText.Proofs.Format.Composition
import FormattedText.Proofs.Format.Mirrored

/-!
# The two writers

The writer without floating-point conversions writes a format as the full writer writes the
lowered format with the lowered arguments. The rendering goes segment by segment, and what holds
between them is that the arguments that are left are those of the lowered items that are left
(`Format.LowersArguments`). So the renderings are the same but for the numbers of arguments and
offsets (`Rendering.ofFormat_lowered`), and all memory ends up the same (`formatInto_lowered`).
-/

namespace FormattedText

namespace Format

/-- Arguments before some items of a format, and the lowered ones before the lowered items. -/
structure LowersArguments (index : Nat → Nat) (items : List FormatItem) (args args' : Arguments) :
    Prop where
  /-- The letters of the items have been put between the arguments. -/
  rest : args'.rest = loweredArgumentsFrom items args.rest
  /-- The places of the arguments are known. -/
  index : ∀ i, index (args.position + i) = args'.position + loweredIndexFrom items i

namespace LowersArguments

variable {index : Nat → Nat} {item : FormatItem} {items : List FormatItem} {segment : Segment}
  {args args' : Arguments}

/-- The next segment finds the same arguments, and then its letter. -/
theorem mirrors (h : LowersArguments index (item :: items) args args')
    (hc : item.content = .ok segment) :
    args.Mirrors index (segment.argumentCount .integerOnly) segment.letters args' := by
  obtain ⟨hrest, hindex⟩ := h
  rw [loweredArgumentsFrom_of_read hc] at hrest
  refine ⟨?_, fun hn => ?_, fun i hi => ?_⟩
  · rw [hrest]
    split
    · rename_i hn
      exact List.take_left' (List.length_take_of_le hn)
    · rfl
  · rw [if_pos hn] at hrest
    rw [hrest, List.drop_left' (List.length_take_of_le hn)]
    exact List.prefix_append _ _
  · rw [hindex, loweredIndexFrom_of_read hc, if_pos hi]

/-- Behind a segment and its letter come the arguments of the other items. -/
theorem skip (h : LowersArguments index (item :: items) args args')
    (hc : item.content = .ok segment)
    (hn : segment.argumentCount .integerOnly ≤ args.rest.length) :
    LowersArguments index items (args.skip (segment.argumentCount .integerOnly))
      (args'.skip (segment.lowered.argumentCount .full)) := by
  obtain ⟨hrest, hindex⟩ := h
  rw [loweredArgumentsFrom_of_read hc, if_pos hn, ← List.append_assoc] at hrest
  rw [Segment.argumentCount_lowered]
  refine ⟨?_, fun i => ?_⟩
  · have htaken : (args.rest.take (segment.argumentCount .integerOnly) ++ segment.letters).length =
        segment.argumentCount .integerOnly + segment.letters.length := by
      rw [List.length_append, List.length_take_of_le hn]
    rw [Arguments.skip, hrest]
    exact List.drop_left' htaken
  · have hlater := hindex (segment.argumentCount .integerOnly + i)
    rw [loweredIndexFrom_of_read hc, if_neg (Nat.not_lt.mpr (Nat.le_add_right _ _)),
      Nat.add_sub_cancel_left, ← Nat.add_assoc, ← Nat.add_assoc] at hlater
    exact hlater

end LowersArguments

end Format

namespace Rendering

section Lowered

variable {index offset : Nat → Nat} (enc : Encoding)

/-- The lowered items with the lowered arguments are rendered as the items themselves. -/
theorem ofItems_lowered {items items' : List FormatItem}
    (hitems : List.Forall₂ (FormatItem.IsLowered index offset) items items')
    {args args' : Arguments} (hargs : Format.LowersArguments index items args args')
    (total : Nat) :
    ofItems ⟨.full, enc⟩ total args' items' =
      (ofItems ⟨.integerOnly, enc⟩ total args items).renumbered index offset := by
  induction hitems generalizing args args' total with
  | nil => rfl
  | @cons item item' items items' hitem _ ih =>
    cases hc : item.content with
    | error e =>
      have hc' : item'.content = .error (e.renumbered index offset) := by
        rw [hitem, hc]
        rfl
      rw [ofItems_of_unread hc, ofItems_of_unread hc']
      rfl
    | ok segment =>
      have hc' : item'.content = .ok segment.lowered := by
        rw [hitem, hc]
        rfl
      have hsegment := ofSegment_lowered offset enc total (hargs.mirrors hc)
      cases hr : (ofSegment ⟨.integerOnly, enc⟩ total args segment).1.result with
      | error e =>
        have hr' : (ofSegment ⟨.full, enc⟩ total args' segment.lowered).1.result =
            .error (e.renumbered index offset) := by
          rw [hsegment, renumbered, hr]
          rfl
        rw [ofItems_of_failed hc hr, ofItems_of_failed hc' hr', hsegment]
        rfl
      | ok m =>
        have hr' : (ofSegment ⟨.full, enc⟩ total args' segment.lowered).1.result = .ok m := by
          rw [hsegment, renumbered, hr]
          rfl
        obtain ⟨hleft, hn⟩ := ofSegment_skip hr
        have hlater := hargs.skip hc hn
        rw [← hleft, ← (ofSegment_skip hr').1] at hlater
        rw [ofItems_of_written hc hr, ofItems_of_written hc' hr', renumbered_after, ih hlater,
          hsegment]
        rfl

/-- The lowered format with the lowered arguments is rendered as the format itself is without
floating-point conversions. -/
theorem ofFormat_lowered (format : List UInt8) (args : List Argument) :
    ofFormat ⟨.full, enc⟩ (Format.lowered format) (Format.loweredArguments format args) =
      (ofFormat ⟨.integerOnly, enc⟩ format args).renumbered (Format.loweredIndex format)
        (Format.loweredOffset format) := by
  have hargs : Format.LowersArguments (Format.loweredIndex format) (Format.items format)
      (.start args) (.start (Format.loweredArguments format args)) := by
    refine ⟨rfl, fun i => ?_⟩
    simp only [Arguments.start, Nat.zero_add]
    rfl
  exact ofItems_lowered enc (Format.items_lowered _ format) hargs 0

/-- Without floating-point conversions the writers render alike. -/
theorem ofFormat_of_hasNoFloating {format : List UInt8}
    (h : Format.HasNoFloating (Format.items format)) (args : List Argument) :
    ofFormat ⟨.integerOnly, enc⟩ format args = ofFormat ⟨.full, enc⟩ format args := by
  have hitems : List.Forall₂ (FormatItem.IsLowered id id) (Format.items format)
      (Format.items format) := by
    refine List.forall₂_same.mpr fun item hmem => ?_
    rw [FormatItem.IsLowered]
    cases hc : item.content with
    | error e => cases e <;> rfl
    | ok segment =>
      have hlowered := (Segment.lowered_of_not_isFloating fun d hd =>
        h item hmem d (hc.trans (congrArg Except.ok hd))).1
      exact congrArg Except.ok hlowered.symm
  have hargs : Format.LowersArguments id (Format.items format) (.start args) (.start args) :=
    ⟨(h.lowered args 0).1.symm, fun i => congrArg (0 + ·) (h.lowered args i).2.symm⟩
  have hsame := ofItems_lowered enc hitems hargs 0
  rw [renumbered_id] at hsame
  exact hsame.symm

end Lowered

end Rendering

/-- Two outcomes, of a format with its arguments and of the lowered format with the lowered
arguments, differ only in the numbers of arguments and offsets. -/
structure Delivered.Lowers {σ : Type} (format : List UInt8) (args : List Argument)
    (written lowered : Delivered σ) : Prop where
  /-- The same length is returned, or the same failure. -/
  result : lowered.result =
    renumberedResult (Format.loweredIndex format) (Format.loweredOffset format) written.result
  /-- The same is left in the sink. -/
  sink : lowered.sink = written.sink
  /-- The same counts are stored, in the same order. -/
  counts : lowered.counts = written.counts.map fun c => (Format.loweredIndex format c.1, c.2)
  /-- The arguments for counts have the same values in the end. -/
  values : finalCounts lowered.counts (Format.loweredArguments format args) =
    finalCounts written.counts args

/-- What the writer without floating-point conversions does, as told by the full writer. -/
structure WritesLowered (enc : Encoding) (format : List UInt8) (args : List Argument) : Prop where
  /-- The lowered format is read as the format, with a character directive for each floating-point
  one; a directive that cannot be read there cannot be read here. -/
  reads : List.Forall₂ (FormatItem.IsLowered (Format.loweredIndex format)
    (Format.loweredOffset format)) (Format.items format) (Format.items (Format.lowered format))
  /-- A buffer of fixed size gets what the full writer writes of the lowered format. -/
  fixed : ∀ b : FixedBuffer, Delivered.Lowers format args
    (formatInto b ⟨.integerOnly, enc⟩ format args)
    (formatInto b ⟨.full, enc⟩ (Format.lowered format) (Format.loweredArguments format args))
  /-- So does memory that grows. -/
  growable : ∀ b : GrowableBuffer, Delivered.Lowers format args
    (formatInto b ⟨.integerOnly, enc⟩ format args)
    (formatInto b ⟨.full, enc⟩ (Format.lowered format) (Format.loweredArguments format args))
  /-- The arguments of the format are among the lowered ones, in order. -/
  ordered : StrictMono (Format.loweredIndex format)
  /-- Each of them stands where its number has moved. -/
  placed : ∀ i, (Format.loweredArguments format args)[Format.loweredIndex format i]? = args[i]?
  /-- A format without floating-point conversions is written alike by both writers, into every
  sink. -/
  agrees : Format.HasNoFloating (Format.items format) → ∀ {σ : Type} [Sink σ] (sink : σ),
    formatInto sink ⟨.integerOnly, enc⟩ format args = formatInto sink ⟨.full, enc⟩ format args
  /-- A floating-point directive writes its letter with the width that it has or takes. -/
  passes : ∀ d : Directive, d.isFloating = true → ∀ left : Arguments,
    d.expandResolved ⟨.integerOnly, enc⟩ left =
      (d.resolve left).map fun p => (.field (Field.char p.1 d.conversion), p.2)
  /-- It takes the arguments of its stars, and none for a value. -/
  takes : ∀ d : Directive, d.isFloating = true → ∀ (left left' : Arguments) (e : Expansion),
    d.expandResolved ⟨.integerOnly, enc⟩ left = .ok (e, left') → left' = left.skip
      ((if d.width = .fromArgument then 1 else 0) + if d.precision = .fromArgument then 1 else 0)

theorem Delivered.lowers {σ : Type} {format : List UInt8} {args : List Argument}
    {written lowered : Delivered σ} (h : lowered =
      written.renumbered (Format.loweredIndex format) (Format.loweredOffset format)) :
    Lowers format args written lowered := by
  subst h
  exact ⟨rfl, rfl, rfl, finalCounts_lowered format args written.counts⟩

/-- The writers differ only in floating-point directives: without them a format is written as the
full writer writes the lowered format, with the letters of the conversions as characters behind
the arguments of their stars. The result, the memory and the counts are the same but for the
numbers of arguments and offsets. -/
theorem formatInto_lowered (enc : Encoding) (format : List UInt8) (args : List Argument) :
    WritesLowered enc format args where
  reads := Format.items_lowered (Format.loweredIndex format) format
  fixed b := Delivered.lowers (formatInto_renumbered (FixedBuffer.holds_faithful b.storage)
    FixedBuffer.HoldsTerminated.unique (FixedBuffer.holds_stored b)
    (Rendering.ofFormat_lowered enc format args))
  growable b := Delivered.lowers (formatInto_renumbered GrowableBuffer.terminated_faithful
    GrowableBuffer.ShowsTerminated.unique (Eq.refl b.content)
    (Rendering.ofFormat_lowered enc format args))
  ordered := Format.loweredIndexFrom_strictMono (Format.items format)
  placed := Format.getElem?_loweredArgumentsFrom (Format.items format) args
  agrees h σ _ sink := by
    rw [formatInto, formatInto, Rendering.ofFormat_of_hasNoFloating enc h]
  passes d hd left := Directive.expandResolved_of_isFloating enc hd left
  takes d hd left left' e h := by
    have hskip := (Directive.expandResolved_skip h).1
    rw [Directive.argumentCount, Directive.kind_integerOnly_of_isFloating hd] at hskip
    exact hskip

/-- `%*Lf%n%d` with a width and a count: the letter comes between them in the lowered arguments, so
that the count and the argument that is missing have moved by one. -/
theorem formatInto_lowered_starred :
    let format : List UInt8 := [0x25, 0x2A, 0x4C, 0x66, 0x25, 0x6E, 0x25, 0x64]
    let args : List Argument := [.int 3, .count 0]
    let written := formatInto GrowableBuffer.empty ⟨.integerOnly, .utf8⟩ format args
    let lowered := formatInto GrowableBuffer.empty ⟨.full, .utf8⟩
      [0x25, 0x2A, 0x63, 0x25, 0x6E, 0x25, 0x64] [.int 3, .char 0x66, .count 0]
    written.result = .error (.argumentMismatch 2) ∧ written.sink.content = [0x20, 0x20, 0x66] ∧
      written.counts = [(1, 3)] ∧ lowered.result = .error (.argumentMismatch 3) ∧
      lowered.sink.content = [0x20, 0x20, 0x66] ∧ lowered.counts = [(2, 3)] := by
  intro format args written lowered
  have hformat : Format.lowered format = [0x25, 0x2A, 0x63, 0x25, 0x6E, 0x25, 0x64] := by
    decide +kernel
  have hargs : Format.loweredArguments format args = [.int 3, .char 0x66, .count 0] := by
    decide +kernel
  have hlowers : Delivered.Lowers format args written lowered := by
    have hwritten := (formatInto_lowered .utf8 format args).growable GrowableBuffer.empty
    rw [hformat, hargs] at hwritten
    exact hwritten
  have hresult : written.result = .error (.argumentMismatch 2) := by decide +kernel
  have hcontent : written.sink.content = [0x20, 0x20, 0x66] := by decide +kernel
  have hcounts : written.counts = [(1, 3)] := by decide +kernel
  have hindex : Format.loweredIndex format 1 = 2 ∧ Format.loweredIndex format 2 = 3 := by
    decide +kernel
  refine ⟨hresult, hcontent, hcounts, ?_, ?_, ?_⟩
  · rw [hlowers.result, hresult, renumberedResult, Failure.renumbered, hindex.2]
  · rw [hlowers.sink, hcontent]
  · rw [hlowers.counts, hcounts, List.map_singleton, hindex.1]

end FormattedText
