import FormattedText.Proofs.Format.Composition

/-!
# A directive in a format

No rendering gives more output than can be reported (`Rendering.length_ofItems_le`). So where
a format goes on with a directive, either what stands before fails, or the directive is
rendered behind its output, with the arguments that it leaves (`Rendering.ofFormat_percent`).
`Format.Reaches` says that the rendering gets as far as the conversion of a directive.
-/

namespace FormattedText

/-- What is written of a piece that exceeds the budget keeps to it. -/
theorem Piece.length_cut_le (budget : Nat) (p : Piece) : (p.cut budget).length ≤ budget := by
  cases p with
  | text bytes => exact Nat.zero_le _
  | fill byte count => exact Nat.div_mul_le_self budget fillRun

/-- A percent sign is no conversion. -/
theorem Directive.ofDirective_of_kind {d : Directive} {writer : Writer}
    (h : d.kind writer ≠ .unknown) : Segment.ofDirective d = .directive d := by
  refine if_neg fun hpercent => h ?_
  rw [kind, hpercent]
  cases writer <;> rfl

namespace Rendering

section Bounds

variable {total : Nat}

theorem length_fitting_le (h : total ≤ Directive.maxMeasure) (pieces : List Piece) :
    total + Piece.lengthOf (fitting total pieces).1 ≤ Directive.maxMeasure := by
  induction pieces generalizing total with
  | nil => exact h
  | cons p pieces ih =>
    rw [fitting]
    split
    · rename_i hp
      have hlater := ih hp
      simp only [Piece.lengthOf, List.foldr_cons] at hlater ⊢
      omega
    · have hcut := p.length_cut_le (Directive.maxMeasure - total)
      simp only [Piece.lengthOf, List.foldr_cons, List.foldr_nil]
      omega

theorem length_ofField_le (h : total ≤ Directive.maxMeasure) (f : Field) :
    total + (ofField total f).bytes.length ≤ Directive.maxMeasure := by
  rw [bytes_ofField, Piece.length_bytesOf]
  exact length_fitting_le h f.pieces

theorem length_ofSegment_le (h : total ≤ Directive.maxMeasure) (options : FormatOptions)
    (args : Arguments) (segment : Segment) :
    total + (ofSegment options total args segment).1.bytes.length ≤ Directive.maxMeasure := by
  cases segment with
  | literal | percent => exact length_ofField_le h _
  | directive d =>
    rw [ofSegment]
    split
    · exact h
    · exact length_ofField_le h _
    · exact h

/-- No more is written than can be reported. -/
theorem length_ofItems_le (h : total ≤ Directive.maxMeasure) (options : FormatOptions)
    (args : Arguments) (items : List FormatItem) :
    total + (ofItems options total args items).bytes.length ≤ Directive.maxMeasure := by
  induction items generalizing total args with
  | nil => exact h
  | cons item items ih =>
    cases hc : item.content with
    | error e =>
      rw [ofItems_of_unread hc]
      exact h
    | ok segment =>
      have hsegment := length_ofSegment_le h options args segment
      cases hr : (ofSegment options total args segment).1.result with
      | error e =>
        rw [ofItems_of_failed hc hr]
        exact hsegment
      | ok m =>
        have hm := length_ofSegment hr
        have hle : m ≤ Directive.maxMeasure := by omega
        have hlater := ih hle (ofSegment options total args segment).2
        rw [ofItems_of_written hc hr, bytes_after, List.length_append, ← bytes_eq]
        omega

/-- A length that is returned can be reported. -/
theorem result_ofFormat_le {options : FormatOptions} {format : List UInt8} {args : List Argument}
    {n : Nat} (h : (ofFormat options format args).result = .ok n) : n ≤ Directive.maxMeasure := by
  have hle := length_ofItems_le (Nat.zero_le _) options (.start args) (Format.items format)
  rw [Nat.zero_add] at hle
  exact Nat.le_trans (Nat.le_of_eq (length_bytes h).symm) hle

end Bounds

section Directives

variable {options : FormatOptions} {args : List Argument} {f s : List UInt8}
  {segments : List Segment} {d : Directive}

/-- A format that goes on with a percent sign is rendered as it is alone, and then from the
percent sign on. -/
theorem ofFormat_percent (g : List UInt8) (hzero : 0 ∉ f ++ percentByte :: s)
    (hf : Format.parse f = .ok segments) :
    Continues (ofFormat options f args) (ofFormat options (f ++ percentByte :: s ++ g) args) []
      fun n =>
        ofItems options n
          ((Arguments.start args).skip (Format.argumentCount options.writer segments))
          (Format.itemsFrom f.length (percentByte :: s ++ Format.text g)) := by
  rw [List.mem_append, not_or] at hzero
  have hjoin := @ofFormat_append options args f segments (percentByte :: s ++ g) hzero.1 hf
  rw [Format.text_append hzero.2, ← List.append_assoc, Format.lead,
    Format.text_append hzero.2] at hjoin
  exact hjoin

/-- Behind a format that is written to its end comes the second rendering. -/
theorem Continues.joins {whole : Rendering} {n : Nat} {second : Nat → Rendering}
    (h : Continues (ofFormat options f args) whole [] second)
    (hn : (ofFormat options f args).result = .ok n) :
    Joins (ofFormat options f args) (second n) whole :=
  h.joined n hn (result_ofFormat_le hn)

/-- A format of one directive, not for a percent sign, is rendered as its segment. -/
theorem ofFormat_segment (hzero : 0 ∉ s) (hparse : Directive.parse s = .ok (d, []))
    (hsegment : Segment.ofDirective d = .directive d) (args : List Argument) :
    ofFormat options (percentByte :: s) args =
      (ofSegment options 0 (.start args) (.directive d)).1 := by
  have hwhole : 0 ∉ percentByte :: s := List.not_mem_cons_of_ne_of_not_mem (by decide) hzero
  rw [ofFormat, Format.items, Format.text_eq hwhole, Format.itemsFrom_directive 0 hparse,
    Format.itemsFrom_nil, ofItems_singleton rfl, hsegment]

/-- A format of one directive that is known is rendered as its segment. -/
theorem ofFormat_directive (hzero : 0 ∉ s) (hparse : Directive.parse s = .ok (d, []))
    (hkind : d.kind options.writer ≠ .unknown) (args : List Argument) :
    ofFormat options (percentByte :: s) args =
      (ofSegment options 0 (.start args) (.directive d)).1 :=
  ofFormat_segment hzero hparse (Directive.ofDirective_of_kind hkind) args

end Directives

end Rendering

namespace Directive

variable {options : FormatOptions} {d d' : Directive} {args args' : Arguments}

/-- The directive with the width and the precision that the arguments give it, and the
arguments that are left for its conversion. -/
def resolve (d : Directive) (args : Arguments) : Except Failure (Directive × Arguments) := do
  let (d, args) ← d.resolveWidth args
  d.resolvePrecision args

theorem expandResolved_eq (options : FormatOptions) (d : Directive) (args : Arguments) :
    d.expandResolved options args = d.resolve args >>= fun p => p.1.expand options p.2 := by
  rw [expandResolved, resolve]
  cases d.resolveWidth args with
  | error e => rfl
  | ok p => rfl

theorem expandResolved_of_resolve (options : FormatOptions)
    (h : d.resolve args = .ok (d', args')) :
    d.expandResolved options args = d'.expand options args' := by
  rw [expandResolved_eq, h]
  rfl

theorem resolve_ok (h : d.resolve args = .ok (d', args')) :
    d'.length = d.length ∧ d'.conversion = d.conversion := by
  obtain ⟨⟨d₁, args₁⟩, hw, hp⟩ := exists_of_bind_eq_ok h
  obtain ⟨⟨_, hlength, hconversion⟩, _⟩ := resolveWidth_skip hw
  obtain ⟨⟨hlength', hconversion'⟩, _⟩ := resolvePrecision_skip hp
  exact ⟨hlength'.trans hlength, hconversion'.trans hconversion⟩

end Directive

/-- A print comes as far as the conversion of a directive: what stands before the directive is
written to its end, and there are arguments for the width and the precision. -/
structure Format.Reaches (options : FormatOptions) (f s : List UInt8) (args : List Argument)
    (d : Directive) (left : Arguments) : Prop where
  /-- The format does not end before the end of the directive. -/
  zero_not_mem : 0 ∉ f ++ percentByte :: s
  /-- What stands before can be read, the directive can be read and takes its width and its
  precision from the arguments that are left. -/
  resolves : ∃ segments spelled, Format.parse f = .ok segments ∧
    Directive.parse s = .ok (spelled, []) ∧
    spelled.resolve ((Arguments.start args).skip (Format.argumentCount options.writer segments)) =
      .ok (d, left)
  /-- What stands before is written. -/
  written : ∃ n, (printToMemory options f args).result = .ok n

end FormattedText
