import FormattedText.Proofs.Format.Reached

/-!
# Texts at other addresses

Where a text stands is told by a conversion to a pointer, and by nothing else. To compare two
places, texts are taken to address zero (`Arguments.unplaced`): every other way to read an
argument commutes with that, so a directive does, and a segment, and the rendering of a format
that shows no address (`Rendering.ofFormat_placed`).
-/

namespace FormattedText

namespace Argument

/-- Is the argument a text that stands somewhere? -/
def isPresentText : Argument → Bool
  | text (some _) | wideText (some _) => true
  | _ => false

section PlacedAt

variable (address : UInt64) (a : Argument)

theorem isPresentText_placedAt : (a.placedAt address).isPresentText = a.isPresentText := by
  cases a with
  | text t | wideText t => cases t <;> rfl
  | _ => rfl

theorem placedAt_placedAt (address' : UInt64) :
    (a.placedAt address').placedAt address = a.placedAt address := by
  cases a with
  | text t | wideText t => cases t <;> rfl
  | _ => rfl

theorem integer?_placedAt : (a.placedAt address).integer? = a.integer? := by
  cases a <;> rfl

theorem signed?_placedAt (length : Length) :
    (a.placedAt address).signed? length = a.signed? length := by
  rw [signed?, signed?, integer?_placedAt]

theorem unsigned?_placedAt (length : Length) :
    (a.placedAt address).unsigned? length = a.unsigned? length := by
  cases a <;> rfl

theorem byte?_placedAt : (a.placedAt address).byte? = a.byte? := by
  rw [byte?, byte?, integer?_placedAt]

theorem wideChar?_placedAt : (a.placedAt address).wideChar? = a.wideChar? := by
  rw [wideChar?, wideChar?, integer?_placedAt]

theorem float?_placedAt : (a.placedAt address).float? = a.float? := by
  cases a <;> rfl

theorem text?_placedAt : (a.placedAt address).text? = a.text? := by
  cases a with
  | text t => cases t <;> rfl
  | _ => rfl

theorem wideText?_placedAt : (a.placedAt address).wideText? = a.wideText? := by
  cases a with
  | wideText t => cases t <;> rfl
  | _ => rfl

theorem count?_placedAt : (a.placedAt address).count? = a.count? := by
  cases a <;> rfl

/-- A null pointer stays one, and what is no text has no address of its own. -/
theorem address?_placedAt (h : a.isPresentText = false) :
    (a.placedAt address).address? = a.address? := by
  cases a with
  | text t | wideText t =>
    cases t with
    | none => rfl
    | some t => cases h
  | _ => rfl

end PlacedAt

end Argument

namespace Arguments

/-- The arguments with their texts at address zero. -/
def unplaced (args : Arguments) : Arguments := ⟨args.rest.map (·.placedAt 0), args.position⟩

theorem expect_unplaced {α : Type} {pick : Argument → Option α} (args : Arguments)
    (h : ∀ a ∈ args.rest.head?, pick (a.placedAt 0) = pick a) :
    args.unplaced.expect pick = (args.expect pick).map fun p => (p.1, p.2.unplaced) := by
  obtain ⟨rest, position⟩ := args
  cases rest with
  | nil => rfl
  | cons a rest =>
    simp only [expect, take, unplaced, List.map_cons, h a rfl]
    cases pick a <;> rfl

end Arguments

namespace Directive

variable {options : FormatOptions} (d : Directive) (args : Arguments)

theorem resolveWidth_unplaced :
    d.resolveWidth args.unplaced =
      (d.resolveWidth args).map fun p => (p.1, p.2.unplaced) := by
  rw [resolveWidth, resolveWidth]
  split
  · rw [args.expect_unplaced fun a _ => a.signed?_placedAt 0 .plain]
    cases args.expect (Argument.signed? .plain) with
    | error e => rfl
    | ok p =>
      obtain ⟨w, left⟩ := p
      change (d.withWidth w >>= fun d => .ok (d, left.unplaced)) =
        (d.withWidth w >>= fun d => .ok (d, left)).map _
      cases d.withWidth w <;> rfl
  · rfl

theorem resolvePrecision_unplaced :
    d.resolvePrecision args.unplaced =
      (d.resolvePrecision args).map fun p => (p.1, p.2.unplaced) := by
  rw [resolvePrecision, resolvePrecision]
  split
  · rw [args.expect_unplaced fun a _ => a.signed?_placedAt 0 .plain]
    cases args.expect (Argument.signed? .plain) <;> rfl
  · rfl

theorem resolve_unplaced :
    d.resolve args.unplaced = (d.resolve args).map fun p => (p.1, p.2.unplaced) := by
  rw [resolve, resolve, d.resolveWidth_unplaced args]
  cases d.resolveWidth args with
  | error e => rfl
  | ok p => exact p.1.resolvePrecision_unplaced p.2

/-- Does the conversion, with the argument that stands next, show where a text stands? -/
def showsAddress (writer : Writer) (d : Directive) (args : Arguments) : Bool :=
  d.kind writer == .pointer && args.rest.head?.any Argument.isPresentText

theorem showsAddress_unplaced (writer : Writer) :
    d.showsAddress writer args.unplaced = d.showsAddress writer args := by
  obtain ⟨rest, position⟩ := args
  cases rest with
  | nil => rfl
  | cons a rest =>
    exact congrArg (d.kind writer == .pointer && ·) (a.isPresentText_placedAt 0)

/-- A conversion that takes its argument in a way that does not look at its address. -/
theorem field_unplaced {α : Type} {pick : Argument → Option α} (f : α → Field)
    (h : ∀ a ∈ args.rest.head?, pick (a.placedAt 0) = pick a) :
    ((args.unplaced.expect pick).map fun p => (Expansion.field (f p.1), p.2)) =
      ((args.expect pick).map fun p => (Expansion.field (f p.1), p.2)).map
        fun p => (p.1, p.2.unplaced) := by
  rw [args.expect_unplaced h]
  cases args.expect pick <;> rfl

theorem expand_unplaced (h : d.showsAddress options.writer args = false) :
    d.expand options args.unplaced =
      (d.expand options args).map fun p => (p.1, p.2.unplaced) := by
  rw [expand, expand]
  cases hkind : d.kind options.writer with
  | signed => exact field_unplaced args _ fun a _ => a.signed?_placedAt 0 d.length
  | unsigned => exact field_unplaced args _ fun a _ => a.unsigned?_placedAt 0 d.length
  | char => exact field_unplaced args _ fun a _ => a.byte?_placedAt 0
  | wideChar => exact field_unplaced args _ fun a _ => a.wideChar?_placedAt 0
  | text =>
    exact field_unplaced args (fun t => Field.text d (t.getD Field.nullText))
      fun a _ => a.text?_placedAt 0
  | wideText =>
    dsimp only
    rw [args.expect_unplaced fun a _ => a.wideText?_placedAt 0]
    cases args.expect Argument.wideText? <;> rfl
  | pointer =>
    refine field_unplaced args _ fun a ha => a.address?_placedAt 0 ?_
    rw [showsAddress, hkind, Option.mem_def.mp ha] at h
    exact h
  | floating => exact field_unplaced args _ fun a _ => a.float?_placedAt 0
  | count =>
    dsimp only
    rw [args.expect_unplaced fun a _ => a.count?_placedAt 0]
    cases args.expect Argument.count? <;> rfl
  | unknown => rfl

end Directive

/-- Does the segment show where a text stands? -/
def Segment.showsAddress (writer : Writer) (args : Arguments) : Segment → Bool
  | .directive d =>
      match d.resolve args with
      | .ok (d', left) => d'.showsAddress writer left
      | .error _ => false
  | _ => false

namespace Rendering

/-- Does the rendering of segments come to one that shows where a text stands? -/
def showsAddressFrom (options : FormatOptions) (total : Nat) (args : Arguments) :
    List FormatItem → Bool
  | [] => false
  | item :: rest =>
      match item.content with
      | .error _ => false
      | .ok segment =>
          segment.showsAddress options.writer args ||
            match ofSegment options total args segment with
            | (⟨_, .ok total'⟩, args') => showsAddressFrom options total' args' rest
            | (⟨_, .error _⟩, _) => false

/-- Does the rendering of a format with its arguments show where a text stands? -/
def showsAddress (options : FormatOptions) (format : List UInt8) (args : List Argument) : Bool :=
  showsAddressFrom options 0 (.start args) (Format.items format)

section Unplaced

variable {options : FormatOptions} {total : Nat} {args : Arguments}

theorem showsAddress_unplaced (writer : Writer) (args : Arguments) (segment : Segment) :
    segment.showsAddress writer args.unplaced = segment.showsAddress writer args := by
  cases segment with
  | literal | percent => rfl
  | directive d =>
    rw [Segment.showsAddress, Segment.showsAddress, d.resolve_unplaced args]
    cases d.resolve args with
    | error e => rfl
    | ok p => exact p.1.showsAddress_unplaced p.2 writer

theorem ofSegment_unplaced {segment : Segment}
    (h : segment.showsAddress options.writer args = false) :
    ofSegment options total args.unplaced segment =
      ((ofSegment options total args segment).1,
        (ofSegment options total args segment).2.unplaced) := by
  cases segment with
  | literal | percent => rfl
  | directive d =>
    rw [Segment.showsAddress] at h
    have hexpand : d.expandResolved options args.unplaced =
        (d.expandResolved options args).map fun p => (p.1, p.2.unplaced) := by
      rw [Directive.expandResolved_eq, Directive.expandResolved_eq, d.resolve_unplaced args]
      cases hresolve : d.resolve args with
      | error e => rfl
      | ok p =>
        rw [hresolve] at h
        exact p.1.expand_unplaced p.2 h
    rw [ofSegment, ofSegment, hexpand]
    cases d.expandResolved options args with
    | error e => rfl
    | ok p =>
      obtain ⟨expansion, left⟩ := p
      cases expansion <;> rfl

theorem showsAddressFrom_of_read {item : FormatItem} {segment : Segment}
    (hc : item.content = .ok segment) (items : List FormatItem) :
    showsAddressFrom options total args (item :: items) =
      (segment.showsAddress options.writer args ||
        match (ofSegment options total args segment).1.result with
        | .ok n => showsAddressFrom options n (ofSegment options total args segment).2 items
        | .error _ => false) := by
  rw [showsAddressFrom, hc]
  dsimp only
  obtain ⟨⟨events, result⟩, left⟩ := ofSegment options total args segment
  cases result <;> rfl

theorem showsAddressFrom_unplaced (items : List FormatItem) :
    showsAddressFrom options total args.unplaced items =
      showsAddressFrom options total args items := by
  induction items generalizing total args with
  | nil => rfl
  | cons item items ih =>
    cases hc : item.content with
    | error e => simp only [showsAddressFrom, hc]
    | ok segment =>
      rw [showsAddressFrom_of_read hc, showsAddressFrom_of_read hc, showsAddress_unplaced]
      cases hs : segment.showsAddress options.writer args with
      | true => rfl
      | false =>
        rw [ofSegment_unplaced hs]
        cases (ofSegment options total args segment).1.result with
        | error e => rfl
        | ok n => exact congrArg (false || ·) ih

/-- What shows no address of a text is rendered as with all texts at address zero. -/
theorem ofItems_unplaced {items : List FormatItem}
    (h : showsAddressFrom options total args items = false) :
    ofItems options total args.unplaced items = ofItems options total args items := by
  induction items generalizing total args with
  | nil => rfl
  | cons item items ih =>
    cases hc : item.content with
    | error e => rw [ofItems_of_unread hc, ofItems_of_unread hc]
    | ok segment =>
      rw [showsAddressFrom_of_read hc, Bool.or_eq_false_iff] at h
      have hsegment : ofSegment options total args.unplaced segment = _ := ofSegment_unplaced h.1
      cases hr : (ofSegment options total args segment).1.result with
      | error e =>
        rw [ofItems_of_failed hc hr, ofItems_of_failed hc (by rw [hsegment]; exact hr), hsegment]
      | ok n =>
        rw [hr] at h
        rw [ofItems_of_written hc hr, ofItems_of_written hc (by rw [hsegment]; exact hr), hsegment,
          ih h.2]

end Unplaced

/-- A rendering that shows no address of a text is the same wherever the texts stand. -/
theorem ofFormat_relocated {options : FormatOptions} {format : List UInt8}
    {args args' : List Argument} (hsame : args'.map (·.placedAt 0) = args.map (·.placedAt 0))
    (h : showsAddress options format args = false) :
    ofFormat options format args' = ofFormat options format args := by
  have hunplaced : (Arguments.start args').unplaced = (Arguments.start args).unplaced :=
    congrArg (Arguments.mk · 0) hsame
  have h' : showsAddress options format args' = false := by
    rw [showsAddress, ← showsAddressFrom_unplaced, hunplaced, showsAddressFrom_unplaced]
    exact h
  rw [ofFormat, ofFormat, ← ofItems_unplaced h, ← ofItems_unplaced h', hunplaced]

end Rendering

end FormattedText
