import FormattedText.Proofs.Format.Composition

/-!
# The arguments that a format takes

A rendering looks at no more arguments than its segments take: more of them behind these change
nothing (`Rendering.ofItems_followed`), and its failures and counts name none but these
(`Rendering.ofItems_concerns`).
-/

namespace FormattedText

/-- The arguments with more behind them. -/
def Arguments.followed (args : Arguments) (more : List Argument) : Arguments :=
  ⟨args.rest ++ more, args.position⟩

theorem Arguments.expect_followed {α : Type} {args : Arguments} (h : 1 ≤ args.rest.length)
    (pick : Argument → Option α) (more : List Argument) :
    (args.followed more).expect pick =
      (args.expect pick).map fun p => (p.1, p.2.followed more) := by
  obtain ⟨rest, position⟩ := args
  obtain ⟨a, rest, rfl⟩ := List.exists_cons_of_length_pos h
  simp only [expect, take, followed, List.cons_append]
  cases pick a <;> rfl

theorem map_bind {ε α α' β β' : Type} {g : α → α'} {k : β → β'} {f : α → Except ε β}
    {f' : α' → Except ε β'} {x : Except ε α}
    (hf : ∀ a, x = .ok a → f' (g a) = (f a).map k) :
    (x.map g >>= f') = (x >>= f).map k := by
  cases x with
  | error e => rfl
  | ok a => exact hf a rfl

namespace Directive

variable {d : Directive} {args : Arguments} (more : List Argument)

theorem resolveWidth_followed (h : (if d.width = .fromArgument then 1 else 0) ≤ args.rest.length) :
    d.resolveWidth (args.followed more) =
      (d.resolveWidth args).map fun p => (p.1, p.2.followed more) := by
  rw [resolveWidth, resolveWidth]
  split
  · rename_i hstar
    rw [if_pos hstar] at h
    rw [Arguments.expect_followed h]
    refine map_bind fun p _ => ?_
    cases hw : d.withWidth p.1 with
    | error e => simp only [hw, bind, Except.bind, Except.map]
    | ok d' => simp only [hw, bind, Except.bind, Except.map, pure, Except.pure]
  · rfl

theorem resolvePrecision_followed
    (h : (if d.precision = .fromArgument then 1 else 0) ≤ args.rest.length) :
    d.resolvePrecision (args.followed more) =
      (d.resolvePrecision args).map fun p => (p.1, p.2.followed more) := by
  rw [resolvePrecision, resolvePrecision]
  split
  · rename_i hstar
    rw [if_pos hstar] at h
    rw [Arguments.expect_followed h]
    exact map_bind fun p _ => rfl
  · rfl

theorem expand_followed (options : FormatOptions)
    (h : (if d.kind options.writer = .unknown then 0 else 1) ≤ args.rest.length) :
    d.expand options (args.followed more) =
      (d.expand options args).map fun p => (p.1, p.2.followed more) := by
  rw [expand, expand]
  cases hk : d.kind options.writer with
  | unknown => rfl
  | _ =>
    rw [hk] at h
    simp only
    rw [Arguments.expect_followed h]
    cases args.expect _ <;> rfl

/-- A directive looks at the arguments that it takes, and at no others. -/
theorem expandResolved_followed (options : FormatOptions)
    (h : d.argumentCount options.writer ≤ args.rest.length) :
    d.expandResolved options (args.followed more) =
      (d.expandResolved options args).map fun p => (p.1, p.2.followed more) := by
  rw [argumentCount] at h
  rw [expandResolved, expandResolved, resolveWidth_followed more (by omega)]
  refine map_bind ?_
  rintro ⟨d₁, args₁⟩ hp
  obtain ⟨⟨hprecision, hsame₁⟩, rfl, _⟩ := resolveWidth_skip hp
  simp only
  rw [resolvePrecision_followed more (by
    simp only [hprecision, Arguments.skip, List.length_drop]
    omega)]
  refine map_bind ?_
  rintro ⟨d₂, args₂⟩ hq
  obtain ⟨hsame₂, rfl, _⟩ := resolvePrecision_skip hq
  have hkind : d₂.kind options.writer = d.kind options.writer :=
    kind_congr _ ⟨hsame₂.1.trans hsame₁.1, hsame₂.2.trans hsame₁.2⟩
  refine expand_followed more options ?_
  simp only [hkind, hprecision, Arguments.skip, List.length_drop]
  omega

end Directive

namespace Rendering

variable {options : FormatOptions} {args : Arguments} (more : List Argument)

theorem ofSegment_followed (total : Nat) {segment : Segment}
    (h : segment.argumentCount options.writer ≤ args.rest.length) :
    (ofSegment options total (args.followed more) segment).1 =
        (ofSegment options total args segment).1 ∧
      (ofSegment options total (args.followed more) segment).2 =
        (ofSegment options total args segment).2.followed more := by
  cases segment with
  | literal | percent => exact ⟨rfl, rfl⟩
  | directive d =>
    rw [ofSegment, ofSegment, Directive.expandResolved_followed more options h]
    cases d.expandResolved options args with
    | error e => exact ⟨rfl, rfl⟩
    | ok p =>
      obtain ⟨expansion, left⟩ := p
      cases expansion <;> exact ⟨rfl, rfl⟩

/-- Segments look at the arguments that they take, and at no others. -/
theorem ofItems_followed (total : Nat) {items : List FormatItem} {segments : List Segment}
    (hitems : items.mapM (·.content) = .ok segments)
    (h : Format.argumentCount options.writer segments ≤ args.rest.length) :
    ofItems options total (args.followed more) items = ofItems options total args items := by
  induction items generalizing total args segments with
  | nil => rfl
  | cons item items ih =>
    obtain ⟨segment, later, hc, hlater, rfl⟩ := exists_of_mapM_content hitems
    rw [Format.argumentCount_cons] at h
    have hfirst : segment.argumentCount options.writer ≤ args.rest.length := by omega
    obtain ⟨hsame, hargs⟩ := ofSegment_followed more total hfirst
    cases hr : (ofSegment options total args segment).1.result with
    | error e =>
      rw [ofItems_of_failed hc hr, ofItems_of_failed hc (by rw [hsame]; exact hr), hsame]
    | ok m =>
      obtain ⟨hskip, hlen⟩ := ofSegment_skip hr
      have hrest : Format.argumentCount options.writer later ≤
          (ofSegment options total args segment).2.rest.length := by
        rw [hskip, Arguments.skip, List.length_drop]
        omega
      rw [ofItems_of_written hc hr, ofItems_of_written hc (by rw [hsame]; exact hr), hsame, hargs,
        ih m hlater hrest]

/-- A format looks at the arguments that it takes, and at no others. -/
theorem ofFormat_followed {format : List UInt8} {segments : List Segment} {args : List Argument}
    (hformat : Format.parse format = .ok segments)
    (h : Format.argumentCount options.writer segments ≤ args.length) :
    ofFormat options format (args ++ more) = ofFormat options format args :=
  @ofItems_followed options (.start args) more 0 (Format.items format) segments hformat h

end Rendering

/-- A failure that names an argument names one before the `n`-th, and it names no offset. -/
def Failure.Concerns (n : Nat) : Failure → Prop
  | .argumentMismatch index => index < n
  | .malformedDirective _ => False
  | _ => True

section Concerns

variable {m n : Nat} {e : Failure}

theorem Failure.Concerns.mono (h : e.Concerns m) (hle : m ≤ n) : e.Concerns n := by
  cases e with
  | argumentMismatch index => exact Nat.lt_of_lt_of_le h hle
  | malformedDirective offset => exact h
  | _ => exact trivial

theorem Failure.IsPlaceless.concerns (h : e.IsPlaceless) (n : Nat) : e.Concerns n := by
  cases e with
  | argumentMismatch index =>
    have hmoved := Failure.argumentMismatch.inj (h 1 0)
    omega
  | malformedDirective offset =>
    have hmoved := Failure.malformedDirective.inj (h 0 1)
    omega
  | _ => exact trivial

theorem Arguments.expect_concerns {α : Type} {pick : Argument → Option α} {args : Arguments}
    (h : args.expect pick = .error e) : e.Concerns (args.position + 1) := by
  obtain ⟨rest, position⟩ := args
  cases rest with
  | nil =>
    cases h
    exact Nat.lt_succ_self position
  | cons a rest =>
    simp only [expect, take] at h
    cases hp : pick a with
    | none =>
      simp only [hp] at h
      cases h
      exact Nat.lt_succ_self position
    | some v =>
      simp only [hp] at h
      cases h

end Concerns

namespace Directive

variable {options : FormatOptions} {d : Directive} {args args' : Arguments} {e : Failure}

theorem resolveWidth_concerns (h : d.resolveWidth args = .error e) :
    e.Concerns (args.position + if d.width = .fromArgument then 1 else 0) := by
  rw [resolveWidth] at h
  split at h
  · rename_i hstar
    rw [if_pos hstar]
    cases he : args.expect (Argument.signed? .plain) with
    | error e' =>
      rw [he] at h
      cases h
      exact Arguments.expect_concerns he
    | ok p =>
      rw [he] at h
      simp only [bind, Except.bind, withWidth] at h
      by_cases hlong : maxMeasure < p.1.natAbs
      · rw [if_pos hlong] at h
        cases h
        exact trivial
      · rw [if_neg hlong] at h
        cases h
  · cases h

theorem resolvePrecision_concerns (h : d.resolvePrecision args = .error e) :
    e.Concerns (args.position + if d.precision = .fromArgument then 1 else 0) := by
  rw [resolvePrecision] at h
  split at h
  · rename_i hstar
    rw [if_pos hstar]
    cases he : args.expect (Argument.signed? .plain) with
    | error e' =>
      rw [he] at h
      cases h
      exact Arguments.expect_concerns he
    | ok p =>
      rw [he] at h
      cases h
  · cases h

theorem expand_concerns (h : d.expand options args = .error e) :
    e.Concerns (args.position + if d.kind options.writer = .unknown then 0 else 1) := by
  have one {α : Type} {pick : Argument → Option α} {g : α × Arguments → Expansion × Arguments}
      (h : (args.expect pick).map g = .error e) : e.Concerns (args.position + 1) := by
    cases he : args.expect pick with
    | error e' =>
      rw [he] at h
      cases h
      exact Arguments.expect_concerns he
    | ok p =>
      rw [he] at h
      cases h
  rw [expand] at h
  cases hk : d.kind options.writer with
  | unknown =>
    simp only [hk] at h
    cases h
  | _ =>
    simp only [hk] at h
    exact one h

/-- A count is stored in one of the arguments that the conversion takes. -/
theorem expand_count {index : Nat} (h : d.expand options args = .ok (.count index, args')) :
    index < args.position + if d.kind options.writer = .unknown then 0 else 1 := by
  have one {α : Type} {pick : Argument → Option α} {g : α × Arguments → Expansion × Arguments}
      (h : (args.expect pick).map g = .ok (.count index, args'))
      (hg : ∀ p, (g p).1 = .count index → index = args.position) :
      index < args.position + 1 := by
    cases he : args.expect pick with
    | error e =>
      rw [he] at h
      cases h
    | ok p =>
      rw [he] at h
      rw [hg p (congrArg Prod.fst (Except.ok.inj h))]
      exact Nat.lt_succ_self _
  rw [expand] at h
  cases hk : d.kind options.writer with
  | unknown =>
    simp only [hk] at h
    cases h
  | count =>
    simp only [hk] at h
    refine one h fun p hp => ?_
    cases hp
    rfl
  | _ =>
    simp only [hk] at h
    refine one h fun p hp => ?_
    cases hp

/-- A directive fails for an argument that it takes. -/
theorem expandResolved_concerns (h : d.expandResolved options args = .error e) :
    e.Concerns (args.position + d.argumentCount options.writer) := by
  rw [argumentCount]
  rw [expandResolved] at h
  cases hw : d.resolveWidth args with
  | error e' =>
    rw [hw] at h
    cases h
    exact (resolveWidth_concerns hw).mono (by omega)
  | ok p =>
    obtain ⟨d₁, args₁⟩ := p
    obtain ⟨⟨hprecision, hsame₁⟩, rfl, _⟩ := resolveWidth_skip hw
    rw [hw] at h
    simp only [bind, Except.bind] at h
    cases hp : d₁.resolvePrecision (args.skip (if d.width = .fromArgument then 1 else 0)) with
    | error e' =>
      rw [hp] at h
      cases h
      have hconcerns := resolvePrecision_concerns hp
      rw [hprecision] at hconcerns
      simp only [Arguments.skip] at hconcerns
      exact hconcerns.mono (by omega)
    | ok q =>
      obtain ⟨d₂, args₂⟩ := q
      obtain ⟨hsame₂, rfl, _⟩ := resolvePrecision_skip hp
      rw [hp] at h
      have hconcerns := expand_concerns h
      have hkind : d₂.kind options.writer = d.kind options.writer :=
        kind_congr _ ⟨hsame₂.1.trans hsame₁.1, hsame₂.2.trans hsame₁.2⟩
      rw [hkind, hprecision] at hconcerns
      simp only [Arguments.skip] at hconcerns
      exact hconcerns.mono (by omega)

theorem expandResolved_count {index : Nat}
    (h : d.expandResolved options args = .ok (.count index, args')) :
    index < args.position + d.argumentCount options.writer := by
  obtain ⟨⟨d₁, args₁⟩, hw, h⟩ := exists_of_bind_eq_ok h
  obtain ⟨⟨d₂, args₂⟩, hp, h⟩ := exists_of_bind_eq_ok h
  obtain ⟨⟨hprecision, hsame₁⟩, rfl, _⟩ := resolveWidth_skip hw
  obtain ⟨hsame₂, rfl, _⟩ := resolvePrecision_skip hp
  have hindex := expand_count h
  have hkind : d₂.kind options.writer = d.kind options.writer :=
    kind_congr _ ⟨hsame₂.1.trans hsame₁.1, hsame₂.2.trans hsame₁.2⟩
  rw [hkind, hprecision] at hindex
  simp only [Arguments.skip] at hindex
  rw [argumentCount]
  omega

end Directive

namespace Rendering

variable {options : FormatOptions} {total : Nat} {args : Arguments} {e : Failure}

theorem ofField_concerns {f : Field} (hf : f.IsPlaceless) (h : (ofField total f).result = .error e)
    (n : Nat) : e.Concerns n := by
  rw [ofField] at h
  generalize fitting total f.pieces = fitted at h
  obtain ⟨written, more⟩ := fitted
  cases more with
  | none =>
    cases h
    exact trivial
  | some m =>
    cases he : f.failure with
    | none =>
      simp only [he] at h
      cases h
    | some e' =>
      simp only [he] at h
      cases h
      exact (hf e he).concerns n

theorem ofSegment_concerns {segment : Segment}
    (h : (ofSegment options total args segment).1.result = .error e) :
    e.Concerns (args.position + segment.argumentCount options.writer) := by
  cases segment with
  | literal | percent => exact ofField_concerns (Field.isPlaceless_complete _) h _
  | directive d =>
    rw [ofSegment] at h
    cases he : d.expandResolved options args with
    | error e' =>
      simp only [he] at h
      cases h
      exact Directive.expandResolved_concerns he
    | ok p =>
      obtain ⟨expansion, left⟩ := p
      cases expansion with
      | field f =>
        simp only [he] at h
        exact ofField_concerns (Directive.isPlaceless_expandResolved he) h _
      | count index =>
        simp only [he] at h
        cases h

theorem storesOfSegment_concerns {segment : Segment} {c : CountStore}
    (h : c ∈ storesOfSegment options total args segment) :
    c.index < args.position + segment.argumentCount options.writer := by
  cases segment with
  | literal | percent => exact absurd h List.not_mem_nil
  | directive d =>
    rw [storesOfSegment] at h
    cases he : d.expandResolved options args with
    | error e' =>
      simp only [he] at h
      exact absurd h List.not_mem_nil
    | ok p =>
      obtain ⟨expansion, left⟩ := p
      cases expansion with
      | field f =>
        simp only [he] at h
        exact absurd h List.not_mem_nil
      | count index =>
        simp only [he] at h
        rw [List.mem_singleton.mp h]
        exact Directive.expandResolved_count he

/-- The failure and the counts of segments that can all be read name none but the arguments that
they take, and no offset. -/
theorem ofItems_concerns {items : List FormatItem} {segments : List Segment}
    (hitems : items.mapM (·.content) = .ok segments) :
    let bound := args.position + Format.argumentCount options.writer segments
    (∀ e, (ofItems options total args items).result = .error e → e.Concerns bound) ∧
      ∀ c ∈ stores options total args items, c.index < bound := by
  induction items generalizing total args segments with
  | nil => exact ⟨fun e he => (by cases he), fun c hc => absurd hc List.not_mem_nil⟩
  | cons item items ih =>
    obtain ⟨segment, later, hc, hlater, rfl⟩ := exists_of_mapM_content hitems
    simp only [Format.argumentCount_cons]
    cases hr : (ofSegment options total args segment).1.result with
    | error e' =>
      rw [ofItems_of_failed hc hr, stores_of_failed hc hr]
      refine ⟨fun e he => ?_, fun c hmem => ?_⟩
      · cases he
        exact (ofSegment_concerns hr).mono (by omega)
      · have hindex := storesOfSegment_concerns hmem
        omega
    | ok m =>
      obtain ⟨hfailure, hstores⟩ := @ih m (ofSegment options total args segment).2 later hlater
      rw [(ofSegment_skip hr).1, Arguments.skip] at hfailure hstores
      rw [ofItems_of_written hc hr, stores_of_written hc hr, (ofSegment_skip hr).1]
      refine ⟨fun e he => (hfailure e he).mono (by simp only; omega), fun c hmem => ?_⟩
      rcases List.mem_append.mp hmem with hfirst | hlast
      · have hindex := storesOfSegment_concerns hfirst
        omega
      · have hindex := hstores c hlast
        simp only at hindex
        omega

end Rendering

end FormattedText
