import FormattedText.Rendering
import FormattedText.Proofs.Format.Segments
import FormattedText.Proofs.Multibyte.Counting

/-!
# The arguments of a directive

A directive takes one argument for each width or precision that it leaves to the arguments
and one for its conversion (`Directive.argumentCount`), always from the front
(`Directive.expandResolved_skip`). So further on in a format it does what it does first,
only that the arguments have other numbers (`Directive.expandResolved_shifted`).
-/

namespace FormattedText

/-- Does a failure say nothing of arguments and offsets? -/
def Failure.IsPlaceless (e : Failure) : Prop := ∀ args bytes, e.shifted args bytes = e

/-- The number of arguments that a directive takes. -/
def Directive.argumentCount (writer : Writer) (d : Directive) : Nat :=
  (if d.width = .fromArgument then 1 else 0) + (if d.precision = .fromArgument then 1 else 0) +
    if d.kind writer = .unknown then 0 else 1

/-- The number of arguments that a segment takes. -/
def Segment.argumentCount (writer : Writer) : Segment → Nat
  | .literal _ | .percent => 0
  | .directive d => d.argumentCount writer

/-- The number of arguments that segments take together. -/
def Format.argumentCount (writer : Writer) (segments : List Segment) : Nat :=
  segments.foldr (fun segment n => segment.argumentCount writer + n) 0

theorem Format.argumentCount_cons (writer : Writer) (segment : Segment) (later : List Segment) :
    argumentCount writer (segment :: later) =
      segment.argumentCount writer + argumentCount writer later := rfl

namespace Arguments

/-- The arguments that are left after the next `n`. -/
def skip (n : Nat) (args : Arguments) : Arguments := ⟨args.rest.drop n, args.position + n⟩

/-- The same arguments behind `n` others. -/
def shifted (n : Nat) (args : Arguments) : Arguments := ⟨args.rest, n + args.position⟩

theorem skip_skip (m n : Nat) (args : Arguments) : (args.skip m).skip n = args.skip (m + n) := by
  simp only [skip, List.drop_drop, Nat.add_assoc]

/-- Arguments that are left are those of a call of their own, behind the others. -/
theorem shifted_start_drop (n : Nat) (args : List Argument) :
    (start (args.drop n)).shifted n = (start args).skip n := by
  simp only [start, shifted, skip, Nat.add_zero, Nat.zero_add]

section Expect

variable {α : Type} {pick : Argument → Option α} {args args' : Arguments} {v : α}

/-- An argument that suits is the next one. -/
theorem expect_skip (h : args.expect pick = .ok (v, args')) :
    args' = args.skip 1 ∧ 1 ≤ args.rest.length := by
  obtain ⟨rest, position⟩ := args
  cases rest with
  | nil => cases h
  | cons a rest =>
    simp only [expect, take] at h
    cases hp : pick a with
    | none =>
      simp only [hp] at h
      cases h
    | some w =>
      simp only [hp] at h
      cases h
      exact ⟨rfl, Nat.le_add_left 1 rest.length⟩

theorem expect_shifted (n bytes : Nat) (args : Arguments) (pick : Argument → Option α) :
    (args.shifted n).expect pick =
      shiftedResult n bytes (fun p => (p.1, p.2.shifted n)) (args.expect pick) := by
  obtain ⟨rest, position⟩ := args
  cases rest with
  | nil => rfl
  | cons a rest =>
    simp only [expect, take, shifted]
    cases pick a <;> rfl

end Expect

end Arguments

/-- An expansion further on in a format. -/
def Expansion.shifted (n : Nat) : Expansion → Expansion
  | .field f => .field f
  | .count index => .count (n + index)

namespace Field

/-- A field says nothing of arguments and offsets if it fails. -/
def IsPlaceless (f : Field) : Prop := ∀ e, f.failure = some e → e.IsPlaceless

theorem isPlaceless_complete (pieces : List Piece) : (complete pieces).IsPlaceless := by
  intro e he
  cases he

theorem isPlaceless_of_encodeOne {enc : Encoding} {capacity : Option Nat} {wc : UInt32}
    {s : ConversionState} {e : Failure} (h : (enc.encodeOne capacity wc s).result = .error e) :
    e.IsPlaceless := by
  cases he : enc.encode s wc with
  | none =>
    simp only [Encoding.encodeOne, he] at h
    cases h
    exact fun _ _ => rfl
  | some encoded =>
    cases capacity with
    | none =>
      simp only [Encoding.encodeOne, he] at h
      cases h
    | some capacity =>
      simp only [Encoding.encodeOne, he] at h
      split at h
      · cases h
        exact fun _ _ => rfl
      · cases h

theorem isPlaceless_of_measureFrom {enc : Encoding} {limit : Option Nat} {total : Nat}
    {s : ConversionState} {wide : List UInt32} {e : Failure}
    (h : measureFrom enc limit total s wide = .error e) : e.IsPlaceless := by
  fun_induction measureFrom enc limit total s wide with
  | case1 => cases h
  | case2 => cases h
  | case3 total s wc rest hgo e' bytes t he =>
    cases h
    exact isPlaceless_of_encodeOne (congrArg CharacterWrite.result he)
  | case4 => cases h
  | case5 total s wc rest hgo n bytes t he hroom ih => exact ih h

theorem isPlaceless_of_encodeString {enc : Encoding} {capacity : Option Nat}
    {s : ConversionState} {wide : List UInt32} {e : Failure}
    (h : (enc.encodeString capacity (some wide) s).result = .error e) : e.IsPlaceless := by
  rw [Encoding.encodeString_result, Progress.count] at h
  cases hend : (enc.encodeAll capacity s wide).ending with
  | invalid =>
    rw [hend] at h
    cases h
    exact fun _ _ => rfl
  | terminated | full | drained =>
    rw [hend] at h
    cases h

theorem isPlaceless_of_encodeBlocks {enc : Encoding} {limit : Option Nat}
    {s : ConversionState} {buffer : List UInt8} {wide : List UInt32} {e : Failure}
    (h : (encodeBlocks enc limit s buffer wide).failure = some e) : e.IsPlaceless := by
  fun_induction encodeBlocks enc limit s buffer wide with
  | case1 => cases h
  | case2 limit s buffer wide hne block refusal he e' hcount =>
    cases h
    exact isPlaceless_of_encodeString hcount
  | case3 limit s buffer wide hne block stored refusal he n hcount =>
    cases h
    exact isPlaceless_of_encodeString he
  | case4 => cases h
  | case5 => cases h
  | case6 limit s buffer wide hne block stored n hn bytes rest hrest hlt more ih => exact ih h
  | case7 => cases h

theorem isPlaceless_wideText (enc : Encoding) (d : Directive) (wide : List UInt32) :
    (wideText enc d wide).IsPlaceless := by
  intro e he
  rw [wideText] at he
  split at he
  · cases hm : measureWide enc d.precision? wide with
    | error e' =>
      simp only [hm] at he
      cases he
      cases hfrom : measureFrom enc d.precision? 0 .initial wide with
      | error e' =>
        rw [measureWide, hfrom] at hm
        cases hm
        exact isPlaceless_of_measureFrom hfrom
      | ok p =>
        rw [measureWide, hfrom] at hm
        cases hm
    | ok n =>
      simp only [hm] at he
      exact isPlaceless_of_encodeBlocks he
  · split at he
    · exact isPlaceless_of_encodeBlocks he
    · exact isPlaceless_of_encodeBlocks he

theorem isPlaceless_wideChar (enc : Encoding) (d : Directive) (wc : UInt32) :
    (wideChar enc d wc).IsPlaceless := by
  rw [wideChar]
  split
  · exact isPlaceless_complete _
  · rename_i e' _ _ he
    intro e h
    cases h
    exact isPlaceless_of_encodeOne (congrArg CharacterWrite.result he)

theorem isPlaceless_floating (d : Directive) (v : Binary64) : (floating d v).IsPlaceless := by
  rw [floating]
  split <;> exact isPlaceless_complete _

end Field

theorem exists_of_bind_eq_ok {ε α β : Type} {x : Except ε α} {f : α → Except ε β} {r : β}
    (h : x >>= f = .ok r) : ∃ a, x = .ok a ∧ f a = .ok r := by
  cases x with
  | error e => cases h
  | ok a => exact ⟨a, rfl, h⟩

/-- One step after another further on is both of them further on. -/
theorem shiftedResult_bind {α α' β β' : Type} {n bytes : Nat} {g : α → α'} {k : β → β'}
    {f : α → Except Failure β} {f' : α' → Except Failure β'} (x : Except Failure α)
    (hf : ∀ a, f' (g a) = shiftedResult n bytes k (f a)) :
    (shiftedResult n bytes g x >>= f') = shiftedResult n bytes k (x >>= f) := by
  cases x with
  | error e => rfl
  | ok a => exact hf a

namespace Directive

variable {options : FormatOptions} {d d' : Directive} {args args' : Arguments}

theorem withWidth_ok {w : Int} (h : d.withWidth w = .ok d') :
    d'.precision = d.precision ∧ d'.length = d.length ∧ d'.conversion = d.conversion := by
  rw [withWidth] at h
  split at h
  · cases h
  · cases h
    exact ⟨rfl, rfl, rfl⟩

/-- Only a width that is left to the arguments takes one. -/
theorem resolveWidth_skip (h : d.resolveWidth args = .ok (d', args')) :
    (d'.precision = d.precision ∧ d'.length = d.length ∧ d'.conversion = d.conversion) ∧
      args' = args.skip (if d.width = .fromArgument then 1 else 0) ∧
      (if d.width = .fromArgument then 1 else 0) ≤ args.rest.length := by
  rw [resolveWidth] at h
  by_cases hstar : d.width = .fromArgument
  · rw [if_pos hstar] at h ⊢
    obtain ⟨⟨w, args₁⟩, he, h⟩ := exists_of_bind_eq_ok h
    obtain ⟨d₁, hw, h⟩ := exists_of_bind_eq_ok h
    cases h
    exact ⟨withWidth_ok hw, Arguments.expect_skip he⟩
  · rw [if_neg hstar] at h ⊢
    cases h
    exact ⟨⟨rfl, rfl, rfl⟩, rfl, Nat.zero_le _⟩

/-- Only a precision that is left to the arguments takes one. -/
theorem resolvePrecision_skip (h : d.resolvePrecision args = .ok (d', args')) :
    (d'.length = d.length ∧ d'.conversion = d.conversion) ∧
      args' = args.skip (if d.precision = .fromArgument then 1 else 0) ∧
      (if d.precision = .fromArgument then 1 else 0) ≤ args.rest.length := by
  rw [resolvePrecision] at h
  by_cases hstar : d.precision = .fromArgument
  · rw [if_pos hstar] at h ⊢
    obtain ⟨⟨p, args₁⟩, he, h⟩ := exists_of_bind_eq_ok h
    cases h
    exact ⟨⟨rfl, rfl⟩, Arguments.expect_skip he⟩
  · rw [if_neg hstar] at h ⊢
    cases h
    exact ⟨⟨rfl, rfl⟩, rfl, Nat.zero_le _⟩

/-- Every conversion that there is takes one argument. -/
theorem expand_skip {expansion : Expansion} (h : d.expand options args = .ok (expansion, args')) :
    args' = args.skip (if d.kind options.writer = .unknown then 0 else 1) ∧
      (if d.kind options.writer = .unknown then 0 else 1) ≤ args.rest.length := by
  have one {α : Type} {pick : Argument → Option α} {g : α × Arguments → Expansion × Arguments}
      (h : (args.expect pick).map g = .ok (expansion, args')) (hg : ∀ p, (g p).2 = p.2) :
      args' = args.skip 1 ∧ 1 ≤ args.rest.length := by
    cases he : args.expect pick with
    | error e =>
      rw [he] at h
      cases h
    | ok p =>
      rw [he] at h
      have hrest : p.2 = args' := (hg p).symm.trans (congrArg Prod.snd (Except.ok.inj h))
      rw [← hrest]
      exact Arguments.expect_skip he
  rw [expand] at h
  cases hk : d.kind options.writer with
  | unknown =>
    simp only [hk] at h
    cases h
    exact ⟨rfl, Nat.zero_le _⟩
  | _ =>
    simp only [hk] at h
    exact one h fun _ => rfl

/-- The field of a directive fails for what it writes, not for where it stands. -/
theorem isPlaceless_expand {f : Field} (h : d.expand options args = .ok (.field f, args')) :
    f.IsPlaceless := by
  have one {α : Type} {pick : Argument → Option α} {g : α × Arguments → Expansion × Arguments}
      (h : (args.expect pick).map g = .ok (.field f, args'))
      (hg : ∀ p f, (g p).1 = .field f → f.IsPlaceless) : f.IsPlaceless := by
    cases he : args.expect pick with
    | error e =>
      rw [he] at h
      cases h
    | ok p =>
      rw [he] at h
      exact hg p f (congrArg Prod.fst (Except.ok.inj h))
  rw [expand] at h
  cases hk : d.kind options.writer with
  | signed | unsigned | char | text | pointer =>
    simp only [hk] at h
    refine one h fun p f hf => ?_
    cases hf
    exact Field.isPlaceless_complete _
  | wideChar =>
    simp only [hk] at h
    refine one h fun p f hf => ?_
    cases hf
    exact Field.isPlaceless_wideChar _ _ _
  | wideText =>
    simp only [hk] at h
    refine one h fun p f hf => ?_
    obtain ⟨wide, args₁⟩ := p
    cases wide with
    | none =>
      cases hf
      exact Field.isPlaceless_complete _
    | some wide =>
      cases hf
      exact Field.isPlaceless_wideText _ _ _
  | floating =>
    simp only [hk] at h
    refine one h fun p f hf => ?_
    cases hf
    exact Field.isPlaceless_floating _ _
  | count =>
    simp only [hk] at h
    refine one h fun p f hf => ?_
    cases hf
  | unknown =>
    simp only [hk] at h
    cases h
    exact Field.isPlaceless_complete _

theorem kind_congr (writer : Writer) (h : d'.length = d.length ∧ d'.conversion = d.conversion) :
    d'.kind writer = d.kind writer := by
  simp only [kind, h.1, h.2]

/-- Only a width and a precision that are left to the arguments have to be resolved. -/
theorem expandResolved_given (hwidth : d.width ≠ .fromArgument)
    (hprecision : d.precision ≠ .fromArgument) (options : FormatOptions) (args : Arguments) :
    d.expandResolved options args = d.expand options args := by
  have hw : d.resolveWidth args = .ok (d, args) := if_neg hwidth
  have hp : d.resolvePrecision args = .ok (d, args) := if_neg hprecision
  rw [expandResolved, hw]
  simp only [bind, Except.bind, hp]

/-- A directive takes its arguments from the front. -/
theorem expandResolved_skip {expansion : Expansion}
    (h : d.expandResolved options args = .ok (expansion, args')) :
    args' = args.skip (d.argumentCount options.writer) ∧
      d.argumentCount options.writer ≤ args.rest.length := by
  obtain ⟨⟨d₁, args₁⟩, hw, h⟩ := exists_of_bind_eq_ok h
  obtain ⟨⟨d₂, args₂⟩, hp, h⟩ := exists_of_bind_eq_ok h
  obtain ⟨⟨hprecision, hsame₁⟩, rfl, hlen₁⟩ := resolveWidth_skip hw
  obtain ⟨hsame₂, rfl, hlen₂⟩ := resolvePrecision_skip hp
  obtain ⟨rfl, hlen₃⟩ := expand_skip h
  have hkind : d₂.kind options.writer = d.kind options.writer :=
    kind_congr _ ⟨hsame₂.1.trans hsame₁.1, hsame₂.2.trans hsame₁.2⟩
  rw [hkind] at hlen₃ ⊢
  rw [hprecision] at hlen₂ hlen₃ ⊢
  rw [Arguments.skip_skip, Arguments.skip_skip, ← Nat.add_assoc, argumentCount]
  refine ⟨rfl, ?_⟩
  simp only [Arguments.skip, List.length_drop] at hlen₂ hlen₃
  omega

theorem isPlaceless_expandResolved {f : Field}
    (h : d.expandResolved options args = .ok (.field f, args')) : f.IsPlaceless := by
  obtain ⟨⟨d₁, args₁⟩, _, h⟩ := exists_of_bind_eq_ok h
  obtain ⟨⟨d₂, args₂⟩, _, h⟩ := exists_of_bind_eq_ok h
  exact isPlaceless_expand h

theorem resolveWidth_shifted (n bytes : Nat) (d : Directive) (args : Arguments) :
    d.resolveWidth (args.shifted n) =
      shiftedResult n bytes (fun p => (p.1, p.2.shifted n)) (d.resolveWidth args) := by
  rw [resolveWidth, resolveWidth]
  split
  · rw [Arguments.expect_shifted n bytes]
    refine shiftedResult_bind _ ?_
    rintro ⟨w, args₁⟩
    simp only [withWidth]
    split <;> rfl
  · rfl

theorem resolvePrecision_shifted (n bytes : Nat) (d : Directive) (args : Arguments) :
    d.resolvePrecision (args.shifted n) =
      shiftedResult n bytes (fun p => (p.1, p.2.shifted n)) (d.resolvePrecision args) := by
  rw [resolvePrecision, resolvePrecision]
  split
  · rw [Arguments.expect_shifted n bytes]
    exact shiftedResult_bind _ fun p => rfl
  · rfl

theorem expand_shifted (n bytes : Nat) (options : FormatOptions) (d : Directive)
    (args : Arguments) :
    d.expand options (args.shifted n) =
      shiftedResult n bytes (fun p => (p.1.shifted n, p.2.shifted n)) (d.expand options args) := by
  rw [expand, expand]
  cases d.kind options.writer with
  | unknown => rfl
  | _ =>
    simp only
    rw [Arguments.expect_shifted n bytes]
    cases args.expect _ <;> rfl

/-- Further on in a format a directive does the same with the same arguments. -/
theorem expandResolved_shifted (n bytes : Nat) (options : FormatOptions) (d : Directive)
    (args : Arguments) :
    d.expandResolved options (args.shifted n) =
      shiftedResult n bytes (fun p => (p.1.shifted n, p.2.shifted n))
        (d.expandResolved options args) := by
  rw [expandResolved, expandResolved, resolveWidth_shifted n bytes]
  refine shiftedResult_bind _ ?_
  rintro ⟨d₁, args₁⟩
  simp only
  rw [resolvePrecision_shifted n bytes]
  exact shiftedResult_bind _ fun p => expand_shifted n bytes options p.1 p.2

end Directive

end FormattedText
