import FormattedText.Proofs.Format.Renumbered
import FormattedText.Proofs.Format.Spelling
import Mathlib.Data.List.Forall2

/-!
# Floating-point conversions as characters

A format is lowered by writing `%c` in the place of each floating-point directive, with the bytes
of its flags, its width and its precision, and without a length modifier (`Format.lowered`). What
is written is read segment by segment as the format itself (`Format.itemsFrom_loweredFrom`): the
letter `c` keeps the other parts of a directive apart, as every modifier and every letter does.
-/

namespace FormattedText

namespace Directive

/-- The letters of the floating-point conversions. -/
def floatingLetters : List UInt8 := ['f', 'F', 'e', 'E', 'g', 'G', 'a', 'A'].map asciiByte

/-- Is the conversion a floating-point one? -/
def isFloating (d : Directive) : Bool := floatingLetters.contains d.conversion

/-- The directive of a character with the same flags, width and precision. -/
def asCharacter (d : Directive) : Directive :=
  { d with length := .plain, conversion := asciiByte 'c' }

/-- A floating-point directive is made one of a character. -/
def lowered (d : Directive) : Directive := if d.isFloating then d.asCharacter else d

/-- The bytes of the flags, the width and the precision that `s` begins with. -/
def measures (s : List UInt8) : List UInt8 :=
  let behind := (takeWidth (takeFlags .none s).2).bind fun p => takePrecision p.2
  match behind with
  | .ok (_, rest) => s.take (s.length - rest.length)
  | .error _ => s

/-- The bytes for a directive that stands before `after` in `s`. -/
def loweredBytes (d : Directive) (s after : List UInt8) : List UInt8 :=
  if d.isFloating then measures s ++ [asciiByte 'c'] else s.take (s.length - after.length)

end Directive

/-- The segment with a character for a floating-point conversion. -/
def Segment.lowered : Segment → Segment
  | .directive d => .directive d.lowered
  | segment => segment

namespace Format

/-- The bytes of a format with characters for the floating-point conversions, up to the first
directive that cannot be read. -/
def loweredFrom (rest : List UInt8) : List UInt8 :=
  match rest with
  | [] => []
  | b :: more =>
      if b = percentByte then
        match _h : Directive.parse more with
        | .error _ => b :: more
        | .ok (d, after) => b :: (d.loweredBytes more after ++ loweredFrom after)
      else b :: more.takeWhile (· ≠ percentByte) ++
        loweredFrom (more.dropWhile (· ≠ percentByte))
  termination_by rest.length
  decreasing_by
    · exact Nat.lt_succ_of_lt (Directive.length_lt_of_parse _h)
    · exact Nat.lt_succ_of_le (List.dropWhile_sublist _).length_le

/-- The format with characters for its floating-point conversions. -/
def lowered (format : List UInt8) : List UInt8 := loweredFrom (text format)

/-- Where a directive that cannot be read stands in the lowered format: as far from the end. -/
def loweredOffset (format : List UInt8) (offset : Nat) : Nat :=
  (lowered format).length - ((text format).length - offset)

/-- `x%-5.2Lf%lc`: the modifier goes with the letter, and nothing else changes. -/
example : lowered [0x78, 0x25, 0x2D, 0x35, 0x2E, 0x32, 0x4C, 0x66, 0x25, 0x6C, 0x63] =
    [0x78, 0x25, 0x2D, 0x35, 0x2E, 0x32, 0x63, 0x25, 0x6C, 0x63] := by
  decide +kernel

end Format

namespace Directive

section Kinds

variable {d : Directive}

/-- The writer without floating-point conversions does not know their letters. -/
theorem kind_integerOnly_of_isFloating (h : d.isFloating = true) :
    d.kind .integerOnly = .unknown := by
  have hunknown : ∀ c ∈ floatingLetters, ∀ e : Directive, e.conversion = c →
      e.kind .integerOnly = .unknown := by
    intro c hc e he
    have hcases : c = asciiByte 'f' ∨ c = asciiByte 'F' ∨ c = asciiByte 'e' ∨ c = asciiByte 'E' ∨
        c = asciiByte 'g' ∨ c = asciiByte 'G' ∨ c = asciiByte 'a' ∨ c = asciiByte 'A' := by
      simpa [floatingLetters] using hc
    rw [kind, he]
    rcases hcases with rfl | rfl | rfl | rfl | rfl | rfl | rfl | rfl <;> rfl
  exact hunknown d.conversion (List.contains_iff_mem.mp h) d rfl

/-- The writers differ in no other conversion. -/
theorem kind_integerOnly_of_not_isFloating (h : d.isFloating = false) :
    d.kind .integerOnly = d.kind .full := by
  have hletters : (['f', 'F', 'e', 'E', 'g', 'G', 'a', 'A'].map asciiByte).contains d.conversion =
      false := h
  simp only [kind, hletters, Bool.false_eq_true, and_false]

theorem lowered_of_isFloating (h : d.isFloating = true) : d.lowered = d.asCharacter := if_pos h

theorem lowered_of_not_isFloating (h : d.isFloating = false) : d.lowered = d :=
  if_neg (ne_true_of_eq_false h)

theorem lowered_width (d : Directive) : d.lowered.width = d.width := by
  rw [lowered]
  split <;> rfl

theorem lowered_precision (d : Directive) : d.lowered.precision = d.precision := by
  rw [lowered]
  split <;> rfl

/-- A number for the width changes nothing in the conversion. -/
theorem lowered_withWidth (d : Directive) (w : Int) :
    d.lowered.withWidth w = (d.withWidth w).map lowered := by
  rw [withWidth, withWidth]
  split
  · rfl
  · change _ = Except.ok (if d.isFloating = true then _ else _)
    cases hfloating : d.isFloating with
    | true =>
      rw [lowered_of_isFloating hfloating, if_pos rfl]
      rfl
    | false =>
      rw [lowered_of_not_isFloating hfloating]
      rfl

/-- A number for the precision changes nothing in the conversion. -/
theorem lowered_withPrecision (d : Directive) (p : Int) :
    d.lowered.withPrecision p = (d.withPrecision p).lowered := by
  rw [withPrecision, withPrecision, lowered, lowered]
  change _ = if d.isFloating = true then _ else _
  split <;> rfl

end Kinds

end Directive

/-- What stands at an item of a lowered format: the lowered segment, or the same failure with other
numbers. -/
def FormatItem.IsLowered (index offset : Nat → Nat) (item item' : FormatItem) : Prop :=
  item'.content = renumberedResult index offset (item.content.map Segment.lowered)

namespace DirectiveSpelling

variable {sp : DirectiveSpelling}

/-- The bytes of a directive, its flags, width and precision first. -/
theorem bytes_eq_measures (sp : DirectiveSpelling) : sp.bytes =
    sp.flags.map Flag.byte ++ (sp.width.bytes ++ sp.precision.pointed) ++ sp.tail := by
  simp only [bytes, afterFlags, afterWidth, List.append_assoc]

/-- The flags, the width and the precision are found as they are spelled. -/
theorem IsApart.measures_bytes (h : sp.IsApart) (hmet : sp.IsMet) (g : List UInt8) :
    Directive.measures (sp.bytes ++ g) =
      sp.flags.map Flag.byte ++ (sp.width.bytes ++ sp.precision.pointed) := by
  have hwidth := h.takeWidth g
  have hprecision := h.takePrecision g
  rw [if_neg (Nat.not_lt.mpr hmet.width)] at hwidth
  rw [if_neg (Nat.not_lt.mpr hmet.precision)] at hprecision
  simp only [Directive.measures, h.takeFlags, hwidth, hprecision, Except.bind]
  rw [bytes_eq_measures, List.append_assoc, List.length_append, Nat.add_sub_cancel,
    List.take_left]

/-- The spelling of the character. -/
def asCharacter (sp : DirectiveSpelling) : DirectiveSpelling :=
  { sp with modifier := [], length := .plain, conversion := asciiByte 'c' }

/-- The letter of the character keeps the other parts apart. -/
theorem IsApart.asCharacter (h : sp.IsApart) : sp.asCharacter.IsApart := by
  have houtside : IsOutside (asciiByte 'c') :=
    ⟨by decide, by decide, by decide, by decide⟩
  refine isApart_of_outside (fun c hc => ?_) h.isWidth h.isPrecision rfl
  cases hc
  exact houtside

end DirectiveSpelling

namespace Directive

variable {s rest : List UInt8} {d : Directive}

/-- What is written for a directive is read as the lowered one, whatever follows. -/
theorem parse_loweredBytes (h : parse s = .ok (d, rest)) (g : List UInt8) :
    parse (d.loweredBytes s rest ++ g) = .ok (d.lowered, g) := by
  obtain ⟨sp, rfl, rfl, hapart, hmet⟩ := exists_spelling h
  cases hfloating : sp.directive.isFloating with
  | true =>
    have hmet' : sp.asCharacter.IsMet := ⟨hmet.width, hmet.precision⟩
    have hread := hapart.asCharacter.parse_bytes hmet' g
    rw [loweredBytes, lowered, if_pos hfloating, if_pos hfloating, hapart.measures_bytes hmet]
    rw [DirectiveSpelling.bytes_eq_measures] at hread
    exact hread
  | false =>
    have hsame : ¬ sp.directive.isFloating = true := ne_true_of_eq_false hfloating
    rw [loweredBytes, lowered, if_neg hsame, if_neg hsame, List.length_append, Nat.add_sub_cancel,
      List.take_left]
    exact hapart.parse_bytes hmet g

/-- Only the letter of the character is new. -/
theorem mem_loweredBytes {b : UInt8} (hb : b ∈ d.loweredBytes s rest) :
    b ∈ s ∨ b = asciiByte 'c' := by
  have hmeasures : b ∈ measures s → b ∈ s := by
    intro hb
    simp only [measures] at hb
    split at hb
    · exact List.mem_of_mem_take hb
    · exact hb
  rw [loweredBytes] at hb
  split at hb
  · exact (List.mem_append.mp hb).imp hmeasures List.mem_singleton.mp
  · exact Or.inl (List.mem_of_mem_take hb)

/-- The conversion of a character is no percent sign. -/
theorem ofDirective_lowered (d : Directive) :
    Segment.ofDirective d.lowered = (Segment.ofDirective d).lowered := by
  cases hfloating : d.isFloating with
  | true =>
    have hletter : d.conversion ≠ percentByte := by
      intro hpercent
      rw [isFloating, hpercent] at hfloating
      exact absurd hfloating (by decide)
    have hcharacter : d.asCharacter.conversion ≠ percentByte := by
      change asciiByte 'c' ≠ percentByte
      decide
    rw [Segment.ofDirective, Segment.ofDirective, if_neg hletter, lowered, if_pos hfloating,
      if_neg hcharacter, Segment.lowered, lowered, if_pos hfloating]
  | false =>
    have hsame : d.lowered = d := if_neg (ne_true_of_eq_false hfloating)
    rw [hsame, Segment.ofDirective]
    split
    · rfl
    · rw [Segment.lowered, hsame]

end Directive

namespace Format

section Text

variable {b : UInt8} {more rest : List UInt8} {d : Directive}

theorem loweredFrom_nil : loweredFrom [] = [] := by
  rw [loweredFrom]

theorem loweredFrom_directive (h : Directive.parse more = .ok (d, rest)) :
    loweredFrom (percentByte :: more) =
      percentByte :: (d.loweredBytes more rest ++ loweredFrom rest) := by
  rw [loweredFrom, if_pos rfl]
  split
  · rename_i e he
    rw [h] at he
    cases he
  · rename_i d' rest' hok
    rw [h] at hok
    cases hok
    rfl

theorem loweredFrom_unread {e : DirectiveError} (h : Directive.parse more = .error e) :
    loweredFrom (percentByte :: more) = percentByte :: more := by
  rw [loweredFrom, if_pos rfl]
  split
  · rfl
  · rename_i d' rest' hok
    rw [h] at hok
    cases hok

theorem loweredFrom_literal (h : b ≠ percentByte) :
    loweredFrom (b :: more) = b :: more.takeWhile (· ≠ percentByte) ++
      loweredFrom (more.dropWhile (· ≠ percentByte)) := by
  rw [loweredFrom, if_neg h]

/-- Behind literal bytes a lowered format goes on with a percent sign, if it goes on. -/
theorem head?_loweredFrom_dropWhile (more : List UInt8) :
    ∀ c ∈ (loweredFrom (more.dropWhile (· ≠ percentByte))).head?, c = percentByte := by
  intro c hc
  cases hdrop : more.dropWhile (· ≠ percentByte) with
  | nil =>
    rw [hdrop, loweredFrom_nil] at hc
    cases hc
  | cons p later =>
    have hp : p = percentByte := by
      have hhead := List.head?_dropWhile_not (· ≠ percentByte) more
      rw [hdrop] at hhead
      simpa using hhead
    subst hp
    rw [hdrop] at hc
    cases hparse : Directive.parse later with
    | error e =>
      rw [loweredFrom_unread hparse] at hc
      exact (Option.some.inj hc).symm
    | ok q =>
      obtain ⟨d, rest⟩ := q
      rw [loweredFrom_directive hparse] at hc
      exact (Option.some.inj hc).symm

/-- A run that is not gone on with is taken whole. -/
theorem takeWhile_run {α : Type} {p : α → Bool} {g : List α} (s : List α)
    (hg : ∀ c ∈ g.head?, p c = false) :
    (s.takeWhile p ++ g).takeWhile p = s.takeWhile p ∧ (s.takeWhile p ++ g).dropWhile p = g := by
  have hall : ∀ a ∈ s.takeWhile p, p a = true := List.all_eq_true.mp List.all_takeWhile
  have hstop : g.takeWhile p = [] ∧ g.dropWhile p = g := by
    cases g with
    | nil => exact ⟨rfl, rfl⟩
    | cons c g =>
      rw [List.takeWhile_cons, List.dropWhile_cons, hg c rfl]
      exact ⟨rfl, rfl⟩
  rw [List.takeWhile_append_of_pos hall, List.dropWhile_append_of_pos hall, hstop.1, hstop.2,
    List.append_nil]
  exact ⟨rfl, rfl⟩

/-- Only the letters of characters are new. -/
theorem mem_loweredFrom {c : UInt8} (h : c ∈ loweredFrom rest) :
    c ∈ rest ∨ c = asciiByte 'c' := by
  induction rest using loweredFrom.induct with
  | case1 =>
    rw [loweredFrom_nil] at h
    exact Or.inl h
  | case2 more e he =>
    rw [loweredFrom_unread he] at h
    exact Or.inl h
  | case3 more d after hd ih =>
    rw [loweredFrom_directive hd] at h
    obtain ⟨sp, hs, _⟩ := Directive.exists_spelling hd
    rcases List.mem_cons.mp h with hc | h
    · exact Or.inl (hc ▸ List.mem_cons_self)
    · rcases List.mem_append.mp h with hbytes | hlater
      · exact (Directive.mem_loweredBytes hbytes).imp_left (List.mem_cons_of_mem _)
      · refine (ih hlater).imp_left fun hc => List.mem_cons_of_mem _ ?_
        rw [hs]
        exact List.mem_append_right _ hc
  | case4 b more hb ih =>
    rw [loweredFrom_literal hb] at h
    rcases List.mem_append.mp h with h | h
    · exact Or.inl (List.cons_subset_cons b (List.takeWhile_prefix _).subset h)
    · refine (ih h).imp_left fun hc => List.mem_cons_of_mem _ ?_
      exact (List.dropWhile_sublist _).subset hc

/-- A lowered format has no zero byte. -/
theorem text_lowered (format : List UInt8) : text (lowered format) = lowered format := by
  refine text_eq fun hzero => ?_
  rcases mem_loweredFrom hzero with hmem | hletter
  · have hall := List.all_eq_true.mp (List.all_takeWhile (p := (· ≠ 0)) (l := format))
    exact absurd (hall 0 hmem) (by decide)
  · exact absurd hletter (by decide)

/-- A lowered format has the lowered segments; a directive that cannot be read stands as far
from the end. -/
theorem itemsFrom_loweredFrom (index : Nat → Nat) {offset offset' stop stop' : Nat}
    (rest : List UInt8) (hstop : offset + rest.length = stop)
    (hstop' : offset' + (loweredFrom rest).length = stop') :
    List.Forall₂ (FormatItem.IsLowered index fun o => stop' - (stop - o)) (itemsFrom offset rest)
      (itemsFrom offset' (loweredFrom rest)) := by
  induction rest using loweredFrom.induct generalizing offset offset' with
  | case1 =>
    rw [loweredFrom_nil, itemsFrom_nil, itemsFrom_nil]
    exact .nil
  | case2 more e he =>
    rw [loweredFrom_unread he] at hstop' ⊢
    have hoffset : stop' - (stop - offset) = offset' := by omega
    rw [itemsFrom_unread _ he, itemsFrom_unread _ he]
    refine .cons ?_ .nil
    cases e with
    | truncated =>
      exact congrArg (fun o => Except.error (Failure.malformedDirective o)) hoffset.symm
    | tooLarge => rfl
  | case3 more d after hd ih =>
    rw [loweredFrom_directive hd] at hstop' ⊢
    have hread := Directive.parse_loweredBytes hd (loweredFrom after)
    have hend := stop_directive offset hd
    have hend' := stop_directive offset' hread
    rw [itemsFrom_directive _ hd, itemsFrom_directive _ hread]
    refine .cons ?_ (ih (hend.trans hstop) (hend'.trans hstop'))
    exact congrArg Except.ok d.ofDirective_lowered
  | case4 b more hb ih =>
    rw [loweredFrom_literal hb] at hstop' ⊢
    obtain ⟨htake, hdrop⟩ := takeWhile_run (p := (· ≠ percentByte)) more fun c hc =>
      decide_eq_false (not_not.mpr (head?_loweredFrom_dropWhile more c hc))
    have hend := stop_literal offset b more
    have hread := @itemsFrom_literal b
      (more.takeWhile (· ≠ percentByte) ++ loweredFrom (more.dropWhile (· ≠ percentByte)))
      offset' hb
    simp only [htake, hdrop] at hread
    rw [itemsFrom_literal _ hb, List.cons_append, hread]
    refine .cons rfl (ih (hend.trans hstop) ?_)
    rw [List.length_append] at hstop'
    omega

/-- A lowered format has the lowered segments. -/
theorem items_lowered (index : Nat → Nat) (format : List UInt8) :
    List.Forall₂ (FormatItem.IsLowered index (loweredOffset format)) (items format)
      (items (lowered format)) := by
  rw [items, items, text_lowered]
  exact itemsFrom_loweredFrom index (text format) (Nat.zero_add _) (Nat.zero_add _)

end Text

end Format

end FormattedText
