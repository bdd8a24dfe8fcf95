import FormattedText.Field.Layout
import FormattedText.Proofs.Format.Segments
import FormattedText.Proofs.Number.Digits

/-!
# Directives as they are spelled

A directive is spelled part by part: flags, a width, a precision behind a point, a length
modifier, the conversion. Each part is read as long as possible, so a spelling is read back
exactly if no part could have gone on in what follows it (`DirectiveSpelling.parse_bytes`), and
every directive that is read has a spelling of this kind (`Directive.exists_spelling`).
-/

namespace FormattedText

namespace Digits

/-- The byte of a decimal digit is a digit and stands for it; only that of zero is a flag. -/
theorem byte_digit : ∀ d < 10, isDigitByte (byte d) = true ∧
    (byte d).toNat - (asciiByte '0').toNat = d ∧ (d ≠ 0 → byte d ≠ Field.zero) := by
  decide

theorem isDigitByte_text {n : Nat} : ∀ b ∈ text 10 n, isDigitByte b = true := by
  intro b hb
  obtain ⟨d, hd, rfl⟩ := List.mem_map.mp hb
  exact (byte_digit d (lt_of_mem_inBase (by decide) hd)).1

/-- The digits of a number write it. -/
theorem decimalValue_text (n : Nat) : decimalValue (text 10 n) = n := by
  have hvalue : ∀ (digits : List Nat) (v : Nat), (∀ d ∈ digits, d < 10) →
      (digits.map byte).foldl (fun v b => v * 10 + (b.toNat - (asciiByte '0').toNat)) v =
        digits.foldl (fun v d => v * 10 + d) v := by
    intro digits
    induction digits with
    | nil => exact fun _ _ => rfl
    | cons d digits ih =>
      intro v hlt
      have hd := (byte_digit d (hlt d List.mem_cons_self)).2.1
      rw [List.map_cons, List.foldl_cons, List.foldl_cons, hd]
      exact ih _ fun d hmem => hlt d (List.mem_cons_of_mem _ hmem)
  have hlt : ∀ d ∈ inBase 10 n, d < 10 := fun d hd => lt_of_mem_inBase (by decide) hd
  exact (hvalue (inBase 10 n) 0 hlt).trans (value_inBase (by decide) n)

theorem text_ne_nil (n : Nat) : text 10 n ≠ [] := by
  intro hnil
  exact inBase_ne_nil (by decide) n (List.map_eq_nil_iff.mp hnil)

theorem exists_text_cons (n : Nat) :
    ∃ b more, text 10 n = b :: more ∧ isDigitByte b = true ∧ (0 < n → b ≠ Field.zero) := by
  obtain ⟨d, more, hcons, hd⟩ := @exists_inBase_cons 10 (by decide) n
  have htext : text 10 n = byte d :: more.map byte := congrArg (List.map byte) hcons
  have hdigit : isDigitByte (byte d) = true :=
    isDigitByte_text (byte d) (by rw [htext]; exact List.mem_cons_self)
  have hlt : d < 10 := by
    have hmem : d ∈ inBase 10 n := by
      rw [hcons]
      exact List.mem_cons_self
    exact lt_of_mem_inBase (by decide) hmem
  exact ⟨byte d, more.map byte, htext, hdigit, fun hn => (byte_digit d hlt).2.2 (hd hn)⟩

end Digits

theorem Flag.ofByte?_byte (flag : Flag) : Flag.ofByte? flag.byte = some flag := by
  cases flag <;> rfl

theorem Flag.byte_injective {f g : Flag} (h : f.byte = g.byte) : f = g := by
  have hfound := Flag.ofByte?_byte f
  rw [h, Flag.ofByte?_byte] at hfound
  exact (Option.some.inj hfound).symm

/-- Only the digit zero is a flag. -/
theorem Flag.ofByte?_digit {b : UInt8} (hb : isDigitByte b = true) (hzero : b ≠ Field.zero) :
    Flag.ofByte? b = none := by
  rw [Flag.ofByte?, List.find?_eq_none]
  intro flag _ hbyte
  have hflag : flag.byte = b := eq_of_beq hbyte
  subst hflag
  cases flag with
  | zeroPad => exact hzero rfl
  | _ => exact absurd hb (by decide)

namespace Flags

/-- Flags are the same if the same ones are set. -/
theorem eq_of_has {a b : Flags} (h : ∀ flag, a.has flag = b.has flag) : a = b := by
  obtain ⟨_, _, _, _, _, _⟩ := a
  obtain ⟨_, _, _, _, _, _⟩ := b
  rw [mk.injEq]
  exact ⟨h .leftJustify, h .forceSign, h .spaceSign, h .alternate, h .zeroPad, h .grouping⟩

theorem has_none (flag : Flag) : none.has flag = false := by
  cases flag <;> rfl

theorem has_set (flags : Flags) (f g : Flag) : (flags.set f).has g = (flags.has g || f == g) := by
  by_cases h : f = g
  · subst h
    rw [beq_self_eq_true, Bool.or_true]
    cases f <;> rfl
  · rw [beq_false_of_ne h, Bool.or_false]
    cases f <;> cases g <;> first | rfl | exact absurd rfl h

/-- The flags that are set at last are the first ones and those that were set. -/
theorem has_foldl (flags : Flags) (fs : List Flag) (flag : Flag) :
    (fs.foldl set flags).has flag = (flags.has flag || fs.contains flag) := by
  induction fs generalizing flags with
  | nil => exact (Bool.or_false _).symm
  | cons f fs ih =>
    rw [List.foldl_cons, ih, has_set, List.contains_cons, Bool.or_assoc, Bool.beq_comm]

end Flags

/-- A width or a precision as it is spelled. -/
inductive MeasureSpelling where
  /-- Nothing is spelled. -/
  | absent
  /-- Digits; a precision may have none. -/
  | digits (bytes : List UInt8)
  /-- A star. -/
  | star
  deriving DecidableEq, Repr

namespace MeasureSpelling

/-- The bytes. -/
def bytes : MeasureSpelling → List UInt8
  | absent => []
  | digits ds => ds
  | star => [starByte]

/-- The bytes of a precision, with its point. -/
def pointed : MeasureSpelling → List UInt8
  | absent => []
  | digits ds => pointByte :: ds
  | star => [pointByte, starByte]

/-- What is spelled. -/
def measure : MeasureSpelling → Measure
  | absent => .absent
  | digits ds => .fixed (decimalValue ds)
  | star => .fromArgument

/-- The number that is spelled, or zero. -/
def number (m : MeasureSpelling) : Nat := m.measure.value?.getD 0

end MeasureSpelling

/-- The bytes of a directive behind its percent sign, part by part. -/
structure DirectiveSpelling where
  /-- The flags. -/
  flags : List Flag
  /-- The width. -/
  width : MeasureSpelling
  /-- The precision, without its point. -/
  precision : MeasureSpelling
  /-- The bytes of the length modifier. -/
  modifier : List UInt8
  /-- The length that they spell. -/
  length : Length
  /-- The conversion. -/
  conversion : UInt8
  deriving DecidableEq, Repr

/-- Digits that are read as one number before what follows: neither a digit follows nor, if there
are none, a star. -/
structure IsNumberBefore (next digits : List UInt8) : Prop where
  /-- The digits are digits. -/
  all_digits : ∀ b ∈ digits, isDigitByte b = true
  /-- No digit follows. -/
  ends : ∀ c ∈ next.head?, isDigitByte c = false
  /-- No star stands in their place. -/
  no_star : digits = [] → ∀ c ∈ next.head?, c ≠ starByte

namespace MeasureSpelling

/-- A width that does not go on in what follows it. -/
def IsWidthBefore (next : List UInt8) : MeasureSpelling → Prop
  | absent => IsNumberBefore next []
  | digits ds => ds ≠ [] ∧ IsNumberBefore next ds
  | star => True

/-- A precision that does not go on in what follows it. -/
def IsPrecisionBefore (next : List UInt8) : MeasureSpelling → Prop
  | absent => ∀ c ∈ next.head?, c ≠ pointByte
  | digits ds => IsNumberBefore next ds
  | star => True

/-- The digits of a width do not begin with a zero, which would be a flag. -/
def IsWidth : MeasureSpelling → Prop
  | digits ds => (∀ b ∈ ds, isDigitByte b = true) ∧ ∃ b ∈ ds.head?, b ≠ Field.zero
  | absent | star => True

/-- The digits of a precision are any. -/
def IsPrecision : MeasureSpelling → Prop
  | digits ds => ∀ b ∈ ds, isDigitByte b = true
  | absent | star => True

end MeasureSpelling

/-- A byte that belongs to no flag, number or precision. -/
structure IsOutside (c : UInt8) : Prop where
  /-- It sets no flag. -/
  flag : Flag.ofByte? c = none
  /-- It is no digit. -/
  digit : isDigitByte c = false
  /-- It is no star. -/
  star : c ≠ starByte
  /-- It is no point. -/
  point : c ≠ pointByte

namespace DirectiveSpelling

/-- The modifier and the conversion. -/
def tail (sp : DirectiveSpelling) : List UInt8 := sp.modifier ++ [sp.conversion]

/-- What is spelled behind the width. -/
def afterWidth (sp : DirectiveSpelling) : List UInt8 := sp.precision.pointed ++ sp.tail

/-- What is spelled behind the flags. -/
def afterFlags (sp : DirectiveSpelling) : List UInt8 := sp.width.bytes ++ sp.afterWidth

/-- All bytes. -/
def bytes (sp : DirectiveSpelling) : List UInt8 := sp.flags.map Flag.byte ++ sp.afterFlags

/-- The directive that is spelled. -/
def directive (sp : DirectiveSpelling) : Directive :=
  ⟨sp.flags.foldl Flags.set .none, sp.width.measure, sp.precision.measure, sp.length,
    sp.conversion⟩

/-- No part goes on in what follows it. -/
structure IsApart (sp : DirectiveSpelling) : Prop where
  /-- No flag follows the flags. -/
  flags : ∀ c ∈ sp.afterFlags.head?, Flag.ofByte? c = none
  /-- The width ends where it ends. -/
  width : sp.width.IsWidthBefore sp.afterWidth
  /-- The precision ends where it ends. -/
  precision : sp.precision.IsPrecisionBefore sp.tail
  /-- The modifier is read as the length, and leaves the conversion. -/
  modifier : Directive.takeLength sp.tail = (sp.length, [sp.conversion])

/-- The width and the precision can be met. -/
structure IsMet (sp : DirectiveSpelling) : Prop where
  /-- The width can be met. -/
  width : sp.width.number ≤ Directive.maxMeasure
  /-- The precision can be met. -/
  precision : sp.precision.number ≤ Directive.maxMeasure

end DirectiveSpelling

theorem IsNumberBefore.head?_ne_star {digits next : List UInt8} (h : IsNumberBefore next digits) :
    (digits ++ next).head? ≠ some starByte := by
  intro hstar
  cases digits with
  | nil => exact h.no_star rfl starByte hstar rfl
  | cons d digits =>
    obtain rfl : d = starByte := Option.some.inj hstar
    exact absurd (h.all_digits starByte List.mem_cons_self) (by decide)

namespace Directive

section Reading

variable {digits next : List UInt8}

theorem takeFlags_byte (flags : Flags) (fs : List Flag) (s : List UInt8) :
    takeFlags flags (fs.map Flag.byte ++ s) = takeFlags (fs.foldl Flags.set flags) s := by
  induction fs generalizing flags with
  | nil => rfl
  | cons flag fs ih =>
    rw [List.map_cons, List.cons_append, takeFlags, Flag.ofByte?_byte]
    exact ih (flags.set flag)

/-- Flags end before a byte that is none. -/
theorem takeFlags_of_none (flags : Flags) {s : List UInt8}
    (h : ∀ c ∈ s.head?, Flag.ofByte? c = none) : takeFlags flags s = (flags, s) := by
  cases s with
  | nil => rfl
  | cons c s => rw [takeFlags, h c rfl]

theorem takeMeasure_star (s : List UInt8) :
    takeMeasure (starByte :: s) = .ok (.fromArgument, s) := by
  rw [takeMeasure, if_pos rfl]

/-- What does not begin with a star is read as a number. -/
theorem takeMeasure_of_not_star {s : List UInt8} (h : s.head? ≠ some starByte) :
    takeMeasure s = (takeNumber s).map fun p => (.fixed p.1, p.2) := by
  cases s with
  | nil => rw [takeMeasure]
  | cons b s => rw [takeMeasure, if_neg fun hb => h (congrArg some hb)]

/-- Digits are read to the last, if their number can be met. -/
theorem takeNumber_number (h : IsNumberBefore next digits) :
    takeNumber (digits ++ next) =
      if maxMeasure < decimalValue digits then .error .tooLarge
      else .ok (decimalValue digits, next) := by
  have hstop : next.takeWhile isDigitByte = [] ∧ next.dropWhile isDigitByte = next := by
    cases next with
    | nil => exact ⟨rfl, rfl⟩
    | cons c next =>
      have hc := h.ends c rfl
      rw [List.takeWhile_cons, List.dropWhile_cons, hc]
      exact ⟨rfl, rfl⟩
  rw [takeNumber, List.takeWhile_append_of_pos h.all_digits,
    List.dropWhile_append_of_pos h.all_digits, hstop.1, hstop.2, List.append_nil]

/-- A number is read to its last digit, if it can be met. -/
theorem takeMeasure_number (h : IsNumberBefore next digits) :
    takeMeasure (digits ++ next) =
      if maxMeasure < decimalValue digits then .error .tooLarge
      else .ok (.fixed (decimalValue digits), next) := by
  rw [takeMeasure_of_not_star h.head?_ne_star, takeNumber_number h]
  split <;> rfl

/-- A width is read as it is spelled, if it can be met. -/
theorem takeWidth_spelling {m : MeasureSpelling} (h : m.IsWidthBefore next) :
    takeWidth (m.bytes ++ next) =
      if maxMeasure < m.number then .error .tooLarge else .ok (m.measure, next) := by
  cases m with
  | absent =>
    have hnone : takeWidth next = .ok (.absent, next) := by
      cases next with
      | nil => rfl
      | cons c next =>
        have hc : ¬ (c = starByte ∨ isDigitByte c = true) := by
          rintro (hstar | hdigit)
          · exact h.no_star rfl c rfl hstar
          · rw [h.ends c rfl] at hdigit
            cases hdigit
        rw [takeWidth, if_neg hc]
    exact hnone
  | digits ds =>
    obtain ⟨hne, hnumber⟩ := h
    have hmeasure := takeMeasure_number hnumber
    obtain ⟨b, more, rfl⟩ := List.exists_cons_of_ne_nil hne
    rw [List.cons_append] at hmeasure
    rw [MeasureSpelling.bytes, List.cons_append, takeWidth,
      if_pos (Or.inr (hnumber.all_digits b List.mem_cons_self))]
    exact hmeasure
  | star =>
    rw [MeasureSpelling.bytes, List.singleton_append, takeWidth, if_pos (Or.inl rfl),
      takeMeasure_star]
    rfl

/-- A precision is read as it is spelled, if it can be met. -/
theorem takePrecision_spelling {m : MeasureSpelling} (h : m.IsPrecisionBefore next) :
    takePrecision (m.pointed ++ next) =
      if maxMeasure < m.number then .error .tooLarge else .ok (m.measure, next) := by
  cases m with
  | absent =>
    have hnone : takePrecision next = .ok (.absent, next) := by
      cases next with
      | nil => rfl
      | cons c next => rw [takePrecision, if_neg (h c rfl)]
    exact hnone
  | digits ds =>
    rw [MeasureSpelling.pointed, List.cons_append, takePrecision, if_pos rfl]
    exact takeMeasure_number h
  | star =>
    rw [MeasureSpelling.pointed, List.cons_append, takePrecision, if_pos rfl,
      List.singleton_append, takeMeasure_star]
    rfl

end Reading

end Directive

theorem head?_append_of_ne_nil {α : Type} {s : List α} (h : s ≠ []) (g : List α) :
    (s ++ g).head? = s.head? := by
  obtain ⟨c, s, rfl⟩ := List.exists_cons_of_ne_nil h
  rfl

section Following

variable {next next' digits : List UInt8} {m : MeasureSpelling}

/-- Only the first byte of what follows is looked at. -/
theorem IsNumberBefore.congr (h : IsNumberBefore next digits) (hhead : next.head? = next'.head?) :
    IsNumberBefore next' digits :=
  ⟨h.all_digits, hhead ▸ h.ends, hhead ▸ h.no_star⟩

theorem MeasureSpelling.IsWidthBefore.congr (h : m.IsWidthBefore next)
    (hhead : next.head? = next'.head?) : m.IsWidthBefore next' := by
  cases m with
  | absent => exact IsNumberBefore.congr h hhead
  | digits ds => exact ⟨h.1, h.2.congr hhead⟩
  | star => exact trivial

theorem MeasureSpelling.IsPrecisionBefore.congr (h : m.IsPrecisionBefore next)
    (hhead : next.head? = next'.head?) : m.IsPrecisionBefore next' := by
  cases m with
  | absent => exact fun c hc => h c (hhead ▸ hc)
  | digits ds => exact IsNumberBefore.congr h hhead
  | star => exact trivial

/-- Where digits end, those of any number do. -/
theorem IsNumberBefore.text (h : IsNumberBefore next digits) (n : Nat) :
    IsNumberBefore next (Digits.text 10 n) :=
  ⟨Digits.isDigitByte_text, h.ends, fun hnil => absurd hnil (Digits.text_ne_nil n)⟩

theorem isNumberBefore (hdigits : ∀ b ∈ digits, isDigitByte b = true)
    (hnext : ∀ c ∈ next.head?, isDigitByte c = false ∧ c ≠ starByte) :
    IsNumberBefore next digits :=
  ⟨hdigits, fun c hc => (hnext c hc).1, fun _ c hc => (hnext c hc).2⟩

theorem MeasureSpelling.isWidth_text {n : Nat} (hn : 0 < n) :
    (MeasureSpelling.digits (Digits.text 10 n)).IsWidth := by
  obtain ⟨b, more, htext, _, hb⟩ := Digits.exists_text_cons n
  refine ⟨Digits.isDigitByte_text, b, ?_, hb hn⟩
  rw [htext]
  rfl

theorem MeasureSpelling.IsWidth.isWidthBefore (h : m.IsWidth)
    (hnext : ∀ c ∈ next.head?, isDigitByte c = false ∧ c ≠ starByte) : m.IsWidthBefore next := by
  cases m with
  | absent => exact isNumberBefore (fun b hb => absurd hb List.not_mem_nil) hnext
  | digits ds =>
    obtain ⟨hdigits, b, hb, _⟩ := h
    refine ⟨?_, isNumberBefore hdigits hnext⟩
    rintro rfl
    cases hb
  | star => exact trivial

theorem MeasureSpelling.IsPrecision.isPrecisionBefore (h : m.IsPrecision)
    (hnext : ∀ c ∈ next.head?, IsOutside c) : m.IsPrecisionBefore next := by
  cases m with
  | absent => exact fun c hc => (hnext c hc).point
  | digits ds => exact isNumberBefore h fun c hc => ⟨(hnext c hc).digit, (hnext c hc).star⟩
  | star => exact trivial

/-- A width does not begin with a flag. -/
theorem MeasureSpelling.IsWidth.head?_bytes (h : m.IsWidth)
    (hnext : m = .absent → ∀ c ∈ next.head?, Flag.ofByte? c = none) :
    ∀ c ∈ (m.bytes ++ next).head?, Flag.ofByte? c = none := by
  intro c hc
  cases m with
  | absent => exact hnext rfl c hc
  | digits ds =>
    obtain ⟨hdigits, b, hb, hzero⟩ := h
    obtain ⟨more, rfl⟩ := List.head?_eq_some_iff.mp hb
    obtain rfl : b = c := Option.some.inj hc
    exact Flag.ofByte?_digit (hdigits b List.mem_cons_self) hzero
  | star =>
    cases hc
    decide

/-- A precision begins neither with a flag nor as a width does. -/
theorem MeasureSpelling.head?_pointed (m : MeasureSpelling)
    (hnext : ∀ c ∈ next.head?, IsOutside c) :
    ∀ c ∈ (m.pointed ++ next).head?,
      Flag.ofByte? c = none ∧ isDigitByte c = false ∧ c ≠ starByte := by
  intro c hc
  cases m with
  | absent => exact ⟨(hnext c hc).flag, (hnext c hc).digit, (hnext c hc).star⟩
  | digits | star =>
    cases hc
    decide

end Following

namespace DirectiveSpelling

variable {sp : DirectiveSpelling}

theorem tail_ne_nil (sp : DirectiveSpelling) : sp.tail ≠ [] :=
  List.append_ne_nil_of_right_ne_nil _ (List.cons_ne_nil _ _)

theorem afterWidth_ne_nil (sp : DirectiveSpelling) : sp.afterWidth ≠ [] :=
  List.append_ne_nil_of_right_ne_nil _ sp.tail_ne_nil

theorem afterFlags_ne_nil (sp : DirectiveSpelling) : sp.afterFlags ≠ [] :=
  List.append_ne_nil_of_right_ne_nil _ sp.afterWidth_ne_nil

/-- The flags of a spelling are taken first. -/
theorem IsApart.takeFlags (h : sp.IsApart) (g : List UInt8) :
    Directive.takeFlags .none (sp.bytes ++ g) =
      (sp.flags.foldl Flags.set .none, sp.width.bytes ++ (sp.afterWidth ++ g)) := by
  have hbytes : sp.bytes ++ g = sp.flags.map Flag.byte ++ (sp.afterFlags ++ g) :=
    List.append_assoc _ _ _
  rw [hbytes, Directive.takeFlags_byte, Directive.takeFlags_of_none, afterFlags,
    List.append_assoc]
  rw [head?_append_of_ne_nil sp.afterFlags_ne_nil]
  exact h.flags

/-- The width is taken behind the flags. -/
theorem IsApart.takeWidth (h : sp.IsApart) (g : List UInt8) :
    Directive.takeWidth (sp.width.bytes ++ (sp.afterWidth ++ g)) =
      if Directive.maxMeasure < sp.width.number then .error .tooLarge
      else .ok (sp.width.measure, sp.afterWidth ++ g) :=
  Directive.takeWidth_spelling
    (h.width.congr (head?_append_of_ne_nil sp.afterWidth_ne_nil g).symm)

/-- The precision is taken behind the width. -/
theorem IsApart.takePrecision (h : sp.IsApart) (g : List UInt8) :
    Directive.takePrecision (sp.afterWidth ++ g) =
      if Directive.maxMeasure < sp.precision.number then .error .tooLarge
      else .ok (sp.precision.measure, sp.tail ++ g) := by
  rw [afterWidth, List.append_assoc]
  exact Directive.takePrecision_spelling
    (h.precision.congr (head?_append_of_ne_nil sp.tail_ne_nil g).symm)

/-- The bytes of a spelling are read part by part. -/
theorem IsApart.parse (h : sp.IsApart) (g : List UInt8) :
    Directive.parse (sp.bytes ++ g) =
      if Directive.maxMeasure < sp.width.number then .error .tooLarge
      else if Directive.maxMeasure < sp.precision.number then .error .tooLarge
      else .ok (sp.directive, g) := by
  have hlength : Directive.takeLength (sp.tail ++ g) = (sp.length, sp.conversion :: g) := by
    rw [Directive.takeLength_append, h.modifier]
    · rfl
    · rw [h.modifier]
      exact List.cons_ne_nil _ _
  simp only [Directive.parse, h.takeFlags, h.takeWidth, bind, Except.bind]
  by_cases hlong : Directive.maxMeasure < sp.width.number
  · simp only [if_pos hlong]
  · simp only [if_neg hlong, h.takePrecision]
    by_cases hlong' : Directive.maxMeasure < sp.precision.number
    · simp only [if_pos hlong']
    · simp only [if_neg hlong', hlength]
      rfl

/-- A spelling with numbers that can be met is read back. -/
theorem IsApart.parse_bytes (h : sp.IsApart) (hmet : sp.IsMet) (g : List UInt8) :
    Directive.parse (sp.bytes ++ g) = .ok (sp.directive, g) := by
  rw [h.parse, if_neg (Nat.not_lt.mpr hmet.width), if_neg (Nat.not_lt.mpr hmet.precision)]

/-- A spelling with a number that cannot be met is refused. -/
theorem IsApart.parse_tooLarge (h : sp.IsApart) (hmet : ¬ sp.IsMet) (g : List UInt8) :
    Directive.parse (sp.bytes ++ g) = .error .tooLarge := by
  rw [h.parse]
  by_cases hwidth : Directive.maxMeasure < sp.width.number
  · rw [if_pos hwidth]
  · have hprecision : Directive.maxMeasure < sp.precision.number :=
      Nat.lt_of_not_le fun hle => hmet ⟨Nat.not_lt.mp hwidth, hle⟩
    rw [if_neg hwidth, if_pos hprecision]

theorem IsApart.isWidth (h : sp.IsApart) : sp.width.IsWidth := by
  have hflags := h.flags
  have hwidth := h.width
  rw [afterFlags] at hflags
  cases hm : sp.width with
  | absent | star => exact trivial
  | digits ds =>
    rw [hm] at hflags hwidth
    obtain ⟨hne, hnumber⟩ := hwidth
    obtain ⟨b, more, rfl⟩ := List.exists_cons_of_ne_nil hne
    refine ⟨hnumber.all_digits, b, rfl, ?_⟩
    rintro rfl
    exact absurd (hflags Field.zero rfl) (by decide)

theorem IsApart.isPrecision (h : sp.IsApart) : sp.precision.IsPrecision := by
  have hprecision := h.precision
  cases hm : sp.precision with
  | absent | star => exact trivial
  | digits ds =>
    rw [hm] at hprecision
    exact hprecision.all_digits

/-- Before a byte that belongs to none of them, flags, a width and a precision are apart: so before
every modifier and before every letter. -/
theorem isApart_of_outside (hnext : ∀ c ∈ sp.tail.head?, IsOutside c) (hwidth : sp.width.IsWidth)
    (hprecision : sp.precision.IsPrecision)
    (hmodifier : Directive.takeLength sp.tail = (sp.length, [sp.conversion])) : sp.IsApart := by
  have hafter := sp.precision.head?_pointed hnext
  exact ⟨hwidth.head?_bytes fun _ c hc => (hafter c hc).1,
    hwidth.isWidthBefore fun c hc => (hafter c hc).2, hprecision.isPrecisionBefore hnext, hmodifier⟩

end DirectiveSpelling

theorem Flag.byte_of_ofByte? {b : UInt8} {flag : Flag} (h : Flag.ofByte? b = some flag) :
    flag.byte = b :=
  eq_of_beq (List.find?_some (p := fun flag : Flag => flag.byte == b) h)

namespace Directive

section Spelled

variable {s rest : List UInt8} {m : Measure} {d : Directive}

theorem exists_flags (flags : Flags) (s : List UInt8) :
    ∃ fs : List Flag, s = fs.map Flag.byte ++ (takeFlags flags s).2 ∧
      (takeFlags flags s).1 = fs.foldl Flags.set flags ∧
      ∀ c ∈ (takeFlags flags s).2.head?, Flag.ofByte? c = none := by
  induction s generalizing flags with
  | nil => exact ⟨[], rfl, rfl, fun c hc => (by cases hc)⟩
  | cons b s ih =>
    rw [takeFlags]
    cases hb : Flag.ofByte? b with
    | none =>
      refine ⟨[], rfl, rfl, fun c hc => ?_⟩
      cases hc
      exact hb
    | some flag =>
      obtain ⟨fs, hs, hflags, hend⟩ := ih (flags.set flag)
      refine ⟨flag :: fs, ?_, hflags, hend⟩
      rw [List.map_cons, List.cons_append, ← hs, Flag.byte_of_ofByte? hb]

/-- A number is spelled by its digits. -/
theorem exists_number (h : takeMeasure s = .ok (m, rest)) :
    (m = .fromArgument ∧ s = starByte :: rest) ∨
      ∃ digits, s = digits ++ rest ∧ m = .fixed (decimalValue digits) ∧
        IsNumberBefore rest digits ∧ decimalValue digits ≤ maxMeasure := by
  by_cases hs : s.head? = some starByte
  · obtain ⟨more, rfl⟩ := List.head?_eq_some_iff.mp hs
    rw [takeMeasure_star] at h
    cases h
    exact Or.inl ⟨rfl, rfl⟩
  · rw [takeMeasure_of_not_star hs, takeNumber] at h
    by_cases hlong : maxMeasure < decimalValue (s.takeWhile isDigitByte)
    · simp only [if_pos hlong, Except.map, reduceCtorEq] at h
    · simp only [if_neg hlong] at h
      cases h
      have hsplit := List.takeWhile_append_dropWhile (p := isDigitByte) (l := s)
      refine Or.inr ⟨s.takeWhile isDigitByte, hsplit.symm, rfl,
        ⟨List.all_eq_true.mp List.all_takeWhile, fun c hc => ?_, fun hnil c hc hstar => ?_⟩,
        Nat.not_lt.mp hlong⟩
      · have hhead := List.head?_dropWhile_not isDigitByte s
        rw [hc] at hhead
        exact hhead
      · rw [hnil, List.nil_append] at hsplit
        have hhead : s.head? = some c := by
          rw [← hsplit]
          exact hc
        exact hs (hhead.trans (congrArg some hstar))

theorem exists_width (h : takeWidth s = .ok (m, rest)) :
    ∃ spelled : MeasureSpelling, s = spelled.bytes ++ rest ∧ spelled.measure = m ∧
      spelled.IsWidthBefore rest ∧ spelled.number ≤ maxMeasure := by
  cases s with
  | nil =>
    cases h
    exact ⟨.absent, rfl, rfl, ⟨fun b hb => absurd hb List.not_mem_nil, fun c hc => (by cases hc),
      fun _ c hc => (by cases hc)⟩, Nat.zero_le _⟩
  | cons b s =>
    rw [takeWidth] at h
    by_cases hb : b = starByte ∨ isDigitByte b = true
    · rw [if_pos hb] at h
      rcases exists_number h with ⟨rfl, hs⟩ | ⟨digits, hs, rfl, hnumber, hmet⟩
      · exact ⟨.star, hs, rfl, trivial, Nat.zero_le _⟩
      · refine ⟨.digits digits, hs, rfl, ⟨?_, hnumber⟩, hmet⟩
        rintro rfl
        have hhead : b ∈ rest.head? := congrArg List.head? hs.symm
        rcases hb with hstar | hdigit
        · exact hnumber.no_star rfl b hhead hstar
        · rw [hnumber.ends b hhead] at hdigit
          cases hdigit
    · rw [if_neg hb] at h
      cases h
      rw [not_or] at hb
      refine ⟨.absent, rfl, rfl, ⟨fun d hd => absurd hd List.not_mem_nil, fun c hc => ?_,
        fun _ c hc => ?_⟩, Nat.zero_le _⟩
      · cases hc
        exact Bool.not_eq_true _ ▸ hb.2
      · cases hc
        exact hb.1

theorem exists_precision (h : takePrecision s = .ok (m, rest)) :
    ∃ spelled : MeasureSpelling, s = spelled.pointed ++ rest ∧ spelled.measure = m ∧
      spelled.IsPrecisionBefore rest ∧ spelled.number ≤ maxMeasure := by
  cases s with
  | nil =>
    cases h
    exact ⟨.absent, rfl, rfl, fun c hc => (by cases hc), Nat.zero_le _⟩
  | cons b s =>
    rw [takePrecision] at h
    by_cases hb : b = pointByte
    · rw [if_pos hb] at h
      subst hb
      rcases exists_number h with ⟨rfl, rfl⟩ | ⟨digits, rfl, rfl, hnumber, hmet⟩
      · exact ⟨.star, rfl, rfl, trivial, Nat.zero_le _⟩
      · exact ⟨.digits digits, rfl, rfl, hnumber, hmet⟩
    · rw [if_neg hb] at h
      cases h
      refine ⟨.absent, rfl, rfl, fun c hc => ?_, Nat.zero_le _⟩
      cases hc
      exact hb

/-- A modifier is read alike where only the conversion follows. -/
theorem exists_modifier {l : Length} {c : UInt8} (h : takeLength s = (l, c :: rest)) :
    ∃ modifier, s = modifier ++ c :: rest ∧ takeLength (modifier ++ [c]) = (l, [c]) := by
  rw [takeLength] at h
  cases hfind : Length.spellings.find? (fun p => p.1.isPrefixOf s) with
  | none =>
    simp only [hfind] at h
    cases h
    refine ⟨[], rfl, ?_⟩
    have hnone : Length.spellings.find? (fun p => p.1.isPrefixOf [c]) = none := by
      rw [List.find?_eq_none] at hfind ⊢
      intro p hp hprefix
      rw [List.isPrefixOf_iff_prefix] at hprefix
      refine hfind p hp (List.isPrefixOf_iff_prefix.mpr ?_)
      exact hprefix.trans (List.prefix_append [c] rest)
    rw [List.nil_append, takeLength, hnone]
  | some p =>
    simp only [hfind] at h
    obtain ⟨spelling, length⟩ := p
    obtain ⟨rfl, hdrop⟩ := Prod.mk.inj h
    have hprefix := List.find?_some hfind
    simp only [List.isPrefixOf_iff_prefix] at hprefix
    obtain ⟨later, rfl⟩ := hprefix
    rw [List.drop_left'] at hdrop
    · subst hdrop
      refine ⟨spelling, rfl, ?_⟩
      have hne : spelling ≠ [] := (head_mem_spellings _ (List.mem_of_find?_eq_some hfind)).2.1
      have hlong : 2 ≤ (spelling ++ [c]).length := by
        rw [List.length_append]
        exact Nat.succ_le_succ (List.length_pos_iff.mpr hne)
      have hsame : ∀ p ∈ Length.spellings,
          p.1.isPrefixOf (spelling ++ [c]) = p.1.isPrefixOf (spelling ++ c :: rest) := by
        intro p hp
        have hlen := Nat.le_trans (head_mem_spellings p hp).1 hlong
        rw [List.append_cons spelling c rest, isPrefixOf_append hlen rest]
      rw [takeLength, (find?_spellings_congr hsame).trans hfind]
      simp only [List.drop_left']
    · rfl

/-- Every directive that is read has a spelling whose parts are apart. -/
theorem exists_spelling (h : parse s = .ok (d, rest)) :
    ∃ sp : DirectiveSpelling, s = sp.bytes ++ rest ∧ sp.directive = d ∧ sp.IsApart ∧ sp.IsMet := by
  obtain ⟨hf, s₂, s₃, hw, hp, hl⟩ := parse_eq_ok_iff.mp h
  obtain ⟨fs, hs, hflags, hflagsEnd⟩ := exists_flags .none s
  obtain ⟨width, hs₁, hwidth, hwidthEnd, hwidthMet⟩ := exists_width hw
  obtain ⟨precision, hs₂, hprecision, hprecisionEnd, hprecisionMet⟩ := exists_precision hp
  obtain ⟨modifier, hs₃, hmodifier⟩ := exists_modifier hl
  let sp : DirectiveSpelling := ⟨fs, width, precision, modifier, d.length, d.conversion⟩
  have htail : s₃ = sp.tail ++ rest := by
    rw [hs₃, DirectiveSpelling.tail, List.append_assoc]
    rfl
  have hafter : s₂ = sp.afterWidth ++ rest := by
    rw [hs₂, htail, DirectiveSpelling.afterWidth, List.append_assoc]
  have hfollows : (takeFlags .none s).2 = sp.afterFlags ++ rest := by
    rw [hs₁, hafter, DirectiveSpelling.afterFlags, List.append_assoc]
  refine ⟨sp, ?_, ?_, ⟨?_, ?_, ?_, hmodifier⟩, hwidthMet, hprecisionMet⟩
  · rw [hs, hfollows, DirectiveSpelling.bytes, List.append_assoc]
  · rw [DirectiveSpelling.directive]
    change (⟨fs.foldl Flags.set .none, width.measure, precision.measure, d.length,
      d.conversion⟩ : Directive) = d
    rw [hwidth, hprecision, ← hflags, hf]
  · rw [hfollows, head?_append_of_ne_nil sp.afterFlags_ne_nil] at hflagsEnd
    exact hflagsEnd
  · refine hwidthEnd.congr ?_
    rw [hafter, head?_append_of_ne_nil sp.afterWidth_ne_nil]
  · refine hprecisionEnd.congr ?_
    rw [htail, head?_append_of_ne_nil sp.tail_ne_nil]

end Spelled

end Directive

end FormattedText
