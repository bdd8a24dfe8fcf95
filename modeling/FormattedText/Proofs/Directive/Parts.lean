import FormattedText.Proofs.Format.Spelling

/-!
# The parts of a directive

Before its conversion a directive has flags, a width, a precision and a length modifier, each
of which may be missing. The grammar says of each part what texts it may be, and that it is the
longest beginning of what is left that is such a text (`TakesLongest`). So every text is cut into
parts (`DirectiveParts.exists_splits`), and the cut decides what the parser does
(`DirectiveParts.Splits.parse`): it refuses a number that is too large, then a text that has no
conversion behind the parts, and otherwise gives the directive with these parts.

A beginning of a part is a part of the same kind. For such kinds the longest part is the one that
the next byte does not continue (`takesLongest_iff`), so of what follows only that byte is looked
at.
-/

namespace FormattedText

/-- A text begins with a part of a kind and with no longer one; the rest follows. -/
structure TakesLongest (kind : List UInt8 → Prop) (part s rest : List UInt8) : Prop where
  /-- The part stands before the rest. -/
  split : s = part ++ rest
  /-- It is of the kind. -/
  isOfKind : kind part
  /-- No longer beginning of the text is. -/
  longest : ∀ front, kind front → front <+: s → front.length ≤ part.length

/-- What a text of the kind begins with is of the kind. -/
def IsBeginningClosed (kind : List UInt8 → Prop) : Prop := ∀ a b, kind (a ++ b) → kind a

section Longest

variable {kind : List UInt8 → Prop} {part s rest : List UInt8}

/-- The longest part is the one that the next byte does not continue. -/
theorem takesLongest_iff (hclosed : IsBeginningClosed kind) :
    TakesLongest kind part s rest ↔
      s = part ++ rest ∧ kind part ∧ ∀ c ∈ rest.head?, ¬ kind (part ++ [c]) := by
  constructor
  · rintro ⟨rfl, hkind, hlongest⟩
    refine ⟨rfl, hkind, fun c hc hlonger => ?_⟩
    obtain ⟨more, rfl⟩ := List.head?_eq_some_iff.mp hc
    have hfront : part ++ [c] <+: part ++ c :: more := ⟨more, (List.append_cons part c more).symm⟩
    have hle := hlongest _ hlonger hfront
    rw [List.length_append, List.length_singleton] at hle
    exact Nat.not_succ_le_self _ hle
  · rintro ⟨rfl, hkind, hstop⟩
    refine ⟨rfl, hkind, fun front hfront hbegins => Nat.not_lt.mp fun hlt => ?_⟩
    obtain ⟨later, rfl⟩ := List.prefix_of_prefix_length_le (List.prefix_append part rest) hbegins
      (Nat.le_of_lt hlt)
    rw [List.prefix_append_right_inj] at hbegins
    cases later with
    | nil =>
      rw [List.append_nil] at hlt
      exact Nat.lt_irrefl _ hlt
    | cons c later =>
      obtain ⟨more, rfl⟩ := hbegins
      rw [List.append_cons] at hfront
      exact hstop c rfl (hclosed _ _ hfront)

/-- Every text begins with a longest part, which may be nothing. -/
theorem exists_takesLongest (hclosed : IsBeginningClosed kind) (hnil : kind []) (s : List UInt8) :
    ∃ part rest, TakesLongest kind part s rest := by
  induction s generalizing kind with
  | nil => exact ⟨[], [], (takesLongest_iff hclosed).mpr ⟨rfl, hnil, fun c hc => nomatch hc⟩⟩
  | cons c s ih =>
    by_cases hc : kind [c]
    · have hlater : IsBeginningClosed fun part => kind (c :: part) :=
        fun a b h => hclosed (c :: a) b h
      obtain ⟨part, rest, htakes⟩ := ih hlater hc
      obtain ⟨rfl, hkind, hstop⟩ := (takesLongest_iff hlater).mp htakes
      exact ⟨c :: part, rest, (takesLongest_iff hclosed).mpr ⟨rfl, hkind, hstop⟩⟩
    · refine ⟨[], c :: s, (takesLongest_iff hclosed).mpr ⟨rfl, hnil, fun d hd => ?_⟩⟩
      cases hd
      exact hc

/-- Of what follows the part only the first byte is looked at. -/
theorem TakesLongest.congr (hclosed : IsBeginningClosed kind) (h : TakesLongest kind part s rest)
    {rest' : List UInt8} (hhead : rest'.head? = rest.head?) :
    TakesLongest kind part (part ++ rest') rest' := by
  obtain ⟨_, hkind, hstop⟩ := (takesLongest_iff hclosed).mp h
  exact (takesLongest_iff hclosed).mpr ⟨rfl, hkind, hhead ▸ hstop⟩

end Longest

namespace Directive

/-- Bytes that set flags. -/
def IsFlagText (bytes : List UInt8) : Prop := ∃ flags : List Flag, flags.map Flag.byte = bytes

/-- A star, or digits, of which there may be none. -/
def IsMeasureText (bytes : List UInt8) : Prop :=
  bytes = [starByte] ∨ ∀ b ∈ bytes, isDigitByte b = true

/-- Nothing, or a point with a star or digits behind it. -/
def IsPrecisionText (bytes : List UInt8) : Prop :=
  bytes = [] ∨ ∃ measure, bytes = pointByte :: measure ∧ IsMeasureText measure

/-- The length modifiers, nothing being one of them. -/
def modifiers : List (List UInt8 × Length) := ([], .plain) :: Length.spellings

/-- A length modifier, or nothing. -/
def IsModifierText (bytes : List UInt8) : Prop := bytes ∈ modifiers.map Prod.fst

section Kinds

theorem isBeginningClosed_flagText : IsBeginningClosed IsFlagText := by
  rintro a b ⟨flags, hflags⟩
  obtain ⟨front, later, _, hfront, _⟩ := List.map_eq_append_iff.mp hflags
  exact ⟨front, hfront⟩

theorem isBeginningClosed_measureText : IsBeginningClosed IsMeasureText := by
  rintro a b (hstar | hdigits)
  · rcases List.append_eq_singleton_iff.mp hstar with ⟨rfl, _⟩ | ⟨rfl, _⟩
    · exact Or.inr fun c hc => absurd hc List.not_mem_nil
    · exact Or.inl rfl
  · exact Or.inr fun c hc => hdigits c (List.mem_append_left b hc)

theorem isBeginningClosed_precisionText : IsBeginningClosed IsPrecisionText := by
  rintro a b (hnil | ⟨measure, hbytes, hmeasure⟩)
  · exact Or.inl (List.append_eq_nil_iff.mp hnil).1
  · cases a with
    | nil => exact Or.inl rfl
    | cons c a =>
      obtain ⟨rfl, rfl⟩ := List.cons.inj hbytes
      exact Or.inr ⟨a, rfl, isBeginningClosed_measureText a b hmeasure⟩

theorem isBeginningClosed_modifierText : IsBeginningClosed IsModifierText := by
  have hfronts : ∀ modifier ∈ modifiers.map Prod.fst, modifier.length ≤ 2 ∧
      ∀ k < 3, modifier.take k ∈ modifiers.map Prod.fst := by
    decide
  intro a b hmodifier
  obtain ⟨hlength, htake⟩ := hfronts _ hmodifier
  rw [List.length_append] at hlength
  have hfront := htake a.length (by omega)
  rw [List.take_left] at hfront
  exact hfront

end Kinds

/-- The flags that bytes set. -/
def flagsOf (bytes : List UInt8) : Flags where
  leftJustify := bytes.contains Flag.leftJustify.byte
  forceSign := bytes.contains Flag.forceSign.byte
  spaceSign := bytes.contains Flag.spaceSign.byte
  alternate := bytes.contains Flag.alternate.byte
  zeroPad := bytes.contains Flag.zeroPad.byte
  grouping := bytes.contains Flag.grouping.byte

/-- What a star stands for, or digits. -/
def measureOf (bytes : List UInt8) : Measure :=
  if bytes = [starByte] then .fromArgument else .fixed (decimalValue bytes)

/-- The width that is written; without bytes there is none. -/
def widthOf (bytes : List UInt8) : Measure := if bytes = [] then .absent else measureOf bytes

/-- The precision that is written, with its point; a point alone writes zero. -/
def precisionOf : List UInt8 → Measure
  | [] => .absent
  | _ :: bytes => measureOf bytes

/-- The length of a modifier. -/
def lengthOf (bytes : List UInt8) : Length := (modifiers.lookup bytes).getD .plain

end Directive

/-- The number of a width or a precision, or zero. -/
def Measure.number (m : Measure) : Nat := m.value?.getD 0

/-- The bytes of a directive between its percent sign and its conversion. -/
structure DirectiveParts where
  /-- The bytes of the flags. -/
  flags : List UInt8
  /-- The bytes of the width. -/
  width : List UInt8
  /-- The bytes of the precision, with its point. -/
  precision : List UInt8
  /-- The bytes of the length modifier. -/
  modifier : List UInt8
  deriving DecidableEq, Repr

namespace DirectiveParts

open Directive

/-- What stands behind the width. -/
def afterWidth (p : DirectiveParts) (rest : List UInt8) : List UInt8 :=
  p.precision ++ (p.modifier ++ rest)

/-- What stands behind the flags. -/
def afterFlags (p : DirectiveParts) (rest : List UInt8) : List UInt8 :=
  p.width ++ p.afterWidth rest

/-- The directive with the parts and a conversion. -/
def directive (p : DirectiveParts) (conversion : UInt8) : Directive :=
  ⟨flagsOf p.flags, widthOf p.width, precisionOf p.precision, lengthOf p.modifier, conversion⟩

/-- A text is cut into the parts and a rest, each part being taken as long as possible. -/
structure Splits (p : DirectiveParts) (s rest : List UInt8) : Prop where
  /-- The flags are first. -/
  flags : TakesLongest IsFlagText p.flags s (p.afterFlags rest)
  /-- A width follows. -/
  width : TakesLongest IsMeasureText p.width (p.afterFlags rest) (p.afterWidth rest)
  /-- A precision follows. -/
  precision : TakesLongest IsPrecisionText p.precision (p.afterWidth rest) (p.modifier ++ rest)
  /-- A length modifier follows. -/
  modifier : TakesLongest IsModifierText p.modifier (p.modifier ++ rest) rest

/-- The width and the precision can be met. -/
structure IsMet (p : DirectiveParts) : Prop where
  /-- The width can be met. -/
  width : (widthOf p.width).number ≤ maxMeasure
  /-- The precision can be met. -/
  precision : (precisionOf p.precision).number ≤ maxMeasure

/-- Every text is cut in this way. -/
theorem exists_splits (s : List UInt8) : ∃ (p : DirectiveParts) (rest : List UInt8),
    p.Splits s rest := by
  have hnoDigits : IsMeasureText [] := Or.inr fun b hb => absurd hb List.not_mem_nil
  obtain ⟨flags, s₁, hflags⟩ := exists_takesLongest isBeginningClosed_flagText ⟨[], rfl⟩ s
  obtain ⟨width, s₂, hwidth⟩ := exists_takesLongest isBeginningClosed_measureText hnoDigits s₁
  obtain ⟨precision, s₃, hprecision⟩ :=
    exists_takesLongest isBeginningClosed_precisionText (Or.inl rfl) s₂
  obtain ⟨modifier, rest, hmodifier⟩ :=
    exists_takesLongest isBeginningClosed_modifierText List.mem_cons_self s₃
  obtain rfl := hmodifier.split
  obtain rfl := hprecision.split
  obtain rfl := hwidth.split
  exact ⟨⟨flags, width, precision, modifier⟩, rest, hflags, hwidth, hprecision, hmodifier⟩

end DirectiveParts

namespace Directive

section Reading

variable {part s rest : List UInt8}

theorem flagsOf_byte (fs : List Flag) : flagsOf (fs.map Flag.byte) = fs.foldl Flags.set .none := by
  apply Flags.eq_of_has
  intro flag
  have hhas : (flagsOf (fs.map Flag.byte)).has flag = (fs.map Flag.byte).contains flag.byte := by
    cases flag <;> rfl
  rw [hhas, Flags.has_foldl, Flags.has_none, Bool.false_or, Bool.eq_iff_iff, List.contains_iff_mem,
    List.contains_iff_mem]
  constructor
  · intro hbyte
    obtain ⟨f, hf, hbyte⟩ := List.mem_map.mp hbyte
    exact Flag.byte_injective hbyte ▸ hf
  · exact List.mem_map_of_mem

/-- The longest flags are taken. -/
theorem takeFlags_of_takesLongest (h : TakesLongest IsFlagText part s rest) :
    takeFlags .none s = (flagsOf part, rest) := by
  obtain ⟨rfl, ⟨fs, rfl⟩, hstop⟩ := (takesLongest_iff isBeginningClosed_flagText).mp h
  rw [takeFlags_byte, flagsOf_byte, takeFlags_of_none]
  intro c hc
  cases hflag : Flag.ofByte? c with
  | none => rfl
  | some flag =>
    refine absurd ⟨fs ++ [flag], ?_⟩ (hstop c hc)
    rw [List.map_append, List.map_singleton, Flag.byte_of_ofByte? hflag]

/-- The longest digits are one number. -/
theorem isNumberBefore_of_takesLongest (h : TakesLongest IsMeasureText part s rest)
    (hstar : part ≠ [starByte]) : IsNumberBefore rest part := by
  obtain ⟨rfl, hkind, hstop⟩ := (takesLongest_iff isBeginningClosed_measureText).mp h
  have hdigits := hkind.resolve_left hstar
  refine ⟨hdigits, fun c hc => Bool.eq_false_iff.mpr fun hdigit => hstop c hc (Or.inr ?_), ?_⟩
  · intro b hb
    rcases List.mem_append.mp hb with hb | hb
    · exact hdigits b hb
    · exact List.mem_singleton.mp hb ▸ hdigit
  · rintro rfl c hc rfl
    exact hstop starByte hc (Or.inl rfl)

/-- The longest width is taken, if it can be met. -/
theorem takeWidth_of_takesLongest (h : TakesLongest IsMeasureText part s rest) :
    takeWidth s = if maxMeasure < (widthOf part).number then .error .tooLarge
      else .ok (widthOf part, rest) := by
  obtain rfl := h.split
  by_cases hstar : part = [starByte]
  · subst hstar
    exact takeWidth_spelling (m := .star) trivial
  · have hnumber := isNumberBefore_of_takesLongest h hstar
    by_cases hnil : part = []
    · subst hnil
      exact takeWidth_spelling (m := .absent) hnumber
    · rw [widthOf, if_neg hnil, measureOf, if_neg hstar]
      exact takeWidth_spelling (m := .digits part) ⟨hnil, hnumber⟩

/-- The longest precision is taken, if it can be met. -/
theorem takePrecision_of_takesLongest (h : TakesLongest IsPrecisionText part s rest) :
    takePrecision s = if maxMeasure < (precisionOf part).number then .error .tooLarge
      else .ok (precisionOf part, rest) := by
  obtain ⟨rfl, hkind, hstop⟩ := (takesLongest_iff isBeginningClosed_precisionText).mp h
  rcases hkind with rfl | ⟨measure, rfl, hmeasure⟩
  · refine takePrecision_spelling (m := .absent) fun c hc hpoint => hstop c hc ?_
    exact Or.inr ⟨[], congrArg ([·]) hpoint, Or.inr fun b hb => absurd hb List.not_mem_nil⟩
  · have hlongest : TakesLongest IsMeasureText measure (measure ++ rest) rest :=
      (takesLongest_iff isBeginningClosed_measureText).mpr
        ⟨rfl, hmeasure, fun c hc hlonger => hstop c hc (Or.inr ⟨_, rfl, hlonger⟩)⟩
    by_cases hstar : measure = [starByte]
    · subst hstar
      exact takePrecision_spelling (m := .star) trivial
    · rw [precisionOf, measureOf, if_neg hstar]
      exact takePrecision_spelling (m := .digits measure)
        (isNumberBefore_of_takesLongest hlongest hstar)

/-- In the table no modifier begins a later one, so the first one that a text begins with is the
longest. -/
theorem length_le_of_find?_spellings {p q : List UInt8 × Length}
    (hfind : (Length.spellings.find? fun p => p.1.isPrefixOf s) = some p)
    (hq : q ∈ Length.spellings) (hbegins : q.1 <+: s) : q.1.length ≤ p.1.length := by
  have hordered : Length.spellings.Pairwise fun p q => ¬ p.1 <+: q.1 := by decide
  obtain ⟨hfirst, before, later, hspellings, hbefore⟩ := List.find?_eq_some_iff_append.mp hfind
  rw [List.isPrefixOf_iff_prefix] at hfirst
  rw [hspellings] at hq hordered
  rcases List.mem_append.mp hq with hq | hq
  · have hnot := hbefore q hq
    rw [Bool.not_eq_true', ← Bool.not_eq_true, List.isPrefixOf_iff_prefix] at hnot
    exact absurd hbegins hnot
  · rcases List.mem_cons.mp hq with rfl | hq
    · exact Nat.le_refl _
    · have hnot := (List.pairwise_cons.mp (List.pairwise_append.mp hordered).2.1).1 q hq
      refine Nat.le_of_not_le fun hle => hnot ?_
      exact List.prefix_of_prefix_length_le hfirst hbegins hle

/-- The longest modifier is taken. -/
theorem takeLength_of_takesLongest (h : TakesLongest IsModifierText part s rest) :
    takeLength s = (lengthOf part, rest) := by
  have hlengths : ∀ p ∈ Length.spellings, lengthOf p.1 = p.2 := by decide
  obtain ⟨rfl, hkind, hlongest⟩ := h
  obtain ⟨⟨part, length⟩, hmem, rfl⟩ := List.mem_map.mp hkind
  have hpart : part <+: part ++ rest := List.prefix_append part rest
  rw [takeLength]
  cases hfind : Length.spellings.find? fun p => p.1.isPrefixOf (part ++ rest) with
  | none =>
    rcases List.mem_cons.mp hmem with hnil | hmem
    · cases hnil
      rfl
    · exact absurd (List.isPrefixOf_iff_prefix.mpr hpart) (List.find?_eq_none.mp hfind _ hmem)
  | some p =>
    have hp : p ∈ Length.spellings := List.mem_of_find?_eq_some hfind
    have hfirst := List.find?_some hfind
    rw [List.isPrefixOf_iff_prefix] at hfirst
    have hshort : p.1 <+: part := by
      refine List.prefix_of_prefix_length_le hfirst hpart (hlongest p.1 ?_ hfirst)
      exact List.mem_map_of_mem (List.mem_cons_of_mem _ hp)
    have hlong : part.length ≤ p.1.length := by
      rcases List.mem_cons.mp hmem with hnil | hmem
      · cases hnil
        exact Nat.zero_le _
      · exact length_le_of_find?_spellings hfind hmem hpart
    have hsame : p.1 = part := hshort.eq_of_length_le hlong
    simp only [← hsame, List.drop_left, hlengths p hp]

end Reading

end Directive

namespace DirectiveParts

open Directive

section Parsing

variable {p : DirectiveParts} {s rest : List UInt8}

/-- The bytes of the parts. -/
def bytes (p : DirectiveParts) : List UInt8 :=
  p.flags ++ (p.width ++ (p.precision ++ p.modifier))

theorem Splits.eq_append (h : p.Splits s rest) : s = p.bytes ++ rest := by
  rw [h.flags.split, afterFlags, afterWidth, bytes]
  simp only [List.append_assoc]

/-- What the parser does with a text that is cut into parts: a number that is too large is found
before the end of the text. -/
def outcome (p : DirectiveParts) (rest : List UInt8) :
    Except DirectiveError (Directive × List UInt8) :=
  if maxMeasure < (widthOf p.width).number then .error .tooLarge
  else if maxMeasure < (precisionOf p.precision).number then .error .tooLarge
  else (takeConversion rest).map fun q => (p.directive q.1, q.2)

theorem Splits.parse (h : p.Splits s rest) : Directive.parse s = p.outcome rest := by
  simp only [Directive.parse, takeFlags_of_takesLongest h.flags, takeWidth_of_takesLongest h.width,
    bind, Except.bind, outcome]
  by_cases hwidth : maxMeasure < (widthOf p.width).number
  · simp only [if_pos hwidth]
  · simp only [if_neg hwidth, takePrecision_of_takesLongest h.precision]
    by_cases hprecision : maxMeasure < (precisionOf p.precision).number
    · simp only [if_pos hprecision]
    · simp only [if_neg hprecision, takeLength_of_takesLongest h.modifier]
      cases takeConversion rest <;> rfl

theorem outcome_of_isMet (h : p.IsMet) (rest : List UInt8) :
    p.outcome rest = (takeConversion rest).map fun q => (p.directive q.1, q.2) := by
  rw [outcome, if_neg (Nat.not_lt.mpr h.width), if_neg (Nat.not_lt.mpr h.precision)]

theorem outcome_of_not_isMet (h : ¬ p.IsMet) (rest : List UInt8) :
    p.outcome rest = .error .tooLarge := by
  rw [outcome]
  split
  · rfl
  · rename_i hwidth
    refine if_pos (Nat.lt_of_not_le fun hprecision => h ?_)
    exact ⟨Nat.not_lt.mp hwidth, hprecision⟩

theorem outcome_eq_ok_iff {next : List UInt8} {d : Directive} :
    p.outcome next = .ok (d, rest) ↔
      next = d.conversion :: rest ∧ p.IsMet ∧ p.directive d.conversion = d := by
  by_cases hmet : p.IsMet
  · rw [p.outcome_of_isMet hmet]
    cases next with
    | nil =>
      refine iff_of_false (fun h => ?_) fun h => ?_
      · cases h
      · cases h.1
    | cons c next =>
      constructor
      · intro h
        cases h
        exact ⟨rfl, hmet, rfl⟩
      · rintro ⟨hnext, _, hd⟩
        cases hnext
        rw [takeConversion, Except.map, hd]
  · rw [p.outcome_of_not_isMet hmet]
    refine iff_of_false (fun h => ?_) fun h => hmet h.2.1
    cases h

theorem outcome_eq_tooLarge_iff : p.outcome rest = .error .tooLarge ↔ ¬ p.IsMet := by
  refine ⟨fun h hmet => ?_, fun hmet => p.outcome_of_not_isMet hmet rest⟩
  rw [p.outcome_of_isMet hmet] at h
  cases rest <;> cases h

theorem outcome_eq_truncated_iff : p.outcome rest = .error .truncated ↔ rest = [] ∧ p.IsMet := by
  by_cases hmet : p.IsMet
  · rw [p.outcome_of_isMet hmet]
    cases rest with
    | nil => exact iff_of_true rfl ⟨rfl, hmet⟩
    | cons c rest =>
      refine iff_of_false (fun h => ?_) fun h => ?_
      · cases h
      · cases h.1
  · rw [p.outcome_of_not_isMet hmet]
    refine iff_of_false (fun h => ?_) fun h => hmet h.2
    cases h

end Parsing

end DirectiveParts

namespace Directive

section Parsing

variable {s rest : List UInt8} {d : Directive}

/-- How a text is cut decides what the parser does. -/
theorem parse_eq_iff {r : Except DirectiveError (Directive × List UInt8)} :
    parse s = r ↔ ∃ (p : DirectiveParts) (rest : List UInt8), p.Splits s rest ∧
      p.outcome rest = r := by
  constructor
  · intro h
    obtain ⟨p, rest, hsplits⟩ := DirectiveParts.exists_splits s
    exact ⟨p, rest, hsplits, hsplits.parse.symm.trans h⟩
  · rintro ⟨p, rest, hsplits, h⟩
    exact hsplits.parse.trans h

/-- A directive is read where a text is cut into its parts, which can be met, and its conversion
follows them. -/
theorem parse_eq_ok_iff_splits : parse s = .ok (d, rest) ↔
    ∃ p : DirectiveParts, p.Splits s (d.conversion :: rest) ∧ p.IsMet ∧
      p.directive d.conversion = d := by
  simp only [parse_eq_iff, DirectiveParts.outcome_eq_ok_iff]
  constructor
  · rintro ⟨p, _, hsplits, rfl, hmet⟩
    exact ⟨p, hsplits, hmet⟩
  · rintro ⟨p, hsplits, hmet⟩
    exact ⟨p, _, hsplits, rfl, hmet⟩

/-- A number is too large exactly if one of the parts is. -/
theorem parse_eq_tooLarge_iff : parse s = .error .tooLarge ↔
    ∃ (p : DirectiveParts) (rest : List UInt8), p.Splits s rest ∧ ¬ p.IsMet := by
  simp only [parse_eq_iff, DirectiveParts.outcome_eq_tooLarge_iff]

/-- A text is truncated exactly if it ends with the parts, which can be met. -/
theorem parse_eq_truncated_iff : parse s = .error .truncated ↔
    ∃ p : DirectiveParts, p.Splits s [] ∧ p.IsMet := by
  simp only [parse_eq_iff, DirectiveParts.outcome_eq_truncated_iff]
  constructor
  · rintro ⟨p, _, hsplits, rfl, hmet⟩
    exact ⟨p, hsplits, hmet⟩
  · rintro ⟨p, hsplits, hmet⟩
    exact ⟨p, [], hsplits, rfl, hmet⟩

end Parsing

end Directive

end FormattedText
