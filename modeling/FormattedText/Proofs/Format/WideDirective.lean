import FormattedText.Proofs.Field.WideText
import FormattedText.Proofs.Format.Expansion
import FormattedText.Proofs.Format.Spelling

/-!
# Directives of wide text as they are spelled

Flags in any order, a width and a precision in digits are read back from their bytes
(`Directive.parse_wide`). Zeros at the beginning of the width are taken as flags; that
changes neither the width nor, for text, the field. So the directive without a precision
writes the closed text with spaces up to the width (`Directive.IsWide.exists_field`).
-/

namespace FormattedText

open Encoding

/-- Zeros at the beginning of a number do not count. -/
theorem decimalValue_dropWhile (digits : List UInt8) :
    decimalValue (digits.dropWhile (· = Field.zero)) = decimalValue digits := by
  induction digits with
  | nil => rfl
  | cons b digits ih =>
    by_cases hb : b = Field.zero
    · subst hb
      rw [List.dropWhile_cons, if_pos (decide_eq_true rfl), ih]
      rfl
    · rw [List.dropWhile_cons_of_neg (by simpa using hb)]

namespace Directive

/-- A directive of wide text with a width, and with a precision if there is a limit. -/
structure IsWide (leftJustify : Bool) (width : Nat) (limit : Option Nat) (d : Directive) :
    Prop where
  /-- All writers convert wide text. -/
  kind : ∀ writer, d.kind writer = .wideText
  /-- The flag `-` is set or not. -/
  leftJustify : d.flags.leftJustify = leftJustify
  /-- The width. -/
  minWidth : d.minWidth = width
  /-- The width is not left to the arguments. -/
  width : d.width ≠ .fromArgument
  /-- The precision is the limit; there is none without a limit. -/
  precision : d.precision = limit.elim .absent .fixed

/-- The bytes of a conversion of wide text. -/
def wideConversion (capital : Bool) : List UInt8 :=
  if capital then [asciiByte 'S'] else [asciiByte 'l', asciiByte 's']

/-- The bytes of a precision, if there is one. -/
def precisionBytes : Option (List UInt8) → List UInt8
  | none => []
  | some digits => pointByte :: digits

/-- A directive of wide text part by part: the zeros that its width begins with are flags. -/
def wideSpelling (fs : List Flag) (digits : List UInt8) (precision : Option (List UInt8))
    (capital : Bool) : DirectiveSpelling where
  flags := fs ++ (digits.takeWhile (· = Field.zero)).map fun _ => .zeroPad
  width := if digits.dropWhile (· = Field.zero) = [] then .absent
    else .digits (digits.dropWhile (· = Field.zero))
  precision := precision.elim .absent .digits
  modifier := if capital then [] else [asciiByte 'l']
  length := if capital then .plain else .long
  conversion := if capital then asciiByte 'S' else asciiByte 's'

section Parsing

variable {fs : List Flag} {digits : List UInt8} {precision : Option (List UInt8)} {capital : Bool}

theorem wideSpelling_width_bytes : (wideSpelling fs digits precision capital).width.bytes =
    digits.dropWhile (· = Field.zero) := by
  simp only [wideSpelling]
  split
  · rename_i hnil
    exact hnil.symm
  · rfl

theorem tail_wideSpelling : (wideSpelling fs digits precision capital).tail =
    wideConversion capital := by
  cases capital <;> rfl

theorem isOutside_wideConversion (capital : Bool) :
    ∀ c ∈ (wideConversion capital).head?, IsOutside c := by
  intro c hc
  cases capital with
  | true =>
    cases hc
    exact ⟨rfl, rfl, by decide, by decide⟩
  | false =>
    cases hc
    exact ⟨rfl, rfl, by decide, by decide⟩

theorem bytes_wideSpelling (fs : List Flag) (digits : List UInt8)
    (precision : Option (List UInt8)) (capital : Bool) :
    (wideSpelling fs digits precision capital).bytes =
      fs.map Flag.byte ++ (digits ++ (precisionBytes precision ++ wideConversion capital)) := by
  have hzeros : ((digits.takeWhile (· = Field.zero)).map fun _ => Flag.zeroPad).map Flag.byte =
      digits.takeWhile (· = Field.zero) := by
    rw [List.map_map]
    refine (List.map_congr_left fun b hb => ?_).trans (List.map_id _)
    exact (of_decide_eq_true (List.all_eq_true.mp List.all_takeWhile b hb)).symm
  have hprecision : (wideSpelling fs digits precision capital).precision.pointed =
      precisionBytes precision := by
    cases precision <;> rfl
  rw [DirectiveSpelling.bytes, DirectiveSpelling.afterFlags, DirectiveSpelling.afterWidth,
    wideSpelling_width_bytes, hprecision, tail_wideSpelling, wideSpelling, List.map_append, hzeros,
    List.append_assoc, ← List.append_assoc (digits.takeWhile _), List.takeWhile_append_dropWhile]

theorem number_wideSpelling_width :
    (wideSpelling fs digits precision capital).width.number = decimalValue digits := by
  rw [← decimalValue_dropWhile]
  simp only [wideSpelling]
  split
  · rename_i hnil
    rw [hnil]
    rfl
  · rfl

theorem measure_wideSpelling_precision :
    (wideSpelling fs digits precision capital).precision.measure =
      (precision.map decimalValue).elim .absent .fixed := by
  cases precision <;> rfl

/-- The zeros that a width begins with do not change the side of the padding. -/
theorem leftJustify_wideSpelling :
    (wideSpelling fs digits precision capital).directive.flags.leftJustify =
      fs.contains .leftJustify := by
  have hzeros (zeros : List UInt8) :
      (zeros.map fun _ => Flag.zeroPad).contains .leftJustify = false := by
    induction zeros with
    | nil => rfl
    | cons b zeros ih => exact ih
  refine (Flags.has_foldl .none _ .leftJustify).trans ?_
  rw [wideSpelling, List.contains_append, hzeros, Bool.or_false, Flags.has_none, Bool.false_or]

/-- The parts of a directive of wide text are apart: none goes on in what follows it. -/
theorem isApart_wideSpelling (hdigits : ∀ b ∈ digits, isDigitByte b = true)
    (hprecision : ∀ digits ∈ precision, ∀ b ∈ digits, isDigitByte b = true) :
    (wideSpelling fs digits precision capital).IsApart := by
  refine DirectiveSpelling.isApart_of_outside ?_ ?_ ?_ ?_
  · rw [tail_wideSpelling]
    exact isOutside_wideConversion capital
  · simp only [wideSpelling]
    split
    · exact trivial
    · rename_i hne
      obtain ⟨b, more, hrest⟩ := List.exists_cons_of_ne_nil hne
      refine ⟨fun b hb => hdigits b ((List.dropWhile_sublist _).mem hb), b, ?_, ?_⟩
      · rw [hrest]
        rfl
      · have hhead := List.head?_dropWhile_not (fun b => decide (b = Field.zero)) digits
        rw [hrest] at hhead
        exact of_decide_eq_false hhead
  · cases precision with
    | none => exact trivial
    | some digits => exact hprecision digits rfl
  · cases capital <;> rfl

/-- A directive of wide text is read back from its bytes. -/
theorem parse_wide (fs : List Flag) (hdigits : ∀ b ∈ digits, isDigitByte b = true)
    (hmax : decimalValue digits ≤ maxMeasure) (precision : Option (List UInt8))
    (hprecision : ∀ digits ∈ precision, ∀ b ∈ digits, isDigitByte b = true)
    (hlimit : ∀ digits ∈ precision, decimalValue digits ≤ maxMeasure) (capital : Bool) :
    ∃ d : Directive, d.IsWide (fs.contains .leftJustify) (decimalValue digits)
        (precision.map decimalValue) ∧
      Segment.ofDirective d = .directive d ∧
      parse (fs.map Flag.byte ++
        (digits ++ (precisionBytes precision ++ wideConversion capital))) = .ok (d, []) := by
  let sp := wideSpelling fs digits precision capital
  have hmet : sp.IsMet := by
    refine ⟨Nat.le_trans (Nat.le_of_eq number_wideSpelling_width) hmax, ?_⟩
    rw [MeasureSpelling.number, measure_wideSpelling_precision]
    cases precision with
    | none => exact Nat.zero_le _
    | some digits => exact hlimit digits rfl
  have hparse := (isApart_wideSpelling hdigits hprecision).parse_bytes hmet []
  rw [List.append_nil, bytes_wideSpelling] at hparse
  refine ⟨sp.directive, ⟨fun writer => ?_, leftJustify_wideSpelling, number_wideSpelling_width,
    ?_, measure_wideSpelling_precision⟩, ?_, hparse⟩
  · cases capital with
    | true => cases writer <;> rfl
    | false => cases writer <;> rfl
  · simp only [sp, DirectiveSpelling.directive, wideSpelling]
    split
    · exact fun h => (by cases h)
    · exact fun h => (by cases h)
  · cases capital <;> rfl

/-- A directive of wide text does not end the format. -/
theorem zero_not_mem_wide (fs : List Flag) (hdigits : ∀ b ∈ digits, isDigitByte b = true)
    (precision : Option (List UInt8))
    (hprecision : ∀ digits ∈ precision, ∀ b ∈ digits, isDigitByte b = true) (capital : Bool) :
    0 ∉ fs.map Flag.byte ++ (digits ++ (precisionBytes precision ++ wideConversion capital)) := by
  have hzero : isDigitByte 0 ≠ true := by decide
  simp only [List.mem_append, not_or]
  refine ⟨fun hmem => ?_, fun hmem => hzero (hdigits 0 hmem), fun hmem => ?_, fun hmem => ?_⟩
  · obtain ⟨flag, _, hbyte⟩ := List.mem_map.mp hmem
    cases flag <;> exact absurd hbyte (by decide)
  · cases precision with
    | none => exact List.not_mem_nil hmem
    | some digits =>
      rcases List.mem_cons.mp hmem with hpoint | hdigit
      · exact absurd hpoint (by decide)
      · exact hzero (hprecision digits rfl 0 hdigit)
  · cases capital <;> exact absurd hmem (by decide)

end Parsing

section Expanding

variable {d : Directive} {left : Bool} {width : Nat} {limit : Option Nat}

theorem IsWide.precision? (h : d.IsWide left width limit) : d.precision? = limit := by
  rw [Directive.precision?, h.precision]
  cases limit <;> rfl

theorem IsWide.precision_ne (h : d.IsWide left width limit) : d.precision ≠ .fromArgument := by
  rw [h.precision]
  cases limit with
  | none => exact nofun
  | some => exact nofun

theorem IsWide.argumentCount (h : d.IsWide left width limit) (writer : Writer) :
    d.argumentCount writer = 1 := by
  have hkind : d.kind writer ≠ .unknown := by
    rw [h.kind]
    exact nofun
  rw [Directive.argumentCount, if_neg h.width, if_neg h.precision_ne, if_neg hkind]

/-- A directive of wide text takes it from the arguments. -/
theorem IsWide.expandResolved (h : d.IsWide left width limit) (options : FormatOptions)
    (text : Option (Placed UInt32)) (args : List Argument) :
    d.expandResolved options (.start (.wideText text :: args)) =
      .ok (.field (text.elim (Field.text d Field.nullText)
        fun w => Field.wideText options.encoding d w.elements), ⟨args, 1⟩) := by
  rw [expandResolved_given h.width h.precision_ne, expand, h.kind]
  cases text <;> rfl

/-- The bytes that stand for wide text, or for a null pointer. -/
def wideBytes (enc : Encoding) : Option (Placed UInt32) → List UInt8
  | none => Field.nullText
  | some w => enc.closedText w.elements

/-- A directive of wide text without a precision takes it from the arguments and writes it with
its padding. -/
theorem IsWide.exists_field (h : d.IsWide left width none) (options : FormatOptions)
    {text : Option (Placed UInt32)}
    (htext : ∀ w, text = some w → options.encoding.IsText (w.elements.takeWhile (· ≠ 0)))
    (args : List Argument) :
    ∃ f : Field, d.expandResolved options (.start (.wideText text :: args)) =
        .ok (.field f, ⟨args, 1⟩) ∧ f.failure = none ∧
      f.bytes = Field.padded Field.space left
        (width - (wideBytes options.encoding text).length) (wideBytes options.encoding text) := by
  rw [h.expandResolved, ← h.leftJustify, ← h.minWidth]
  cases text with
  | none => exact ⟨_, rfl, rfl, Field.bytes_text h.precision Field.nullText⟩
  | some w =>
    obtain ⟨hfailure, hbytes⟩ := Field.bytes_wideText h.precision (htext w rfl)
    exact ⟨_, rfl, hfailure, hbytes⟩

end Expanding

end Directive

end FormattedText
