import FormattedText.Proofs.Delivery
import FormattedText.Proofs.Format.Reached
import FormattedText.Proofs.Format.WideDirective

/-!
# Wide text has one length

A directive of wide text with a width and a precision is one field. What pads it on its left
is computed from the number of bytes that was measured before anything is written; what pads
it on its right, from the number of bytes that were written. The two numbers agree, so the
output has as many bytes as the width or the text, whichever is more
(`printToMemory_measuredAsWritten`).
-/

namespace FormattedText

open Encoding

/-- A directive of wide text as it is spelled: `%ls`, or `%S` if `capital`, with flags, the
digits of a width, and a point with the digits of a precision. -/
structure WideSpelling where
  /-- The flags in the order in which they are spelled. -/
  flags : List Flag
  /-- The digits of the width; none without a width. -/
  width : List UInt8
  /-- The digits of the precision. -/
  precision : Option (List UInt8)
  /-- Is the conversion spelled with a capital letter? -/
  capital : Bool
  /-- The width has digits only. -/
  width_digits : ∀ b ∈ width, isDigitByte b = true
  /-- The precision has digits only. -/
  precision_digits : ∀ digits ∈ precision, ∀ b ∈ digits, isDigitByte b = true
  /-- The precision can be met. -/
  precision_le : ∀ digits ∈ precision, decimalValue digits ≤ Directive.maxMeasure

namespace WideSpelling

/-- The format that has the directive and nothing else. -/
def format (spelling : WideSpelling) : List UInt8 :=
  percentByte :: (spelling.flags.map Flag.byte ++ (spelling.width ++
    (Directive.precisionBytes spelling.precision ++ Directive.wideConversion spelling.capital)))

/-- The width. -/
def minWidth (spelling : WideSpelling) : Nat := decimalValue spelling.width

/-- The precision, as the limit of the bytes of the text. -/
def limit (spelling : WideSpelling) : Option Nat := spelling.precision.map decimalValue

/-- Does the padding follow the text? -/
def leftJustify (spelling : WideSpelling) : Bool := spelling.flags.contains .leftJustify

section Printing

variable {options : FormatOptions} {spelling : WideSpelling} {w : List UInt32}
  {text : List UInt8} {place : UInt64}

/-- The format is rendered as the field of its directive. -/
theorem exists_ofFormat (spelling : WideSpelling) (options : FormatOptions)
    (hwidth : spelling.minWidth ≤ Directive.maxMeasure) (w : List UInt32) (place : UInt64) :
    ∃ d : Directive, d.IsWide spelling.leftJustify spelling.minWidth spelling.limit ∧
      Rendering.ofFormat options spelling.format [.wideText (some ⟨w, place⟩)] =
        Rendering.ofField 0 (Field.wideText options.encoding d w) := by
  obtain ⟨d, hwide, _, hparse⟩ := Directive.parse_wide spelling.flags spelling.width_digits
    hwidth spelling.precision spelling.precision_digits spelling.precision_le spelling.capital
  have hzero := Directive.zero_not_mem_wide spelling.flags spelling.width_digits
    spelling.precision spelling.precision_digits spelling.capital
  have hkind : d.kind options.writer ≠ .unknown := by
    rw [hwide.kind]
    exact nofun
  refine ⟨d, hwide, ?_⟩
  rw [format, Rendering.ofFormat_directive hzero hparse hkind, Rendering.ofSegment,
    hwide.expandResolved]
  rfl

/-- Text that can be written is printed with its padding. -/
theorem printToMemory_written (hlen : max spelling.minWidth text.length ≤ Directive.maxMeasure)
    (hmeasured : Field.measureWide options.encoding spelling.limit w = .ok text.length)
    (hfailure : (Field.widePieces options.encoding spelling.limit w).failure = none)
    (hbytes : (Field.widePieces options.encoding spelling.limit w).bytes = text) :
    let printed := printToMemory options spelling.format [.wideText (some ⟨w, place⟩)]
    printed.sink.content = Field.padded Field.space spelling.leftJustify
        (spelling.minWidth - text.length) text ∧
      printed.result = .ok (max spelling.minWidth text.length) := by
  intro printed
  obtain ⟨d, hwide, hformat⟩ := spelling.exists_ofFormat options (Nat.le_trans
    (Nat.le_max_left _ _) hlen) w place
  obtain ⟨hfailure, hbytes⟩ :=
    Field.bytes_wideText_within hwide.precision? hmeasured hfailure hbytes
  rw [hwide.leftJustify, hwide.minWidth] at hbytes
  have hlength : (Field.wideText options.encoding d w).bytes.length =
      max spelling.minWidth text.length := by
    rw [hbytes, Field.length_padded, Nat.sub_add_eq_max]
  have hfits : 0 + (Field.wideText options.encoding d w).bytes.length ≤ Directive.maxMeasure := by
    rw [Nat.zero_add, hlength]
    exact hlen
  obtain ⟨hfield, hcounted⟩ := Rendering.ofField_all hfailure hfits
  obtain ⟨hcontent, hresult, _⟩ :=
    printToMemory_rendering options spelling.format [.wideText (some ⟨w, place⟩)]
  rw [hformat] at hcontent hresult
  refine ⟨hcontent.trans (hfield.trans hbytes), ?_⟩
  rw [hresult, hcounted, Nat.zero_add, hlength]

/-- Printing text that cannot be written to its end fails. -/
theorem printToMemory_refused {e : Failure}
    (hlen : max spelling.minWidth text.length ≤ Directive.maxMeasure)
    (hmeasured : Field.measureWide options.encoding spelling.limit w = .error e)
    (hfailure : (Field.widePieces options.encoding spelling.limit w).failure = some e)
    (hbytes : (Field.widePieces options.encoding spelling.limit w).bytes = text) :
    (printToMemory options spelling.format [.wideText (some ⟨w, place⟩)]).result = .error e := by
  obtain ⟨d, hwide, hformat⟩ := spelling.exists_ofFormat options (Nat.le_trans
    (Nat.le_max_left _ _) hlen) w place
  obtain ⟨hfailure, hshown⟩ :=
    Field.failure_wideText_within hwide.precision? hmeasured hfailure
  have hfits : 0 + (Field.wideText options.encoding d w).bytes.length ≤ Directive.maxMeasure := by
    rw [Nat.zero_add, hshown, hbytes]
    split
    · exact Nat.zero_le _
    · exact Nat.le_trans (Nat.le_max_right _ _) hlen
  obtain ⟨_, hresult, _⟩ :=
    printToMemory_rendering options spelling.format [.wideText (some ⟨w, place⟩)]
  rw [hformat] at hresult
  rw [hresult, (Rendering.ofField_failed hfailure hfits).2]

end Printing

end WideSpelling

/-- Wide text has one length. For every encoding, text and limit there is a longest part of
the text that fits whole; measuring finds the number of its bytes, closed as far as there is
room, and writing writes those bytes, or both fail, exactly where the part ends before a
character without bytes and below the limit. So a field with that precision has as many bytes
as its width or the text, whichever is more, and a directive prints them, if they are not too
many to be reported. -/
theorem printToMemory_measuredAsWritten (enc : Encoding) (limit : Option Nat)
    (w : List UInt32) :
    ∃ taken bytes t, Field.MeasuredAsWritten enc limit w taken bytes t ∧
      let text := Field.closedWithin limit bytes t
      let refuses := Field.Refuses enc limit w taken bytes t
      (∀ d : Directive, d.precision? = limit → ¬ refuses →
        (Field.wideText enc d w).failure = none ∧
        (Field.wideText enc d w).bytes.length = max d.minWidth text.length) ∧
      ∀ (options : FormatOptions) (spelling : WideSpelling) (place : UInt64),
        options.encoding = enc → spelling.limit = limit →
        max spelling.minWidth text.length ≤ Directive.maxMeasure →
        let printed := printToMemory options spelling.format [.wideText (some ⟨w, place⟩)]
        (refuses → printed.result = .error .invalidSequence) ∧
        (¬ refuses → printed.result = .ok (max spelling.minWidth text.length) ∧
          printed.sink.content = Field.padded Field.space spelling.leftJustify
            (spelling.minWidth - text.length) text ∧
          printed.sink.content.length = max spelling.minWidth text.length) := by
  obtain ⟨taken, bytes, t, h⟩ := Field.exists_measuredAsWritten enc limit w
  refine ⟨taken, bytes, t, h, ?_⟩
  intro text refuses
  constructor
  · intro d hd hnot
    obtain ⟨hmeasured, hfailure, hbytes⟩ := h.written hnot
    obtain ⟨hfailure, hbytes⟩ := Field.bytes_wideText_within hd hmeasured hfailure hbytes
    refine ⟨hfailure, ?_⟩
    rw [hbytes, Field.length_padded, Nat.sub_add_eq_max]
  · rintro options spelling place rfl rfl hlen printed
    constructor
    · intro hrefuses
      obtain ⟨hmeasured, hfailure, hbytes⟩ := h.refused hrefuses
      have hle : bytes.length ≤ text.length := Field.length_le_closedWithin spelling.limit bytes t
      refine WideSpelling.printToMemory_refused (Nat.le_trans ?_ hlen) hmeasured hfailure hbytes
      omega
    · intro hnot
      obtain ⟨hmeasured, hfailure, hbytes⟩ := h.written hnot
      obtain ⟨hcontent, hresult⟩ :=
        WideSpelling.printToMemory_written hlen hmeasured hfailure hbytes
      refine ⟨hresult, hcontent, ?_⟩
      rw [hcontent, Field.length_padded, Nat.sub_add_eq_max]

/-- A pair and a letter in eight bytes and the width ten, the format `%-10.8ls`: the letter
does not fit behind the pair, but the way back to the initial shift does. -/
theorem printToMemory_measuredAsWritten_shifted :
    let spelling : WideSpelling := ⟨[.leftJustify], [0x31, 0x30], some [0x38], false,
      List.forall_mem_cons.mpr ⟨rfl, List.forall_mem_singleton.mpr rfl⟩,
      fun _ hdigits => Option.some.inj hdigits ▸ List.forall_mem_singleton.mpr rfl,
      fun _ hdigits => Option.some.inj hdigits ▸ (by decide)⟩
    let printed := printToMemory ⟨.full, .jis⟩ spelling.format
      [.wideText (some ⟨[0x3021, 0x41], 0x1000⟩)]
    Field.measureWide .jis (some 8) [0x3021, 0x41] = .ok 8 ∧ printed.result = .ok 10 ∧
      printed.sink.content.length = 10 := by
  intro spelling printed
  obtain ⟨taken, bytes, t, h, _, hprinted⟩ :=
    printToMemory_measuredAsWritten .jis (some 8) [0x3021, 0x41]
  have hmeasured : Field.measureWide .jis (some 8) [0x3021, 0x41] = .ok 8 := rfl
  have hnot : ¬ Field.Refuses .jis (some 8) [0x3021, 0x41] taken bytes t := by
    intro hrefuses
    rw [(h.refused hrefuses).1] at hmeasured
    cases hmeasured
  have hlength : (Field.closedWithin (some 8) bytes t).length = 8 := by
    rw [(h.written hnot).1] at hmeasured
    exact Except.ok.inj hmeasured
  obtain ⟨hresult, _, hcount⟩ :=
    (hprinted ⟨.full, .jis⟩ spelling 0x1000 rfl rfl (by rw [hlength]; decide)).2 hnot
  rw [hlength] at hresult hcount
  exact ⟨hmeasured, hresult, hcount⟩

end FormattedText
