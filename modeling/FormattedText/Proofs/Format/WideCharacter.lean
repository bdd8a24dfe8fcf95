import FormattedText.Proofs.Format.Single
import FormattedText.Proofs.Format.Spelling
import FormattedText.Proofs.Format.Taken
import FormattedText.Proofs.Format.Unencodable

/-!
# A wide character and a text of one

A wide character is written as its bytes with padding around them; wide text of this one
character is written so too, but it is also brought back to the initial shift. So the two
conversions write the same exactly where the character does not leave the initial shift
(`printWideChar_printWideText`); in the encoding with escape sequences a character of
two bytes does.
-/

namespace FormattedText

open Encoding

namespace Encoding

theorem length_escapeBetween_le (current wanted : Shift) :
    (escapeBetween current wanted).length ≤ 3 := by
  cases current <;> cases wanted <;> decide

/-- Without escape sequences no character leaves the initial shift. -/
theorem shift_of_encode {enc : Encoding} (he : enc.isStateful = false) {wc : UInt32}
    {bytes : List UInt8} {t : ConversionState}
    (h : enc.encode .initial wc = some (bytes, t)) : t.shift = .ascii := by
  rw [((isBetween_initial enc).encode h).initial he]
  rfl

end Encoding

theorem Argument.wideChar?_wideChar (wc : UInt32) : (wideChar wc).wideChar? = some wc := by
  have hlt := wc.toNat_lt
  have hsame : UInt32.ofInt wc.toNat = wc := by
    rw [← UInt32.toNat_inj, UInt32.ofInt, UInt32.toNat_ofNat']
    omega
  exact congrArg some hsame

namespace Directive

variable {options : FormatOptions} {s rest : List UInt8} {d e : Directive}
  {args args' : Arguments}

/-- A width that is read can be met. -/
theorem minWidth_le_of_parse (h : parse s = .ok (d, rest)) : d.minWidth ≤ maxMeasure := by
  obtain ⟨sp, _, rfl, _, hmet⟩ := exists_spelling h
  exact hmet.width

/-- A width that an argument gives can be met. -/
theorem minWidth_le_of_resolveWidth (hd : d.minWidth ≤ maxMeasure)
    (h : d.resolveWidth args = .ok (e, args')) : e.minWidth ≤ maxMeasure := by
  rw [resolveWidth] at h
  split at h
  · obtain ⟨⟨w, args₁⟩, _, h⟩ := exists_of_bind_eq_ok h
    obtain ⟨d₁, hw, h⟩ := exists_of_bind_eq_ok h
    cases h
    rw [withWidth] at hw
    split at hw
    · cases hw
    · rename_i hle
      cases hw
      exact Nat.not_lt.mp hle
  · cases h
    exact hd

/-- Taking a width concerns the flags and the width only. -/
theorem resolveWidth_congr (hflags : e.flags = d.flags) (hwidth : e.width = d.width)
    (args : Arguments) :
    e.resolveWidth args = (d.resolveWidth args).map fun p =>
      ({ e with flags := p.1.flags, width := p.1.width }, p.2) := by
  rw [resolveWidth, resolveWidth, hwidth]
  split
  · cases args.expect (Argument.signed? .plain) with
    | error f => rfl
    | ok p =>
      by_cases hlong : maxMeasure < p.1.natAbs
      · simp only [bind, Except.bind, withWidth, if_pos hlong]
        rfl
      · simp only [bind, Except.bind, withWidth, if_neg hlong, hflags]
        rfl
  · rw [Except.map, ← hflags, ← hwidth]

/-- A width takes its argument before those that follow. -/
theorem resolveWidth_append {stars : List Argument}
    (hstars : stars.length = if d.width = .fromArgument then 1 else 0) (more : List Argument) :
    d.resolveWidth (.start (stars ++ more)) =
      (d.resolveWidth (.start stars)).map fun p => (p.1, ⟨more, stars.length⟩) := by
  have hcount : (if d.width = .fromArgument then 1 else 0) ≤ (Arguments.start stars).rest.length :=
    Nat.le_of_eq hstars.symm
  refine (resolveWidth_followed more hcount).trans ?_
  cases hw : d.resolveWidth (.start stars) with
  | error f => rfl
  | ok p =>
    obtain ⟨_, hleft, _⟩ := resolveWidth_skip hw
    simp only [Except.map, hleft, Arguments.skip, Arguments.start, Arguments.followed, ← hstars,
      List.drop_length, List.nil_append, Nat.zero_add]

end Directive

namespace Field

variable {enc : Encoding} {d : Directive} {wc : UInt32} {bytes : List UInt8}
  {t : ConversionState}

/-- A wide character is its bytes with their padding. -/
theorem bytes_wideChar (h : enc.encode .initial wc = some (bytes, t)) :
    (wideChar enc d wc).failure = none ∧
      (wideChar enc d wc).bytes =
        padded space d.flags.leftJustify (d.minWidth - bytes.length) bytes := by
  rw [wideChar, encodeOne_longest h]
  exact ⟨rfl, bytesOf_layout d bytes⟩

theorem wideChar_refused (h : ¬ enc.Encodable wc) :
    wideChar enc d wc = ⟨[], some .invalidSequence⟩ := by
  simp only [wideChar, encodeOne, encode_eq_none_iff.mpr h]

/-- Text of one character is also brought back to the initial shift. -/
theorem bytes_wideText_single (hd : d.precision? = none) (hwc : wc ≠ 0)
    (h : enc.encode .initial wc = some (bytes, t)) :
    let closed := bytes ++ escapeBetween t.shift .ascii
    (wideText enc d [wc]).failure = none ∧
      (wideText enc d [wc]).bytes =
        padded space d.flags.leftJustify (d.minWidth - closed.length) closed := by
  intro closed
  have hwrites : enc.Writes .initial [wc] bytes t := by
    have hall := Writes.cons h (.nil t)
    rwa [List.append_nil] at hall
  have hzero : 0 ∉ [wc] := fun hmem => hwc (List.mem_singleton.mp hmem).symm
  have hcut : CutsAt enc none [wc] [wc] bytes t [] none :=
    ⟨(List.append_nil _).symm, hzero, hwrites, rfl, .drained⟩
  obtain ⟨hfailure, hbytes⟩ := hcut.widePieces
  exact bytes_wideText_within hd hcut.measureWide hfailure hbytes

theorem wideText_single_refused (hd : d.precision? = none) (h : ¬ enc.Encodable wc) :
    (wideText enc d [wc]).failure = some .invalidSequence ∧ (wideText enc d [wc]).bytes = [] := by
  have hroom : hasRoomFor none 1 = true := rfl
  obtain ⟨t, hcut⟩ := exists_cutsAt_refused (w := [wc]) (k := 0)
    (fun c hc => absurd hc List.not_mem_nil) rfl h hroom
  obtain ⟨hfailure, hpieces⟩ := hcut.widePieces
  obtain ⟨hfailure, hbytes⟩ := failure_wideText_within hd hcut.measureWide hfailure
  refine ⟨hfailure, hbytes.trans ?_⟩
  rw [hpieces]
  exact ite_self []

/-- Padding is none of the text. -/
theorem count_padded {α : Type} [BEq α] [LawfulBEq α] {fill a : α} (h : fill ≠ a)
    (leftJustify : Bool) (gap : Nat) (text : List α) :
    (padded fill leftJustify gap text).count a = text.count a := by
  have hfill : (List.replicate gap fill).count a = 0 :=
    List.count_eq_zero.mpr fun hmem => h (List.eq_of_mem_replicate hmem).symm
  cases leftJustify with
  | true => rw [padded, if_pos rfl, List.count_append, hfill, Nat.add_zero]
  | false => rw [padded, if_neg Bool.false_ne_true, List.count_append, hfill, Nat.zero_add]

/-- A text and the way back behind it are the same with their padding only where there is no way
back: its escape character is one more. -/
theorem padded_escape_eq_iff (leftJustify : Bool) (width : Nat) (bytes : List UInt8)
    (shift : Shift) :
    let closed := bytes ++ escapeBetween shift .ascii
    padded space leftJustify (width - bytes.length) bytes =
        padded space leftJustify (width - closed.length) closed ↔ shift = .ascii := by
  intro closed
  constructor
  · intro heq
    have hcount := congrArg (List.count ByteClass.escape) heq
    rw [count_padded (by decide), count_padded (by decide), List.count_append] at hcount
    cases shift with
    | ascii => rfl
    | jis0208 =>
      have hone : (escapeBetween .jis0208 .ascii).count ByteClass.escape = 1 := by decide
      omega
  · rintro rfl
    have hclosed : closed = bytes := List.append_nil bytes
    rw [hclosed]

end Field

namespace Rendering

variable {options : FormatOptions} {s : List UInt8} {d d' : Directive} {args : List Argument}
  {left left' : Arguments} {f : Field}

/-- A format of one directive without a precision that writes a field is rendered as the field. -/
theorem ofFormat_field (hzero : 0 ∉ s) (hparse : Directive.parse s = .ok (d, []))
    (hkind : d.kind options.writer ≠ .unknown) (hprecision : d'.precision ≠ .fromArgument)
    (hwidth : d.resolveWidth (.start args) = .ok (d', left))
    (hexpand : d'.expand options left = .ok (.field f, left')) :
    ofFormat options (percentByte :: s) args = ofField 0 f := by
  have hresolve : d.resolve (.start args) = .ok (d', left) := by
    rw [Directive.resolve, hwidth]
    exact if_neg hprecision
  rw [ofFormat_directive hzero hparse hkind, ofSegment,
    Directive.expandResolved_of_resolve options hresolve, hexpand]

/-- A format of one directive fails where its width cannot be taken. -/
theorem ofFormat_of_unresolved {e : Failure} (hzero : 0 ∉ s)
    (hparse : Directive.parse s = .ok (d, [])) (hkind : d.kind options.writer ≠ .unknown)
    (hwidth : d.resolveWidth (.start args) = .error e) :
    ofFormat options (percentByte :: s) args = ⟨[], .error e⟩ := by
  have hresolve : d.expandResolved options (.start args) = .error e := by
    rw [Directive.expandResolved, hwidth]
    rfl
  rw [ofFormat_directive hzero hparse hkind, ofSegment, hresolve]

end Rendering

/-- A wide character and a text of it: two directives with the same flags and the same width, and
without a precision. -/
structure WidePair (writer : Writer) (char text : List UInt8) (dc dt : Directive) : Prop where
  /-- The formats do not end before the conversions. -/
  zero_not_mem : 0 ∉ char ∧ 0 ∉ text
  /-- The first directive. -/
  parse_char : Directive.parse char = .ok (dc, [])
  /-- The second directive. -/
  parse_text : Directive.parse text = .ok (dt, [])
  /-- The first converts a wide character. -/
  kind_char : dc.kind writer = .wideChar
  /-- The second converts wide text. -/
  kind_text : dt.kind writer = .wideText
  /-- The flags are the same. -/
  flags : dt.flags = dc.flags
  /-- The widths are the same. -/
  width : dt.width = dc.width
  /-- There is no precision. -/
  precision : dc.precision = .absent ∧ dt.precision = .absent

/-- The print of a wide character behind the argument of its width. -/
def printWideChar (options : FormatOptions) (char : List UInt8) (stars : List Argument)
    (wc : UInt32) : Delivered GrowableBuffer :=
  printToMemory options (percentByte :: char) (stars ++ [.wideChar wc])

/-- The print of wide text behind the argument of its width. -/
def printWideText (options : FormatOptions) (text : List UInt8) (stars : List Argument)
    (w : Placed UInt32) : Delivered GrowableBuffer :=
  printToMemory options (percentByte :: text) (stars ++ [.wideText (some w)])

section Printing

variable {options : FormatOptions} {format : List UInt8} {args : List Argument} {f : Field}
  {e : Failure}

/-- What is printed of a field that fails before anything is written. -/
theorem printToMemory_refused
    (h : Rendering.ofFormat options format args = Rendering.ofField 0 f)
    (hfailure : f.failure = some e) (hbytes : f.bytes = []) :
    (printToMemory options format args).Gives (.error e) [] := by
  have hfits : 0 + f.bytes.length ≤ Directive.maxMeasure := by
    rw [hbytes]
    exact Nat.zero_le _
  obtain ⟨hcontent, hresult⟩ := Rendering.ofField_failed hfailure hfits
  have hgives := printToMemory_gives h
  rw [hcontent, hresult, hbytes] at hgives
  exact hgives

/-- What is printed of a text that is padded to a width. -/
theorem printToMemory_padded {leftJustify : Bool} {width : Nat} {bytes : List UInt8}
    (h : Rendering.ofFormat options format args = Rendering.ofField 0 f)
    (hfailure : f.failure = none)
    (hbytes : f.bytes = Field.padded Field.space leftJustify (width - bytes.length) bytes)
    (hwidth : width ≤ Directive.maxMeasure) (hlength : bytes.length ≤ Directive.maxMeasure) :
    (printToMemory options format args).Gives (.ok (max width bytes.length))
      (Field.padded Field.space leftJustify (width - bytes.length) bytes) := by
  have hpadded : f.bytes.length = max width bytes.length := by
    rw [hbytes, Field.length_padded, Nat.sub_add_eq_max]
  have hfits : 0 + f.bytes.length ≤ Directive.maxMeasure := by
    rw [Nat.zero_add, hpadded]
    exact Nat.max_le.mpr ⟨hwidth, hlength⟩
  obtain ⟨hcontent, hresult⟩ := Rendering.ofField_all hfailure hfits
  have hgives := printToMemory_gives h
  rw [hcontent, hresult, Nat.zero_add, hpadded, hbytes] at hgives
  exact hgives

end Printing

namespace WidePair

variable {options : FormatOptions} {char text : List UInt8} {dc dt d : Directive}
  {stars : List Argument} {left : Arguments} {wc : UInt32} {place : UInt64}

theorem known (h : WidePair options.writer char text dc dt) :
    dc.kind options.writer ≠ .unknown ∧ dt.kind options.writer ≠ .unknown := by
  rw [h.kind_char, h.kind_text]
  exact ⟨nofun, nofun⟩

/-- A width that cannot be taken fails alike in both. -/
theorem gives_unresolved (h : WidePair options.writer char text dc dt)
    (hstars : stars.length = if dc.width = .fromArgument then 1 else 0) {e : Failure}
    (hd : dc.resolveWidth (.start stars) = .error e) (wc : UInt32) (place : UInt64) :
    (printWideChar options char stars wc).Gives (.error e) [] ∧
      (printWideText options text stars ⟨[wc], place⟩).Gives (.error e) [] := by
  have hchar := Directive.resolveWidth_append hstars [.wideChar wc]
  have htext := Directive.resolveWidth_append hstars [.wideText (some ⟨[wc], place⟩)]
  have hother := Directive.resolveWidth_congr h.flags h.width
    (.start (stars ++ [.wideText (some ⟨[wc], place⟩)]))
  rw [hd] at hchar htext
  rw [htext] at hother
  constructor
  · exact printToMemory_gives
      (Rendering.ofFormat_of_unresolved h.zero_not_mem.1 h.parse_char h.known.1 hchar)
  · exact printToMemory_gives
      (Rendering.ofFormat_of_unresolved h.zero_not_mem.2 h.parse_text h.known.2 hother)

/-- Both conversions are rendered as their fields. -/
theorem ofFormat (h : WidePair options.writer char text dc dt)
    (hstars : stars.length = if dc.width = .fromArgument then 1 else 0)
    (hd : dc.resolveWidth (.start stars) = .ok (d, left)) (wc : UInt32) (place : UInt64) :
    let dt' : Directive := { dt with flags := d.flags, width := d.width }
    Rendering.ofFormat options (percentByte :: char) (stars ++ [.wideChar wc]) =
        Rendering.ofField 0 (Field.wideChar options.encoding d wc) ∧
      Rendering.ofFormat options (percentByte :: text) (stars ++ [.wideText (some ⟨[wc], place⟩)]) =
        Rendering.ofField 0 (Field.wideText options.encoding dt' [wc]) := by
  intro dt'
  have hchar := Directive.resolveWidth_append hstars [.wideChar wc]
  have htext := Directive.resolveWidth_append hstars [.wideText (some ⟨[wc], place⟩)]
  have hother := Directive.resolveWidth_congr h.flags h.width
    (.start (stars ++ [.wideText (some ⟨[wc], place⟩)]))
  rw [hd] at hchar htext
  rw [htext] at hother
  obtain ⟨⟨hprecision, hlength, hconversion⟩, _⟩ := Directive.resolveWidth_skip hd
  have hkind : d.kind options.writer = .wideChar :=
    (Directive.kind_congr _ ⟨hlength, hconversion⟩).trans h.kind_char
  have hkind' : dt'.kind options.writer = .wideText := h.kind_text
  have hexpand : d.expand options ⟨[.wideChar wc], stars.length⟩ =
      .ok (.field (Field.wideChar options.encoding d wc), ⟨[], stars.length + 1⟩) := by
    simp only [Directive.expand, hkind, Arguments.expect, Arguments.take,
      Argument.wideChar?_wideChar]
    rfl
  have hexpand' : dt'.expand options ⟨[.wideText (some ⟨[wc], place⟩)], stars.length⟩ =
      .ok (.field (Field.wideText options.encoding dt' [wc]), ⟨[], stars.length + 1⟩) := by
    rw [Directive.expand, hkind']
    rfl
  constructor
  · refine Rendering.ofFormat_field h.zero_not_mem.1 h.parse_char h.known.1 ?_ hchar hexpand
    rw [hprecision, h.precision.1]
    exact fun hstar => (by cases hstar)
  · refine Rendering.ofFormat_field h.zero_not_mem.2 h.parse_text h.known.2 ?_ hother hexpand'
    rw [h.precision.2]
    exact fun hstar => (by cases hstar)

/-- A character without bytes fails alike in both. -/
theorem gives_refused (h : WidePair options.writer char text dc dt)
    (hstars : stars.length = if dc.width = .fromArgument then 1 else 0)
    (hd : dc.resolveWidth (.start stars) = .ok (d, left))
    (hbad : ¬ options.encoding.Encodable wc) :
    (printWideChar options char stars wc).Gives (.error .invalidSequence) [] ∧
      (printWideText options text stars ⟨[wc], place⟩).Gives (.error .invalidSequence) [] := by
  obtain ⟨hchar, htext⟩ := h.ofFormat hstars hd wc place
  rw [Field.wideChar_refused hbad] at hchar
  have hprecision : dt.precision? = none := congrArg Measure.value? h.precision.2
  obtain ⟨hfailure, hbytes⟩ := Field.wideText_single_refused
    (d := { dt with flags := d.flags, width := d.width }) hprecision hbad
  exact ⟨printToMemory_refused hchar rfl rfl, printToMemory_refused htext hfailure hbytes⟩

/-- The character is written as its bytes, the text also leads back to the initial shift. -/
theorem gives_written (h : WidePair options.writer char text dc dt)
    (hstars : stars.length = if dc.width = .fromArgument then 1 else 0)
    (hd : dc.resolveWidth (.start stars) = .ok (d, left)) (hwc : wc ≠ 0) {bytes : List UInt8}
    {t : ConversionState} (he : options.encoding.encode .initial wc = some (bytes, t)) :
    let closed := bytes ++ escapeBetween t.shift .ascii
    let padded (shown : List UInt8) :=
      Field.padded Field.space d.flags.leftJustify (d.minWidth - shown.length) shown
    (printWideChar options char stars wc).Gives (.ok (max d.minWidth bytes.length))
        (padded bytes) ∧
      (printWideText options text stars ⟨[wc], place⟩).Gives (.ok (max d.minWidth closed.length))
        (padded closed) := by
  intro closed padded
  obtain ⟨hchar, htext⟩ := h.ofFormat hstars hd wc place
  have hwidth : d.minWidth ≤ Directive.maxMeasure :=
    Directive.minWidth_le_of_resolveWidth (Directive.minWidth_le_of_parse h.parse_char) hd
  have hbytes : bytes.length ≤ longestCharacter :=
    Nat.le_trans (length_of_encode he).2 (maxCharacterLength_le _)
  have hclosed : closed.length ≤ longestCharacter + 3 := by
    rw [List.length_append]
    exact Nat.add_le_add hbytes (length_escapeBetween_le _ _)
  have hlong : longestCharacter + 3 ≤ Directive.maxMeasure := by decide
  have hprecision : dt.precision? = none := congrArg Measure.value? h.precision.2
  constructor
  · obtain ⟨hfailure, hshown⟩ := Field.bytes_wideChar (d := d) he
    exact printToMemory_padded hchar hfailure hshown hwidth (by omega)
  · obtain ⟨hfailure, hshown⟩ := Field.bytes_wideText_single
      (d := { dt with flags := d.flags, width := d.width }) hprecision hwc he
    exact printToMemory_padded htext hfailure hshown hwidth (by omega)

/-- The two give the same exactly where the character does not leave the initial shift. -/
theorem agrees_iff (h : WidePair options.writer char text dc dt)
    (hstars : stars.length = if dc.width = .fromArgument then 1 else 0)
    (hd : dc.resolveWidth (.start stars) = .ok (d, left)) (hwc : wc ≠ 0) {bytes : List UInt8}
    {t : ConversionState} (he : options.encoding.encode .initial wc = some (bytes, t)) :
    (printWideChar options char stars wc).Agrees (printWideText options text stars ⟨[wc], place⟩) ↔
      t.shift = .ascii := by
  obtain ⟨hchar, htext⟩ := h.gives_written hstars hd hwc he
  constructor
  · intro hsame
    refine (Field.padded_escape_eq_iff d.flags.leftJustify d.minWidth bytes t.shift).mp ?_
    exact hchar.2.symm.trans (hsame.2.trans htext.2)
  · intro hshift
    have hclosed : bytes ++ escapeBetween t.shift .ascii = bytes := by
      rw [hshift]
      exact List.append_nil bytes
    rw [hclosed] at htext
    exact hchar.agrees htext

/-- Without escape sequences the two always give the same. -/
theorem agrees_of_stateless (h : WidePair options.writer char text dc dt)
    (hstars : stars.length = if dc.width = .fromArgument then 1 else 0) (hwc : wc ≠ 0)
    (hstateless : options.encoding.isStateful = false) :
    (printWideChar options char stars wc).Agrees
      (printWideText options text stars ⟨[wc], place⟩) := by
  cases hd : dc.resolveWidth (.start stars) with
  | error e =>
    obtain ⟨hchar, htext⟩ := h.gives_unresolved hstars hd wc place
    exact hchar.agrees htext
  | ok p =>
    cases he : options.encoding.encode .initial wc with
    | none =>
      have hbad : ¬ options.encoding.Encodable wc := by
        rw [Encoding.Encodable, he]
        exact Bool.false_ne_true
      obtain ⟨hchar, htext⟩ := h.gives_refused hstars hd hbad
      exact hchar.agrees htext
    | some form => exact (h.agrees_iff hstars hd hwc he).mpr (shift_of_encode hstateless he)

end WidePair

/-- A wide character and wide text of it, in directives with the same flags and the same width and
without a precision. Both fail alike where the width cannot be taken or the character has no
bytes, and in an encoding without escape sequences they always give the same. Otherwise the
character is its bytes, and the text is these bytes and the way back to the initial shift, each
with its padding: they give the same exactly where the character does not leave the initial
shift. -/
theorem printWideChar_printWideText {options : FormatOptions} {char text : List UInt8}
    {dc dt : Directive} (h : WidePair options.writer char text dc dt) {stars : List Argument}
    (hstars : stars.length = if dc.width = .fromArgument then 1 else 0) {wc : UInt32}
    (hwc : wc ≠ 0) (place : UInt64) :
    let asChar := printWideChar options char stars wc
    let asText := printWideText options text stars ⟨[wc], place⟩
    (options.encoding.isStateful = false → asChar.Agrees asText) ∧
    (∀ e, dc.resolveWidth (.start stars) = .error e →
      asChar.Gives (.error e) [] ∧ asText.Gives (.error e) []) ∧
    ∀ d left, dc.resolveWidth (.start stars) = .ok (d, left) →
      (¬ options.encoding.Encodable wc →
        asChar.Gives (.error .invalidSequence) [] ∧ asText.Gives (.error .invalidSequence) []) ∧
      ∀ bytes t, options.encoding.encode .initial wc = some (bytes, t) →
        let closed := bytes ++ escapeBetween t.shift .ascii
        let padded (shown : List UInt8) :=
          Field.padded Field.space d.flags.leftJustify (d.minWidth - shown.length) shown
        asChar.Gives (.ok (max d.minWidth bytes.length)) (padded bytes) ∧
        asText.Gives (.ok (max d.minWidth closed.length)) (padded closed) ∧
        (asChar.Agrees asText ↔ t.shift = .ascii) := by
  intro asChar asText
  refine ⟨h.agrees_of_stateless hstars hwc, fun e he => h.gives_unresolved hstars he wc place,
    fun d left hd => ⟨h.gives_refused hstars hd, fun bytes t he => ?_⟩⟩
  obtain ⟨hchar, htext⟩ := h.gives_written hstars hd hwc he
  exact ⟨hchar, htext, h.agrees_iff hstars hd hwc he⟩

/-- A pair in twelve columns, left justified: as a character it stays in its shift, and the blanks
behind it are no blanks there; as text it is brought back before them. -/
theorem printWideChar_printWideText_shifted :
    let options : FormatOptions := ⟨.full, .jis⟩
    let directive (conversion : UInt8) : List UInt8 := [0x2D, 0x2A, 0x6C, conversion]
    let asChar := printWideChar options (directive 0x63) [.int 12] 0x3021
    let asText := printWideText options (directive 0x73) [.int 12] ⟨[0x3021], 0x1000⟩
    asChar.Gives (.ok 12) ([0x1B, 0x24, 0x42, 0x30, 0x21] ++ List.replicate 7 0x20) ∧
      asText.Gives (.ok 12)
        ([0x1B, 0x24, 0x42, 0x30, 0x21, 0x1B, 0x28, 0x42] ++ List.replicate 4 0x20) := by
  intro options directive asChar asText
  let spelled (conversion : UInt8) : Directive :=
    ⟨Flags.none.set .leftJustify, .fromArgument, .absent, .long, conversion⟩
  have hpair : WidePair .full (directive 0x63) (directive 0x73) (spelled 0x63) (spelled 0x73) :=
    ⟨by decide, rfl, rfl, rfl, rfl, rfl, rfl, rfl, rfl⟩
  have hd : (spelled 0x63).resolveWidth (.start [.int 12]) =
      .ok (⟨Flags.none.set .leftJustify, .fixed 12, .absent, .long, 0x63⟩, ⟨[], 1⟩) := rfl
  obtain ⟨_, _, hwritten⟩ := @printWideChar_printWideText options _ _ _ _ hpair [.int 12] rfl
    0x3021 (by decide) 0x1000
  obtain ⟨hchar, htext, _⟩ := (hwritten _ _ hd).2 _ _ rfl
  exact ⟨hchar, htext⟩

/-- The same pair without a width: the character alone leaves the output in its shift. -/
theorem printWideChar_leaves_shift :
    ¬ (printWideChar ⟨.full, .jis⟩ [0x6C, 0x63] [] 0x3021).Agrees
        (printWideText ⟨.full, .jis⟩ [0x6C, 0x73] [] ⟨[0x3021], 0x1000⟩) := by
  intro hsame
  exact absurd hsame.2 (by decide +kernel)

end FormattedText
