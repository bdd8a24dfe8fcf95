import FormattedText.Proofs.Format.Composition
import FormattedText.Proofs.Format.WideDirective

/-!
# Readable text

A format of plain bytes, percent signs and wide text without a precision gives text of its
encoding. Each part is written as it is alone (`TextPart.exists_written`), and its bytes
lead the decoder back to the initial state (`TextPart.IsReadable.readsAs`), also where the
encoding has escape sequences. So the whole output is decoded to the characters of all
parts in order (`printToMemory_readable`).
-/

namespace FormattedText

open Encoding

/-- A part of a format that gives text of an encoding. -/
inductive TextPart where
  /-- A byte that stands for itself. -/
  | literal (b : UInt8)
  /-- The directive of a percent sign. -/
  | percent
  /-- The directive `%ls`, or `%S` if `capital`, with flags and the digits of a width, and
  the text that it is given; `none` is the null pointer. -/
  | wide (flags : List Flag) (width : List UInt8) (capital : Bool) (text : Option (Placed UInt32))

namespace TextPart

/-- The bytes of a part in the format. -/
def spelling : TextPart → List UInt8
  | literal b => [b]
  | percent => [percentByte, percentByte]
  | wide flags width capital _ =>
      percentByte :: (flags.map Flag.byte ++ (width ++ Directive.wideConversion capital))

/-- The arguments for a part. -/
def arguments : TextPart → List Argument
  | literal _ | percent => []
  | wide _ _ _ text => [.wideText text]

/-- The characters that stand for wide text, or for a null pointer. -/
def wideCharacters : Option (Placed UInt32) → List UInt32
  | none => Field.nullText.map UInt8.toUInt32
  | some w => w.elements.takeWhile (· ≠ 0)

/-- The number of spaces that fill wide text up to its width, which counts bytes. -/
def gap (enc : Encoding) (width : List UInt8) (text : Option (Placed UInt32)) : Nat :=
  decimalValue width - (Directive.wideBytes enc text).length

/-- The output of a part. -/
def bytes (enc : Encoding) : TextPart → List UInt8
  | literal b => [b]
  | percent => [percentByte]
  | wide flags width _ text => Field.padded Field.space (flags.contains .leftJustify)
      (gap enc width text) (Directive.wideBytes enc text)

/-- The characters that the output of a part is to be read as. -/
def characters (enc : Encoding) : TextPart → List UInt32
  | literal b => [b.toUInt32]
  | percent => [percentByte.toUInt32]
  | wide flags width _ text => Field.padded Field.space.toUInt32 (flags.contains .leftJustify)
      (gap enc width text) (wideCharacters text)

/-- A part whose literal byte is plain, or whose width has digits only and whose text has
bytes in the encoding up to its first zero. -/
def IsReadable (enc : Encoding) : TextPart → Prop
  | literal b => enc.IsPlain b ∧ b ≠ percentByte
  | percent => True
  | wide _ width _ text => (∀ b ∈ width, isDigitByte b = true) ∧
      ∀ w, text = some w → enc.IsText (w.elements.takeWhile (· ≠ 0))

section Reading

variable {enc : Encoding} {part : TextPart} {parts : List TextPart}

theorem isPlain_space (enc : Encoding) : enc.IsPlain Field.space :=
  ⟨by decide, by decide, fun _ => by decide⟩

theorem isPlain_nullText (enc : Encoding) : ∀ b ∈ Field.nullText, enc.IsPlain b := by
  have hall : ∀ b ∈ Field.nullText, ByteClass.isAscii b = true ∧ b ≠ 0 ∧ b ≠ ByteClass.escape := by
    decide +kernel
  intro b hb
  obtain ⟨hascii, hzero, hescape⟩ := hall b hb
  exact ⟨hascii, hzero, fun _ => hescape⟩

/-- Spaces on either side of a text are read as spaces. -/
theorem readsAs_padded {text : List UInt8} {cs : List UInt32} (h : enc.ReadsAs text cs)
    (left : Bool) (gap : Nat) :
    enc.ReadsAs (Field.padded Field.space left gap text)
      (Field.padded Field.space.toUInt32 left gap cs) := by
  have hspaces : enc.ReadsAs (List.replicate gap Field.space)
      (List.replicate gap Field.space.toUInt32) := by
    rw [← List.map_replicate]
    refine readsAs_plain fun b hb => ?_
    rw [List.eq_of_mem_replicate hb]
    exact isPlain_space enc
  cases left with
  | true => exact h.append hspaces
  | false => exact hspaces.append h

/-- The output of a part is read as its characters, with the decoder as it began. -/
theorem IsReadable.readsAs (h : part.IsReadable enc) :
    enc.ReadsAs (part.bytes enc) (part.characters enc) := by
  cases part with
  | literal b =>
    have hb : ∀ c ∈ [b], enc.IsPlain c := List.forall_mem_singleton.mpr h.1
    exact readsAs_plain hb
  | percent =>
    have hb : ∀ c ∈ [percentByte], enc.IsPlain c :=
      List.forall_mem_singleton.mpr ⟨by decide, by decide, fun _ => by decide⟩
    exact readsAs_plain hb
  | wide flags width capital text =>
    have htext : enc.ReadsAs (Directive.wideBytes enc text) (wideCharacters text) := by
      cases text with
      | none => exact readsAs_plain (isPlain_nullText enc)
      | some w => exact IsText.readsAs_closedText (h.2 w rfl)
    exact readsAs_padded htext _ _

/-- The output of all parts is read as their characters in order. -/
theorem readsAs_flatMap (h : ∀ part ∈ parts, part.IsReadable enc) :
    enc.ReadsAs (parts.flatMap (bytes enc)) (parts.flatMap (characters enc)) := by
  induction parts with
  | nil => exact readsAs_nil enc
  | cons part parts ih =>
    have hfirst := (h part List.mem_cons_self).readsAs
    have hlater := ih fun p hp => h p (List.mem_cons_of_mem part hp)
    rw [List.flatMap_cons, List.flatMap_cons]
    exact hfirst.append hlater

end Reading

section Spelling

variable {enc : Encoding} {part : TextPart} {parts : List TextPart}

/-- A part of a format does not end it. -/
theorem IsReadable.zero_not_mem (h : part.IsReadable enc) : 0 ∉ part.spelling := by
  cases part with
  | literal b =>
    intro hmem
    exact h.1.2.1 (List.mem_singleton.mp hmem).symm
  | percent => decide
  | wide flags width capital text =>
    intro hmem
    rcases List.mem_cons.mp hmem with hzero | hmem
    · exact absurd hzero (by decide)
    · exact Directive.zero_not_mem_wide flags h.1 none
        (fun _ hd => absurd hd (Option.not_mem_none _)) capital hmem

/-- The literal bytes that a format of parts begins with are a part of the output. -/
theorem length_lead_le (h : ∀ part ∈ parts, part.IsReadable enc) :
    (Format.lead (parts.flatMap spelling)).length ≤ (parts.flatMap (bytes enc)).length := by
  induction parts with
  | nil => exact Nat.le_refl 0
  | cons part parts ih =>
    have hpart := h part List.mem_cons_self
    have hlater := ih fun p hp => h p (List.mem_cons_of_mem part hp)
    rw [List.flatMap_cons, List.flatMap_cons, Format.lead,
      Format.text_append hpart.zero_not_mem, List.length_append]
    cases part with
    | literal b =>
      have hb : decide (b ≠ percentByte) = true := decide_eq_true hpart.2
      rw [spelling, List.singleton_append, List.takeWhile_cons_of_pos (p := (· ≠ percentByte)) hb]
      rw [Format.lead] at hlater
      simp only [List.length_cons, bytes, List.length_nil]
      omega
    | percent => exact Nat.zero_le _
    | wide flags width capital text => exact Nat.zero_le _

end Spelling

section Writing

variable {options : FormatOptions} {part : TextPart} {parts : List TextPart}

/-- A part is one segment, and with its arguments it is written as it should be. -/
structure IsWritten (options : FormatOptions) (args : List Argument) (part : TextPart)
    (segment : Segment) : Prop where
  /-- The part alone is a format of one segment. -/
  parse : Format.parse part.spelling = .ok [segment]
  /-- The segment takes the arguments for the part. -/
  argumentCount : segment.argumentCount options.writer = part.arguments.length
  /-- The output. -/
  bytes : (Rendering.ofFormat options part.spelling (part.arguments ++ args)).bytes =
    part.bytes options.encoding
  /-- The length of the output. -/
  result : (Rendering.ofFormat options part.spelling (part.arguments ++ args)).result =
    .ok (part.bytes options.encoding).length

/-- A part whose only segment is written as a field with its output. -/
theorem isWritten_of_field {args : List Argument} {segment : Segment} {stop : Nat}
    (hitems : Format.items part.spelling = [⟨.ok segment, stop⟩])
    (hcount : segment.argumentCount options.writer = part.arguments.length) {f : Field}
    {rest : Arguments}
    (hsegment : Rendering.ofSegment options 0 (.start (part.arguments ++ args)) segment =
      (Rendering.ofField 0 f, rest))
    (hfailure : f.failure = none) (hbytes : f.bytes = part.bytes options.encoding)
    (hlen : (part.bytes options.encoding).length ≤ Directive.maxMeasure) :
    part.IsWritten options args segment := by
  have hfits : 0 + f.bytes.length ≤ Directive.maxMeasure := by
    rw [Nat.zero_add, hbytes]
    exact hlen
  obtain ⟨hfield, hresult⟩ := Rendering.ofField_all hfailure hfits
  rw [Nat.zero_add, hbytes] at hresult
  have hformat : Rendering.ofFormat options part.spelling (part.arguments ++ args) =
      Rendering.ofField 0 f := by
    rw [Rendering.ofFormat, hitems, Rendering.ofItems_singleton rfl, hsegment]
  refine ⟨?_, hcount, ?_, ?_⟩
  · rw [Format.parse, hitems]
    rfl
  · rw [hformat, hfield, hbytes]
  · rw [hformat, hresult]

/-- A width that is too great to be read is too great for the output. -/
theorem decimalValue_le_length (enc : Encoding) (flags : List Flag) (width : List UInt8)
    (capital : Bool) (text : Option (Placed UInt32)) :
    decimalValue width ≤ ((wide flags width capital text).bytes enc).length := by
  rw [bytes, Field.length_padded, gap]
  omega

/-- A readable part is written as it should be. -/
theorem IsReadable.exists_written (h : part.IsReadable options.encoding)
    (hlen : (part.bytes options.encoding).length ≤ Directive.maxMeasure) (args : List Argument) :
    ∃ segment, part.IsWritten options args segment := by
  have htext : Format.items part.spelling = Format.itemsFrom 0 part.spelling := by
    rw [Format.items, Format.text_eq h.zero_not_mem]
  cases part with
  | literal b =>
    rw [spelling, Format.itemsFrom_literal 0 h.2] at htext
    have hend : Format.itemsFrom (0 + [b].length) [] = [] := Format.itemsFrom_nil _
    exact ⟨.literal [b], isWritten_of_field (htext.trans (congrArg _ hend)) rfl rfl rfl rfl hlen⟩
  | percent =>
    have hparse : Directive.parse [percentByte] =
        .ok (⟨.none, .absent, .absent, .plain, percentByte⟩, []) := rfl
    rw [spelling, Format.itemsFrom_directive 0 hparse, Format.itemsFrom_nil] at htext
    exact ⟨.percent, isWritten_of_field htext rfl rfl rfl rfl hlen⟩
  | wide flags width capital text =>
    have hwidth := Nat.le_trans (decimalValue_le_length _ flags width capital text) hlen
    obtain ⟨d, hwide, hsegment, hparse⟩ :=
      Directive.parse_wide flags h.1 hwidth none (fun _ hd => absurd hd (Option.not_mem_none _))
        (fun _ hd => absurd hd (Option.not_mem_none _)) capital
    rw [Directive.precisionBytes, List.nil_append] at hparse
    obtain ⟨f, hexpand, hfailure, hbytes⟩ := hwide.exists_field options h.2 args
    rw [spelling, Format.itemsFrom_directive 0 hparse, Format.itemsFrom_nil, hsegment] at htext
    have hfield : Rendering.ofSegment options 0 (.start (.wideText text :: args)) (.directive d) =
        (Rendering.ofField 0 f, ⟨args, 1⟩) := by
      rw [Rendering.ofSegment, hexpand]
    exact ⟨.directive d,
      isWritten_of_field htext (hwide.argumentCount _) hfield hfailure hbytes hlen⟩

/-- Parts are written one behind the other. -/
theorem ofFormat_parts (h : ∀ part ∈ parts, part.IsReadable options.encoding)
    (hlen : (parts.flatMap (bytes options.encoding)).length ≤ Directive.maxMeasure) :
    let rendering := Rendering.ofFormat options (parts.flatMap spelling) (parts.flatMap arguments)
    rendering.bytes = parts.flatMap (bytes options.encoding) ∧
      rendering.result = .ok (parts.flatMap (bytes options.encoding)).length := by
  induction parts with
  | nil =>
    have hitems : Format.items [] = [] := Format.itemsFrom_nil 0
    intro rendering
    simp only [rendering, List.flatMap_nil, Rendering.ofFormat, hitems]
    exact ⟨rfl, rfl⟩
  | cons part parts ih =>
    have hpart := h part List.mem_cons_self
    have hlater : ∀ p ∈ parts, p.IsReadable options.encoding :=
      fun p hp => h p (List.mem_cons_of_mem part hp)
    rw [List.flatMap_cons, List.length_append] at hlen
    obtain ⟨segment, hparse, hcount, hbytes, hresult⟩ :=
      hpart.exists_written (by omega) (parts.flatMap arguments)
    obtain ⟨hmore, hend⟩ := ih hlater (by omega)
    have hlead := length_lead_le hlater
    have hskip : (part.arguments ++ parts.flatMap arguments).drop
        (Format.argumentCount options.writer [segment]) = parts.flatMap arguments := by
      rw [Format.argumentCount_cons, hcount]
      exact List.drop_left
    have hjoin := Rendering.ofFormat_append_written (parts.flatMap spelling) hpart.zero_not_mem
      hparse hresult (by omega)
    simp only [hskip, hmore, hend, hbytes] at hjoin
    obtain ⟨hall, hlength, _⟩ := hjoin (by omega)
    simp only [List.flatMap_cons]
    refine ⟨hall, ?_⟩
    rw [hlength, List.length_append]
    rfl

end Writing

end TextPart

/-- Formatted text is readable in its own encoding. A format of plain bytes, percent signs
and wide text without a precision, with any flags and any width, is written to its end, if
the output is not too long to be reported. Decoding the output gives the characters of the
literals, the padding and the texts in order; where the destination has room for more, the
decoder gets to the end of the output and is there in the initial state. -/
theorem printToMemory_readable (options : FormatOptions) {parts : List TextPart}
    (h : ∀ part ∈ parts, part.IsReadable options.encoding)
    (hlen : (parts.flatMap (TextPart.bytes options.encoding)).length ≤ Directive.maxMeasure) :
    let memory := printToMemory options (parts.flatMap TextPart.spelling)
      (parts.flatMap TextPart.arguments)
    let characters := parts.flatMap (TextPart.characters options.encoding)
    memory.sink.content = parts.flatMap (TextPart.bytes options.encoding) ∧
      memory.result = .ok memory.sink.content.length ∧
      ∀ capacity, characters.length ≤ capacity →
        let decoded := options.encoding.decodeWhole capacity memory.sink.content
        decoded.result = .ok characters.length ∧ decoded.stored = characters ∧
          (characters.length < capacity → decoded.cursor = none ∧ decoded.state = .initial) := by
  intro memory characters
  obtain ⟨hcontent, hresult, _⟩ := printToMemory_rendering options (parts.flatMap TextPart.spelling)
    (parts.flatMap TextPart.arguments)
  obtain ⟨hbytes, hend⟩ := TextPart.ofFormat_parts h hlen
  have houtput : memory.sink.content = parts.flatMap (TextPart.bytes options.encoding) :=
    hcontent.trans hbytes
  have hreads := TextPart.readsAs_flatMap h
  refine ⟨houtput, ?_, fun capacity hcapacity => ?_⟩
  · rw [houtput]
    exact hresult.trans hend
  · rw [houtput]
    exact hreads.decodeWhole hcapacity

/-- The format `a%%%9ls%-8S` with a pair and a null pointer: the field of the pair has eight
bytes, six of them for the shifts, so that one space stands before it. -/
theorem printToMemory_readable_shifted :
    let options : FormatOptions := ⟨.full, .jis⟩
    let parts : List TextPart := [.literal 0x61, .percent,
      .wide [] [0x39] false (some ⟨[0x3021, 0, 0x41], 0x1000⟩),
      .wide [.leftJustify] [0x38] true none]
    let memory := printToMemory options (parts.flatMap TextPart.spelling)
      (parts.flatMap TextPart.arguments)
    (∀ part ∈ parts, part.IsReadable .jis) ∧ memory.result = .ok 19 ∧
      (jis.decodeWhole 13 memory.sink.content).stored =
        [0x61, 0x25, 0x20, 0x3021, 0x28, 0x6E, 0x75, 0x6C, 0x6C, 0x29, 0x20, 0x20] ∧
      (jis.decodeWhole 13 memory.sink.content).state = .initial := by
  intro options parts memory
  have hpair : jis.IsText [0x3021] :=
    List.forall_mem_singleton.mpr ⟨rfl, by decide, fun _ => by decide⟩
  have h : ∀ part ∈ parts, part.IsReadable .jis := by
    have hliteral : (TextPart.literal 0x61).IsReadable .jis :=
      ⟨⟨by decide, by decide, fun _ => by decide⟩, by decide⟩
    have hwide :
        (TextPart.wide [] [0x39] false (some ⟨[0x3021, 0, 0x41], 0x1000⟩)).IsReadable .jis := by
      refine ⟨List.forall_mem_singleton.mpr rfl, fun w hw => ?_⟩
      cases hw
      exact hpair
    have hnull : (TextPart.wide [.leftJustify] [0x38] true none).IsReadable .jis :=
      ⟨List.forall_mem_singleton.mpr rfl, fun w hw => (by cases hw)⟩
    simp only [parts, List.forall_mem_cons]
    exact ⟨hliteral, trivial, hwide, hnull, List.forall_mem_nil _⟩
  have hlen : (parts.flatMap (TextPart.bytes .jis)).length = 19 := by decide +kernel
  obtain ⟨hcontent, hresult, hdecoded⟩ := printToMemory_readable options h
    (Nat.le_trans (Nat.le_of_eq hlen) (by decide))
  have hcharacters : parts.flatMap (TextPart.characters .jis) =
      [0x61, 0x25, 0x20, 0x3021, 0x28, 0x6E, 0x75, 0x6C, 0x6C, 0x29, 0x20, 0x20] := by
    decide +kernel
  obtain ⟨_, hstored, hstate⟩ := hdecoded 13 (by rw [hcharacters]; decide)
  refine ⟨h, ?_, hstored.trans hcharacters, (hstate ?_).2⟩
  · exact hresult.trans (congrArg _ ((congrArg _ hcontent).trans hlen))
  · rw [hcharacters]
    decide

end FormattedText
