import FormattedText.Proofs.Field.WideText
import FormattedText.Proofs.Format.Reached
import FormattedText.Proofs.Sink.Termination

/-!
# Characters without bytes

A wide string is cut at the first character that its encoding has no bytes for, wherever the
blocks end in which it is written (`Field.exists_cutsAt_refused`). A print that comes to the
conversion of such a string fails there (`Format.Reaches.ofFormat_failed`): what stands before
is left, then the characters before the bad one or, with padding on the left, nothing, and
every memory sink is terminated behind that (`Format.Reaches.formatInto_unencodable`).
-/

namespace FormattedText

open Encoding

section Characters

variable {enc : Encoding} {w : List UInt32} {wc : UInt32} {k : Nat} {bytes : List UInt8}
  {s t : ConversionState}

/-- Encoding a text without a bound gives the bytes that are written for it. -/
theorem Encoding.Writes.converted_encodeAll (h : enc.Writes s w bytes t) (hw : 0 ∉ w) :
    (enc.encodeAll none s w).converted = bytes := by
  have hroom : hasRoomFor none bytes.length = true := rfl
  have hall := h.encodeAll_append hw hroom []
  rw [List.append_nil] at hall
  rw [hall]
  exact List.append_nil bytes

/-- A text is cut before its first character without bytes, if the limit is not reached there. -/
theorem Field.exists_cutsAt_refused {limit : Option Nat}
    (hgood : ∀ c ∈ w.take k, c ≠ 0 ∧ enc.Encodable c) (hk : w[k]? = some wc)
    (hbad : ¬ enc.Encodable wc)
    (hroom : hasRoomFor limit ((enc.encodeAll none .initial (w.take k)).converted.length + 1) =
      true) :
    ∃ t, CutsAt enc limit w (w.take k) (enc.encodeAll none .initial (w.take k)).converted t
      (wc :: w.drop (k + 1)) (some .invalidSequence) := by
  have hzero : 0 ∉ w.take k := fun hmem => (hgood 0 hmem).1 rfl
  obtain ⟨bytes, t, hwrites⟩ := exists_writes (fun c hc => (hgood c hc).2) .initial
  rw [hwrites.converted_encodeAll hzero] at hroom ⊢
  refine ⟨t, ?_, hzero, hwrites, hasRoomFor_of_le hroom (Nat.le_succ _), ?_⟩
  · obtain ⟨hlt, hwc⟩ := List.getElem?_eq_some_iff.mp hk
    rw [← hwc, ← List.drop_eq_getElem_cons hlt, List.take_append_drop]
  · exact .refused _ (encode_eq_none_iff.mpr hbad) hroom

end Characters

namespace Rendering

variable {total : Nat} {f : Field}

/-- A field that is too long is cut. -/
theorem ofField_tooLong (htotal : total ≤ Directive.maxMeasure)
    (h : Directive.maxMeasure < total + f.bytes.length) :
    (ofField total f).result = .error .overflow := by
  have hle := length_fitting_le htotal f.pieces
  rw [ofField]
  generalize hf : fitting total f.pieces = fitted at hle
  obtain ⟨written, more⟩ := fitted
  cases more with
  | none => rfl
  | some m =>
    obtain ⟨rfl, _⟩ := fitting_some hf
    rw [Field.bytes, Piece.length_bytesOf] at h
    exact absurd hle (Nat.not_le.mpr h)

/-- What is written of pieces is their beginning. -/
theorem bytesOf_fitting_prefix (total : Nat) (pieces : List Piece) :
    Piece.bytesOf (fitting total pieces).1 <+: Piece.bytesOf pieces := by
  induction pieces generalizing total with
  | nil => exact List.prefix_rfl
  | cons p pieces ih =>
    rw [fitting]
    split
    · exact (List.prefix_append_right_inj p.bytes).mpr (ih (total + p.length))
    · rename_i hlong
      refine List.IsPrefix.trans ?_ (List.prefix_append p.bytes (Piece.bytesOf pieces))
      rw [Piece.bytesOf, List.flatMap_singleton]
      cases p with
      | text bytes => exact List.nil_prefix
      | fill byte count =>
        have hcut := Piece.length_cut_le (Directive.maxMeasure - total) (.fill byte count)
        have hle : (Directive.maxMeasure - total) / fillRun * fillRun ≤ count := by
          simp only [Piece.cut, Piece.length] at hcut hlong
          omega
        refine List.prefix_replicate_iff.mpr ⟨?_, ?_⟩
        · exact Nat.le_trans (Nat.le_of_eq List.length_replicate) hle
        · exact (congrArg (List.replicate · byte) List.length_replicate).symm

theorem bytes_ofField_prefix (total : Nat) (f : Field) : (ofField total f).bytes <+: f.bytes := by
  rw [bytes_ofField]
  exact bytesOf_fitting_prefix total f.pieces

end Rendering

namespace Format.Reaches

variable {options : FormatOptions} {f s : List UInt8} {args : List Argument} {d : Directive}
  {left : Arguments}

/-- A print that comes to a conversion and fails in its field ends with what was written of the
field, whatever the format goes on with. -/
theorem ofFormat_failed (h : Reaches options f s args d left)
    (hkind : d.kind options.writer ≠ .unknown) {shown : Field} {left' : Arguments}
    (hexpand : d.expand options left = .ok (.field shown, left')) (g : List UInt8) {e : Failure}
    (hfails : (Rendering.ofField (Rendering.ofFormat options f args).bytes.length shown).result =
      .error e) :
    let front := (Rendering.ofFormat options f args).bytes
    let whole := Rendering.ofFormat options (f ++ percentByte :: s ++ g) args
    whole.bytes = front ++ (Rendering.ofField front.length shown).bytes ∧
      whole.result = .error e := by
  intro front whole
  obtain ⟨segments, spelled, hf, hs, hresolve⟩ := h.resolves
  obtain ⟨n, hn⟩ := h.written
  rw [(printToMemory_rendering options f args).2.1] at hn
  have hlength : front.length = n := Rendering.length_bytes hn
  have hjoin := (Rendering.ofFormat_percent g h.zero_not_mem hf).joins hn
  have hspelled : spelled.kind options.writer ≠ .unknown := by
    rw [← Directive.kind_congr _ (Directive.resolve_ok hresolve)]
    exact hkind
  have hexpanded := Directive.expandResolved_of_resolve options hresolve
  rw [hexpand] at hexpanded
  rw [hlength] at hfails ⊢
  rw [Format.itemsFrom_directive_append _ hs, Directive.ofDirective_of_kind hspelled] at hjoin
  have hsegment : Rendering.ofSegment options n
      ((Arguments.start args).skip (Format.argumentCount options.writer segments))
      (.directive spelled) = (Rendering.ofField n shown, left') := by
    rw [Rendering.ofSegment, hexpanded]
  rw [Rendering.ofItems_of_failed rfl (by rw [hsegment]; exact hfails), hsegment] at hjoin
  exact ⟨hjoin.bytes, hjoin.result⟩

/-- What a print gives that comes to the conversion of a wide string with a character that has no
bytes. -/
theorem ofFormat_unencodable {w : List UInt32} {wc : UInt32} {k p : Nat} {place : UInt64}
    {rest : List Argument}
    (h : Reaches options f s args d ⟨.wideText (some ⟨w, place⟩) :: rest, p⟩)
    (hd : d.kind options.writer = .wideText)
    (hgood : ∀ c ∈ w.take k, c ≠ 0 ∧ options.encoding.Encodable c) (hk : w[k]? = some wc)
    (hbad : ¬ options.encoding.Encodable wc)
    (hroom : hasRoomFor d.precision?
      ((options.encoding.encodeAll none .initial (w.take k)).converted.length + 1) = true)
    (g : List UInt8) :
    let bytes := (options.encoding.encodeAll none .initial (w.take k)).converted
    let front := (Rendering.ofFormat options f args).bytes
    let out := if d.padsLeft then front else front ++ bytes
    let whole := Rendering.ofFormat options (f ++ percentByte :: s ++ g) args
    (out.length ≤ Directive.maxMeasure →
      whole.bytes = out ∧ whole.result = .error .invalidSequence) ∧
    (Directive.maxMeasure < out.length →
      whole.bytes <+: out ∧ whole.result = .error .overflow) := by
  intro bytes front out whole
  obtain ⟨t, hcut⟩ := Field.exists_cutsAt_refused hgood hk hbad hroom
  obtain ⟨hfailure, hpieces⟩ := hcut.widePieces
  obtain ⟨hfailure, hshown⟩ := Field.failure_wideText_within rfl hcut.measureWide hfailure
  rw [hpieces] at hshown
  have hkind : d.kind options.writer ≠ .unknown := by
    rw [hd]
    exact nofun
  have hexpand : d.expand options ⟨.wideText (some ⟨w, place⟩) :: rest, p⟩ =
      .ok (.field (Field.wideText options.encoding d w), ⟨rest, p + 1⟩) := by
    rw [Directive.expand, hd]
    rfl
  have hout : out = front ++ (Field.wideText options.encoding d w).bytes := by
    rw [hshown]
    simp only [out]
    split
    · exact (List.append_nil front).symm
    · rfl
  have hfront : front.length ≤ Directive.maxMeasure := by
    obtain ⟨n, hn⟩ := h.written
    rw [(printToMemory_rendering options f args).2.1] at hn
    rw [Rendering.length_bytes hn]
    exact Rendering.result_ofFormat_le hn
  rw [hout, List.length_append]
  constructor
  · intro hfits
    obtain ⟨hfield, hfails⟩ := Rendering.ofField_failed hfailure hfits
    obtain ⟨hbytes, hresult⟩ := h.ofFormat_failed hkind hexpand g hfails
    exact ⟨hbytes.trans (congrArg (front ++ ·) hfield), hresult⟩
  · intro hlong
    obtain ⟨hbytes, hresult⟩ :=
      h.ofFormat_failed hkind hexpand g (Rendering.ofField_tooLong hfront hlong)
    refine ⟨?_, hresult⟩
    rw [hbytes]
    exact (List.prefix_append_right_inj front).mpr (Rendering.bytes_ofField_prefix _ _)

/-- An unencodable wide character cuts the output exactly there. A print comes to the conversion of
a wide string with characters that the encoding has bytes for, then one that it has none for,
before the first zero and before the precision is used up. Then it fails, and into any memory it
adds, as far as there is room, what comes before the directive and, if the directive does not pad
on the left, the bytes of the characters before the bad one: no return to the initial shift, no
padding, nothing of what follows, and the zero byte behind it. If that is more than can be
reported, the bad character is not come to, and the print fails for its length behind a beginning
of it. -/
theorem formatInto_unencodable {w : List UInt32} {wc : UInt32} {k p : Nat} {place : UInt64}
    {rest : List Argument}
    (h : Reaches options f s args d ⟨.wideText (some ⟨w, place⟩) :: rest, p⟩)
    (hd : d.kind options.writer = .wideText)
    (hgood : ∀ c ∈ w.take k, c ≠ 0 ∧ options.encoding.Encodable c) (hk : w[k]? = some wc)
    (hbad : ¬ options.encoding.Encodable wc)
    (hroom : hasRoomFor d.precision?
      ((options.encoding.encodeAll none .initial (w.take k)).converted.length + 1) = true)
    (g : List UInt8) :
    let bytes := (options.encoding.encodeAll none .initial (w.take k)).converted
    let front := (printToMemory options f args).sink.content
    let out := if d.padsLeft then front else front ++ bytes
    let format := f ++ percentByte :: s ++ g
    (out.length ≤ Directive.maxMeasure → FailsInMemory options format args out .invalidSequence) ∧
    (Directive.maxMeasure < out.length →
      ∃ shown, shown <+: out ∧ FailsInMemory options format args shown .overflow) := by
  intro bytes front out format
  obtain ⟨hfitting, hlong⟩ := h.ofFormat_unencodable hd hgood hk hbad hroom g
  rw [← (printToMemory_rendering options f args).1] at hfitting hlong
  refine ⟨fun hfits => ?_, fun htoo => ⟨_, (hlong htoo).1, failsInMemory (hlong htoo).2⟩⟩
  obtain ⟨hbytes, hresult⟩ := hfitting hfits
  have hfails := failsInMemory hresult
  rw [hbytes] at hfails
  exact hfails

/-- A pair and a surrogate in `x%*ls|`, left justified in nine columns by an argument: the pair is
written in its shift, and neither the way back nor padding nor the bar. -/
theorem formatInto_unencodable_shifted :
    let options : FormatOptions := ⟨.full, .jis⟩
    let args : List Argument := [.int (-9), .wideText (some ⟨[0x3021, 0xD800], 0x1000⟩)]
    let d : Directive := ⟨Flags.none.set .leftJustify, .fixed 9, .absent, .long, asciiByte 's'⟩
    Reaches options [0x78] [0x2A, 0x6C, 0x73] args d
        ⟨[.wideText (some ⟨[0x3021, 0xD800], 0x1000⟩)], 1⟩ ∧
      FailsInMemory options [0x78, 0x25, 0x2A, 0x6C, 0x73, 0x7C] args
        [0x78, 0x1B, 0x24, 0x42, 0x30, 0x21] .invalidSequence := by
  intro options args d
  have hreaches : Reaches options [0x78] [0x2A, 0x6C, 0x73] args d
      ⟨[.wideText (some ⟨[0x3021, 0xD800], 0x1000⟩)], 1⟩ := by
    refine ⟨by decide, ⟨[.literal [0x78]], ⟨.none, .fromArgument, .absent, .long, asciiByte 's'⟩,
      eq_ok_of_toOption (by decide +kernel), ?_, ?_⟩, 1, eq_ok_of_toOption (by decide +kernel)⟩
    · rfl
    · rfl
  have hgood : ∀ c ∈ ([0x3021, 0xD800] : List UInt32).take 1,
      c ≠ 0 ∧ options.encoding.Encodable c := by
    intro c hc
    obtain rfl : c = 0x3021 := List.mem_singleton.mp hc
    exact ⟨by decide, rfl⟩
  have hbad : ([0x3021, 0xD800] : List UInt32)[1]? = some 0xD800 := rfl
  have hwritten := hreaches.formatInto_unencodable rfl hgood hbad (by decide) rfl [0x7C]
  refine ⟨hreaches, ?_⟩
  have hfront : (printToMemory options [0x78] args).sink.content = [0x78] := by decide +kernel
  rw [hfront] at hwritten
  exact hwritten.1 (by decide +kernel)

end Format.Reaches

section Surrogates

/-- Wide text of letters and a surrogate behind them, which has no bytes. -/
def surrogateBehind (k : Nat) : Placed UInt32 := ⟨List.replicate k 0x41 ++ [0xD800], 0x1000⟩

theorem writes_letters (k : Nat) :
    utf8.Writes .initial (List.replicate k 0x41) (List.replicate k 0x41) .initial := by
  have hletter : utf8.encode .initial 0x41 = some ([0x41], .initial) := rfl
  induction k with
  | zero => exact .nil _
  | succ k ih => exact .cons hletter ih

theorem take_surrogateBehind (k : Nat) :
    (surrogateBehind k).elements.take k = List.replicate k 0x41 :=
  List.take_left' List.length_replicate

theorem getElem?_surrogateBehind (k : Nat) : (surrogateBehind k).elements[k]? = some 0xD800 := by
  rw [surrogateBehind, List.getElem?_append_right (Nat.le_of_eq List.length_replicate),
    List.length_replicate, Nat.sub_self]
  rfl

theorem encodable_surrogateBehind (k : Nat) :
    ∀ c ∈ (surrogateBehind k).elements.take k, c ≠ 0 ∧ utf8.Encodable c := by
  intro c hc
  rw [take_surrogateBehind] at hc
  rw [List.eq_of_mem_replicate hc]
  exact ⟨by decide, rfl⟩

theorem converted_surrogateBehind (k : Nat) :
    (utf8.encodeAll none .initial ((surrogateBehind k).elements.take k)).converted =
      List.replicate k 0x41 := by
  rw [take_surrogateBehind]
  refine (writes_letters k).converted_encodeAll fun hmem => ?_
  exact absurd (List.eq_of_mem_replicate hmem) (by decide)

/-- More letters than can be reported, and the surrogate behind them: text that is padded on its
left is measured as far as the surrogate, other text ends at the limit. -/
theorem Format.Reaches.result_surrogateBehind {writer : Writer} {f s : List UInt8}
    {args rest : List Argument} {d : Directive} {k p : Nat}
    (h : Reaches ⟨writer, .utf8⟩ f s args d ⟨.wideText (some (surrogateBehind k)) :: rest, p⟩)
    (hd : d.kind writer = .wideText) (hprecision : d.precision? = none)
    (hk : Directive.maxMeasure < k) :
    (printToMemory ⟨writer, .utf8⟩ (f ++ percentByte :: s) args).result =
      .error (if d.padsLeft then .invalidSequence else .overflow) := by
  have hbad : ¬ utf8.Encodable 0xD800 := by decide
  obtain ⟨hfits, hlong⟩ := h.ofFormat_unencodable (w := (surrogateBehind k).elements) hd
    (encodable_surrogateBehind k) (getElem?_surrogateBehind k) hbad (by rw [hprecision]; rfl) []
  obtain ⟨_, hresult, _⟩ := printToMemory_rendering ⟨writer, .utf8⟩ (f ++ percentByte :: s) args
  rw [List.append_nil] at hfits hlong
  rw [hresult]
  cases hpads : d.padsLeft with
  | true =>
    rw [hpads, if_pos rfl] at hfits
    obtain ⟨n, hn⟩ := h.written
    rw [(printToMemory_rendering _ f args).2.1] at hn
    refine (hfits ?_).2
    rw [Rendering.length_bytes hn]
    exact Rendering.result_ofFormat_le hn
  | false =>
    rw [hpads, if_neg Bool.false_ne_true, List.length_append] at hlong
    refine (hlong ?_).2
    rw [converted_surrogateBehind, List.length_replicate]
    exact Nat.lt_of_lt_of_le hk (Nat.le_add_left _ _)

/-- A format of one directive comes to its wide text. -/
theorem Format.reaches_wideText {s : List UInt8} {d : Directive} (hzero : 0 ∉ percentByte :: s)
    (hparse : Directive.parse s = .ok (d, [])) (hwidth : d.width ≠ .fromArgument)
    (hprecision : d.precision ≠ .fromArgument) (options : FormatOptions) (w : Placed UInt32) :
    Reaches options [] s [.wideText (some w)] d ⟨[.wideText (some w)], 0⟩ := by
  have hitems : Format.items [] = [] := Format.itemsFrom_nil 0
  refine ⟨hzero, ⟨[], d, ?_, hparse, ?_⟩, 0, ?_⟩
  · rw [Format.parse, hitems]
    rfl
  · rw [Directive.resolve, Directive.resolveWidth, if_neg hwidth]
    exact if_neg hprecision
  · rw [(printToMemory_rendering options [] _).2.1, Rendering.ofFormat, hitems]
    rfl

/-- Where more letters than can be reported stand before a surrogate, the print fails for its
length; and a buffer without room for what stands before a surrogate stores less of that. -/
theorem Format.formatInto_unencodable_overlong :
    let options : FormatOptions := ⟨.full, .utf8⟩
    let k := Directive.maxMeasure + 1
    let args : List Argument := [.wideText (some (surrogateBehind k))]
    let short : List Argument := [.wideText (some ⟨[0x6F, 0x6B, 0xD800], 0x1000⟩)]
    let stored := printToBuffer options [0, 0, 0] [0x3C, 0x25, 0x6C, 0x73, 0x3E] short
    let d : Directive := ⟨.none, .absent, .absent, .long, asciiByte 's'⟩
    Reaches options [] [0x6C, 0x73] args d ⟨args, 0⟩ ∧
      (∀ c ∈ (surrogateBehind k).elements.take k, c ≠ 0 ∧ options.encoding.Encodable c) ∧
      (surrogateBehind k).elements[k]? = some 0xD800 ∧ ¬ options.encoding.Encodable 0xD800 ∧
      (printToMemory options [0x25, 0x6C, 0x73] args).result = .error .overflow ∧
      stored.sink.stored = [0x3C, 0x6F] := by
  intro options k args short stored d
  have hk : Directive.maxMeasure < k := Nat.lt_succ_self _
  clear_value k
  have hparse : Directive.parse [0x6C, 0x73] = .ok (d, []) := eq_ok_of_toOption (by decide +kernel)
  have hwritten : d.width ≠ .fromArgument ∧ d.precision ≠ .fromArgument := by decide
  have hreaches :=
    reaches_wideText (by decide) hparse hwritten.1 hwritten.2 options (surrogateBehind k)
  refine ⟨hreaches, encodable_surrogateBehind k, getElem?_surrogateBehind k, by decide,
    hreaches.result_surrogateBehind rfl rfl hk, by decide +kernel⟩

end Surrogates

end FormattedText
