import FormattedText.Proofs.Multibyte.Decoding
import FormattedText.Proofs.Multibyte.Image

/-!
# Encoding and decoding are inverse

`Encoding.Writes` relates a text to the bytes that the encoder writes for it, character
by character, with the states before and after. Each character is read back from its
bytes in the state that it was written in, whatever follows (`decode_encode`), so the
decoder goes through the same states as the encoder. In the other direction a reading
without escape sequences is spelled by the bytes that were read.
-/

namespace FormattedText

open ByteClass

namespace Encoding

/-- The encoding has bytes for the character; the state plays no part in that. -/
def Encodable (enc : Encoding) (wc : UInt32) : Prop := (enc.encode .initial wc).isSome = true

instance (enc : Encoding) : DecidablePred enc.Encodable := fun wc =>
  inferInstanceAs (Decidable ((enc.encode .initial wc).isSome = true))

/-- Characters that can be written and are read back: the terminator ends a text, and the
escape character begins no character where it begins a sequence. -/
def IsText (enc : Encoding) (w : List UInt32) : Prop :=
  ∀ wc ∈ w, enc.Encodable wc ∧ wc ≠ 0 ∧ (enc = jis → wc ≠ escape.toUInt32)

/-- Between characters; only an encoding with escape sequences may be shifted. -/
structure IsBetween (enc : Encoding) (s : ConversionState) : Prop where
  /-- Nothing is pending. -/
  pending : s.pending = []
  /-- Without escape sequences there is no shift. -/
  initial : enc.isStateful = false → s = .initial

/-- The bytes that are written for a text, with the states before and after. -/
inductive Writes (enc : Encoding) :
    ConversionState → List UInt32 → List UInt8 → ConversionState → Prop where
  /-- Nothing is written for the empty text. -/
  | nil (s : ConversionState) : Writes enc s [] [] s
  /-- The bytes of the first character come first. -/
  | cons {s t u : ConversionState} {wc : UInt32} {w : List UInt32} {bytes more : List UInt8}
      (h : enc.encode s wc = some (bytes, t)) (hrest : Writes enc t w more u) :
      Writes enc s (wc :: w) (bytes ++ more) u

section Characters

variable {enc : Encoding} {s t : ConversionState} {wc : UInt32} {bytes : List UInt8}

theorem encode_isSome (enc : Encoding) (s : ConversionState) (wc : UInt32) :
    (enc.encode s wc).isSome = (enc.encode .initial wc).isSome := by
  cases enc with
  | ascii | latin1 =>
    simp only [encode]
    split <;> rfl
  | utf8 | eucJp | shiftJis | jis => simp only [encode, Option.isSome_map]

/-- Without escape sequences the state is not looked at. -/
theorem encode_of_stateless (he : enc.isStateful = false) (s : ConversionState) (wc : UInt32) :
    enc.encode s wc = (enc.encode .initial wc).map fun form => (form.1, s) := by
  cases enc with
  | jis => cases he
  | ascii | latin1 =>
    simp only [encode]
    split <;> rfl
  | _ => simp only [encode, Option.map_map]; rfl

/-- A character that can be written is written in every state. -/
theorem Encodable.exists_encode (h : enc.Encodable wc) (s : ConversionState) :
    ∃ bytes t, enc.encode s wc = some (bytes, t) := by
  rw [Encodable, ← encode_isSome enc s, Option.isSome_iff_exists] at h
  obtain ⟨⟨bytes, t⟩, h⟩ := h
  exact ⟨bytes, t, h⟩

theorem encode_eq_none_iff : enc.encode s wc = none ↔ ¬ enc.Encodable wc := by
  rw [Encodable, ← encode_isSome enc s, Bool.not_eq_true, Option.isSome_eq_false_iff,
    Option.isNone_iff_eq_none]

theorem isBetween_initial (enc : Encoding) : enc.IsBetween .initial := ⟨rfl, fun _ => rfl⟩

/-- Writing a character leaves an encoder between characters. -/
theorem IsBetween.encode (hs : enc.IsBetween s) (h : enc.encode s wc = some (bytes, t)) :
    enc.IsBetween t := by
  cases he : enc.isStateful with
  | false =>
    obtain ⟨rfl, _⟩ := isSequence_of_encode he h
    exact hs
  | true =>
    cases enc with
    | jis =>
      obtain ⟨⟨shift, b⟩, _, hb⟩ := Option.map_eq_some_iff.mp h
      cases hb
      exact ⟨hs.pending, nofun⟩
    | _ => cases he

/-- The two forms of a character in the encoding with escape sequences. -/
theorem jisForm?_eq_some {shift : Shift} (h : jisForm? wc = some (shift, bytes)) :
    shift = .ascii ∧ bytes = [pairLow wc] ∧ (pairLow wc).toUInt32 = wc ∧
        isAscii (pairLow wc) = true ∨
      shift = .jis0208 ∧ bytes = [pairHigh wc, pairLow wc] ∧
        pairValue (pairHigh wc) (pairLow wc) = wc ∧ isJisByte (pairHigh wc) = true ∧
        isJisByte (pairLow wc) = true := by
  have hh := toNat_pairHigh wc
  have hl := toNat_pairLow wc
  simp only [jisForm?, UInt32.lt_iff_toNat_lt, UInt32.le_iff_toNat_le, UInt32.reduceToNat] at h
  split at h
  · cases h
    refine Or.inl ⟨rfl, rfl, ?_, ?_⟩
    · rw [← UInt32.toNat_inj, UInt8.toNat_toUInt32]
      omega
    · simp only [isAscii, decide_eq_true_eq, UInt8.lt_iff_toNat_lt, UInt8.reduceToNat]
      omega
  split at h
  · rename_i hp
    cases h
    refine Or.inr ⟨rfl, rfl, ?_, hp.2⟩
    rw [← UInt32.toNat_inj, toNat_pairValue]
    omega
  · cases h

theorem sequenceLength?_le_max {lead : UInt8} {n : Nat} (h : enc.sequenceLength? lead = some n) :
    n ≤ enc.maxCharacterLength := by
  cases enc with
  | ascii =>
    have hn := (Option.ite_none_right_eq_some.mp h).2
    exact Nat.le_of_eq (Option.some.inj hn).symm
  | latin1 => exact Nat.le_of_eq (Option.some.inj h).symm
  | utf8 => exact (sequenceLength?_bounds h).2
  | eucJp | shiftJis =>
    simp only [sequenceLength?] at h
    simp only [maxCharacterLength]
    grind
  | jis => cases h

/-- Every character takes a byte or more, and no more than the encoding announces. -/
theorem length_of_encode (h : enc.encode s wc = some (bytes, t)) :
    1 ≤ bytes.length ∧ bytes.length ≤ enc.maxCharacterLength := by
  cases he : enc.isStateful with
  | false =>
    obtain ⟨_, hseq, _⟩ := isSequence_of_encode he h
    obtain ⟨lead, rest, rfl⟩ := List.exists_cons_of_ne_nil
      (List.ne_nil_of_length_pos (isSequence_length hseq).1)
    have hlen := sequenceLength?_le_max (isSequence_cons.mp hseq).1
    exact ⟨Nat.le_add_left 1 rest.length, hlen⟩
  | true =>
    cases enc with
    | jis =>
      obtain ⟨⟨shift, b⟩, hform, hb⟩ := Option.map_eq_some_iff.mp h
      cases hb
      have hescape : (escapeBetween s.shift shift).length ≤ 3 := by
        unfold escapeBetween
        split
        · exact Nat.zero_le 3
        · cases shift <;> exact Nat.le_refl 3
      have hform : 1 ≤ b.length ∧ b.length ≤ 2 := by
        rcases jisForm?_eq_some hform with ⟨_, rfl, _⟩ | ⟨_, rfl, _⟩
        · exact ⟨Nat.le_refl 1, Nat.le_succ 1⟩
        · exact ⟨Nat.le_succ 1, Nat.le_refl 2⟩
      rw [List.length_append, maxCharacterLength]
      omega
    | _ => cases he

/-- An escape sequence is read as the shift that it selects. -/
theorem scan_escapeTo (shift target : Shift) (used : Nat) (tail : List UInt8) :
    jis.scan ⟨[], shift⟩ used (escapeTo target ++ tail) =
      jis.scan ⟨[], target⟩ (used + 3) tail := by
  cases target <;> rfl

theorem scan_escapeBetween (shift target : Shift) (used : Nat) (tail : List UInt8) :
    jis.scan ⟨[], shift⟩ used (escapeBetween shift target ++ tail) =
      jis.scan ⟨[], target⟩ (used + (escapeBetween shift target).length) tail := by
  rw [escapeBetween]
  split
  · rename_i h
    subst h
    rfl
  · rw [scan_escapeTo]
    cases target <;> rfl

/-- In either shift a character is read from its bytes. -/
theorem scan_jisForm {shift : Shift} (h : jisForm? wc = some (shift, bytes))
    (hesc : wc ≠ escape.toUInt32) (used : Nat) (tail : List UInt8) :
    jis.scan ⟨[], shift⟩ used (bytes ++ tail) =
      .character wc (reportedCount wc (used + bytes.length)) ⟨[], shift⟩ := by
  rcases jisForm?_eq_some h with ⟨rfl, rfl, hv, ha⟩ | ⟨rfl, rfl, hv, hh, hl⟩
  · have hne : pairLow wc ≠ escape := by
      intro he
      rw [he] at hv
      exact hesc hv.symm
    by_cases hz : pairLow wc = 0
    · rw [hz] at hv
      subst hv
      rfl
    · simp only [List.singleton_append, scan, feed, feedJis, hne, hz, ha, hv, ite_false, ite_true,
        List.length_singleton]
  · have hne := isJisByte_ne_escape hh
    have hz := isJisByte_ne_zero hh
    simp only [List.cons_append, List.nil_append, scan, feed, feedJis, hne, hz, hh, hl, hv,
      ConversionState.holding, ite_false, ite_true, and_self, List.length_cons, List.length_nil]

/-- A character is read back from the bytes that are written for it, in the state that it
was written in and whatever follows; the states afterwards agree. -/
theorem decode_encode (hs : enc.IsBetween s) (h : enc.encode s wc = some (bytes, t))
    (hesc : enc = jis → wc ≠ escape.toUInt32) (tail : List UInt8) :
    bytes ≠ [] ∧
      enc.decode s (bytes ++ tail) = .character wc (reportedCount wc bytes.length) t := by
  cases he : enc.isStateful with
  | false =>
    obtain ⟨rfl, hseq, rfl⟩ := isSequence_of_encode he h
    rw [hs.initial he]
    refine ⟨?_, decode_sequence he hseq tail⟩
    rintro rfl
    cases hseq
  | true =>
    cases enc with
    | jis =>
      obtain ⟨⟨shift, b⟩, hform, hb⟩ := Option.map_eq_some_iff.mp h
      obtain ⟨pending, current⟩ := s
      cases hs.pending
      cases hb
      have hne : escapeBetween current shift ++ b ≠ [] := by
        rcases jisForm?_eq_some hform with ⟨_, rfl, _⟩ | ⟨_, rfl, _⟩
        · simp
        · simp
      refine ⟨hne, ?_⟩
      have hres : jis.Resumable ⟨[], current⟩ := resumable_of_pending_nil rfl nofun
      rw [hres.decode_eq_scan (List.append_ne_nil_of_left_ne_nil hne tail), List.append_assoc,
        scan_escapeBetween, scan_jisForm hform (hesc rfl), List.length_append, Nat.zero_add]
    | _ => cases he

end Characters

section Texts

variable {enc : Encoding} {s t : ConversionState} {w : List UInt32} {bytes : List UInt8}

/-- Characters that have bytes are written from every state. -/
theorem exists_writes (hw : ∀ wc ∈ w, enc.Encodable wc) (s : ConversionState) :
    ∃ bytes t, enc.Writes s w bytes t := by
  induction w generalizing s with
  | nil => exact ⟨[], s, .nil s⟩
  | cons wc w ih =>
    obtain ⟨b, u, hb⟩ := (hw wc List.mem_cons_self).exists_encode s
    obtain ⟨more, t, hmore⟩ := ih (fun c hc => hw c (List.mem_cons_of_mem wc hc)) u
    exact ⟨b ++ more, t, .cons hb hmore⟩

theorem IsText.exists_writes (hw : enc.IsText w) (s : ConversionState) :
    ∃ bytes t, enc.Writes s w bytes t :=
  Encoding.exists_writes (fun wc hwc => (hw wc hwc).1) s

theorem Writes.isBetween (h : enc.Writes s w bytes t) (hs : enc.IsBetween s) :
    enc.IsBetween t := by
  induction h with
  | nil => exact hs
  | cons h _ ih => exact ih (hs.encode h)

/-- The bytes of two texts, one after the other. -/
theorem Writes.append {more : List UInt32} {later : List UInt8} {u : ConversionState}
    (h : enc.Writes s w bytes t) (hmore : enc.Writes t more later u) :
    enc.Writes s (w ++ more) (bytes ++ later) u := by
  induction h with
  | nil => exact hmore
  | cons he _ ih =>
    rw [List.append_assoc, List.cons_append]
    exact .cons he (ih hmore)

/-- The bytes of a text in two parts are those of the parts. -/
theorem Writes.split {more : List UInt32} (h : enc.Writes s (w ++ more) bytes t) :
    ∃ front later u, bytes = front ++ later ∧ enc.Writes s w front u ∧
      enc.Writes u more later t := by
  induction w generalizing s bytes with
  | nil => exact ⟨[], bytes, s, rfl, .nil s, h⟩
  | cons wc w ih =>
    cases h with
    | @cons _ u _ _ _ b rest he hrest =>
      obtain ⟨front, later, v, rfl, hfront, hlater⟩ := ih hrest
      exact ⟨b ++ front, later, v, (List.append_assoc _ _ _).symm, .cons he hfront, hlater⟩

/-- The encoder writes the bytes of a text, where they fit, before those of what follows it. -/
theorem Writes.encodeAll_append (h : enc.Writes s w bytes t) (hw : 0 ∉ w) {room : Option Nat}
    (hfits : hasRoomFor room bytes.length = true) (rest : List UInt32) :
    enc.encodeAll room s (w ++ rest) =
      (enc.encodeAll (roomAfter room bytes.length) t rest).after bytes := by
  induction h generalizing room with
  | nil s => cases room <;> rfl
  | @cons s t u wc w bytes more h hrest ih =>
    rw [List.length_append] at hfits
    have hone := hasRoomFor_of_le hfits (Nat.le_add_right _ _)
    have hspent := isSpent_of_hasRoomFor hone (length_of_encode h).1
    have hwc : wc ≠ 0 := fun hz => hw (hz ▸ List.mem_cons_self)
    have hlater := ih (fun hmem => hw (List.mem_cons_of_mem wc hmem))
      ((hasRoomFor_roomAfter hone more.length).trans hfits)
    simp only [List.cons_append, encodeAll, hspent, h, hone, hwc, hlater, Progress.after,
      roomAfter_roomAfter, List.length_append, Bool.false_eq_true, Bool.not_true, ite_false,
      List.append_assoc]

/-- The decoder reads a text from the bytes that are written for it. -/
theorem Writes.reads (h : enc.Writes s w bytes t) (hs : enc.IsBetween s) (hw : enc.IsText w) :
    enc.Reads s bytes w t := by
  induction h with
  | nil s => exact .nil s
  | @cons s t u wc w bytes more h hrest ih =>
    obtain ⟨_, hwc, hesc⟩ := hw wc List.mem_cons_self
    have hd := (decode_encode hs h hesc []).2
    rw [List.append_nil, reportedCount, if_neg hwc] at hd
    exact .cons hd (ih (hs.encode h) fun c hc => hw c (List.mem_cons_of_mem wc hc))

/-- The decoder reads a text from its bytes before it reads what follows them. -/
theorem Writes.decodeAll_append (h : enc.Writes s w bytes t) (hs : enc.IsBetween s)
    (hw : enc.IsText w) (room : Nat) (tail : List UInt8) :
    enc.decodeAll (some (w.length + room)) s (bytes ++ tail) =
      (enc.decodeAll (some room) t tail).after w := by
  rw [(h.reads hs hw).decodeAll_append (hasRoomFor_some (Nat.le_add_right _ room)), roomAfter,
    Option.map_some, Nat.add_sub_cancel_left]

theorem encode_zero_ne_none (enc : Encoding) (s : ConversionState) : enc.encode s 0 ≠ none := by
  have hz : enc.Encodable 0 := by cases enc <;> rfl
  obtain ⟨bytes, t, h⟩ := hz.exists_encode s
  rw [h]
  exact Option.some_ne_none _

/-- The terminator is written in every state, behind the way back to the initial shift. -/
theorem IsBetween.encode_zero (hs : enc.IsBetween s) :
    enc.encode s 0 = some (escapeBetween s.shift .ascii ++ [0], .initial) := by
  cases he : enc.isStateful with
  | false =>
    rw [hs.initial he]
    cases enc with
    | jis => cases he
    | _ => rfl
  | true =>
    cases enc with
    | jis =>
      obtain ⟨pending, shift⟩ := s
      cases hs.pending
      rfl
    | _ => cases he

theorem IsText.zero_not_mem (hw : enc.IsText w) : 0 ∉ w := fun hmem => (hw 0 hmem).2.1 rfl

/-- Encoding a text into a destination with room for its bytes. -/
theorem Writes.encodeString (h : enc.Writes s w bytes t) (hw : enc.IsText w) {capacity : Nat}
    (hc : bytes.length ≤ capacity) :
    enc.encodeString (some capacity) (some w) s = ⟨.ok bytes.length, bytes, remaining [] t, t⟩ := by
  have hfits : hasRoomFor (some capacity) bytes.length = true := hasRoomFor_some hc
  have hall := h.encodeAll_append hw.zero_not_mem hfits []
  rw [List.append_nil] at hall
  simp only [Encoding.encodeString, hall, encodeAll, Progress.after, List.append_nil,
    Option.isSome_some, ite_true]

/-- Decoding the bytes of a text into a destination with room for its characters. -/
theorem Writes.decodeString (h : enc.Writes s w bytes t) (hs : enc.IsBetween s)
    (hw : enc.IsText w) {capacity : Nat} (hc : w.length ≤ capacity) :
    enc.decodeString (some capacity) (some bytes) s = ⟨.ok w.length, w, remaining [] t, t⟩ := by
  rw [(h.reads hs hw).decodeString (hasRoomFor_some hc)]
  rfl

/-- Encoding a terminated text. -/
theorem Writes.encodeString_terminated (h : enc.Writes s w bytes t) (hw : enc.IsText w)
    {last : List UInt8} (hz : enc.encode t 0 = some (last, .initial)) {capacity : Nat}
    (hc : (bytes ++ last).length ≤ capacity) :
    enc.encodeString (some capacity) (some (w ++ [0])) s =
      ⟨.ok ((bytes ++ last).length - 1), bytes ++ last, none, .initial⟩ := by
  rw [List.length_append] at hc
  have hfits : hasRoomFor (some capacity) bytes.length = true :=
    hasRoomFor_some (Nat.le_of_add_right_le hc)
  have hroom : hasRoomFor (roomAfter (some capacity) bytes.length) last.length = true :=
    (hasRoomFor_roomAfter hfits last.length).trans (hasRoomFor_some hc)
  have hspent := isSpent_of_hasRoomFor hroom (length_of_encode hz).1
  have hall := h.encodeAll_append hw.zero_not_mem hfits [0]
  simp only [Encoding.encodeString, hall, encodeAll, hspent, hz, hroom, Progress.after,
    Bool.false_eq_true, Bool.not_true, ite_false, ite_true, Option.isSome_some]

/-- Decoding the bytes of a terminated text. -/
theorem Writes.decodeString_terminated (h : enc.Writes s w bytes t) (hs : enc.IsBetween s)
    (hw : enc.IsText w) {last : List UInt8} (hz : enc.encode t 0 = some (last, .initial))
    {capacity : Nat} (hc : w.length + 1 ≤ capacity) :
    enc.decodeString (some capacity) (some (bytes ++ last)) s =
      ⟨.ok w.length, w ++ [0], none, .initial⟩ := by
  obtain ⟨room, rfl⟩ := Nat.exists_eq_add_of_le hc
  obtain ⟨hne, hd⟩ := decode_encode (h.isBetween hs) hz (fun _ => by decide) []
  rw [List.append_nil] at hd
  have hall := h.decodeAll_append hs hw (1 + room) last
  rw [← Nat.add_assoc] at hall
  have hlast : enc.decodeAll (some (1 + room)) t last = ⟨[0], .terminated, last, .initial⟩ := by
    obtain ⟨b, rest, rfl⟩ := List.exists_cons_of_ne_nil hne
    rw [decodeAll]
    simp only [isSpent_some (Nat.le_add_right 1 room), Bool.false_eq_true, ite_false, hd,
      reportedCount, ite_true]
  simp only [Encoding.decodeString, hall, hlast, Progress.after, List.length_append,
    List.length_singleton, Nat.add_sub_cancel, Option.isSome_some, ite_true]

end Texts

section Readings

variable {enc : Encoding} {s t : ConversionState} {w : List UInt32} {bytes : List UInt8}

theorem encodable_jis_ascii {b : UInt8} (h : isAscii b = true) : jis.Encodable b.toUInt32 := by
  simp only [isAscii, decide_eq_true_eq, UInt8.lt_iff_toNat_lt, UInt8.reduceToNat] at h
  have hlt : b.toUInt32 < 0x80 := by
    rw [UInt32.lt_iff_toNat_lt, UInt8.toNat_toUInt32]
    exact h
  simp only [Encodable, encode, jisForm?, hlt, ite_true, Option.isSome_map, Option.isSome_some]

theorem encodable_jis_pair {hi lo : UInt8} (hh : isJisByte hi = true) (hl : isJisByte lo = true) :
    jis.Encodable (pairValue hi lo) ∧ pairValue hi lo ≠ escape.toUInt32 := by
  have hn := toNat_pairValue hi lo
  have hlo := lo.toNat_lt
  have hhi := hi.toNat_lt
  have hrange := (isJisByte_iff hi).mp hh
  have hle : pairValue hi lo ≤ 0xFFFF := by
    simp only [UInt32.le_iff_toNat_le, hn, UInt32.reduceToNat]
    omega
  have hge : ¬pairValue hi lo < 0x80 := by
    simp only [UInt32.lt_iff_toNat_lt, hn, UInt32.reduceToNat]
    omega
  constructor
  · simp only [Encodable, encode, jisForm?, hge, hle, pairHigh_pairValue, pairLow_pairValue, hh, hl,
      and_self, ite_true, ite_false, Option.isSome_map, Option.isSome_some]
  · simp only [ne_eq, ← UInt32.toNat_inj, hn, UInt8.toNat_toUInt32, escape, UInt8.reduceToNat]
    omega

theorem encodable_of_feedJis (h : jis.Resumable s) {b : UInt8} {wc : UInt32}
    (hf : feedJis s b = .character wc t) : jis.Encodable wc ∧ wc ≠ escape.toUInt32 := by
  cases h with
  | @idle shift =>
    simp only [feedJis] at hf
    split at hf
    · cases hf
    split at hf
    · cases hf
      exact ⟨rfl, by decide⟩
    rename_i hesc _
    cases shift with
    | ascii =>
      simp only at hf
      split at hf
      · rename_i ha
        cases hf
        refine ⟨encodable_jis_ascii ha, fun he => hesc ?_⟩
        rw [← UInt32.toNat_inj, UInt8.toNat_toUInt32, UInt8.toNat_toUInt32] at he
        exact UInt8.toNat_inj.mp he
      · cases hf
    | jis0208 =>
      simp only at hf
      split at hf <;> cases hf
  | @character held hp =>
    rcases held with _ | ⟨lead, rest⟩
    · cases hp
    · obtain ⟨⟨n, hn, _⟩, _⟩ := isPartial_cons.mp hp
      cases hn
  | escape =>
    simp only [feedJis, ite_true] at hf
    split at hf <;> cases hf
  | escapeSecond =>
    simp only [feedJis, ite_true] at hf
    split at hf <;> cases hf
  | @pair lead _ hl =>
    simp only [feedJis, isJisByte_ne_escape hl, ite_false, hl, true_and] at hf
    split at hf
    · rename_i hb
      cases hf
      exact encodable_jis_pair hl hb
    · cases hf

/-- A character that the decoder gives can be written. -/
theorem encodable_of_feed (h : enc.Resumable s) {b : UInt8} {wc : UInt32}
    (hf : enc.feed s b = .character wc t) :
    enc.Encodable wc ∧ (enc = jis → wc ≠ escape.toUInt32) := by
  cases he : enc.isStateful with
  | false =>
    obtain ⟨held, rfl, hp⟩ := h.eq_of_stateless he
    rw [feed_eq he hp] at hf
    refine ⟨?_, fun hj => by rw [hj] at he; cases he⟩
    split at hf
    · rename_i hs
      cases hf
      rw [Encodable, encode_sequenceValue hs]
      rfl
    · split at hf <;> cases hf
  | true =>
    cases enc with
    | jis =>
      obtain ⟨hw, hesc⟩ := encodable_of_feedJis h hf
      exact ⟨hw, fun _ => hesc⟩
    | _ => cases he

/-- The characters of a reading are a text. -/
theorem Resumable.isText_of_read (h : enc.Resumable s)
    (hr : enc.read s bytes = ⟨w, .unfinished t⟩) : enc.IsText w := by
  induction bytes generalizing s w with
  | nil =>
    cases hr
    exact fun _ => nofun
  | cons b bytes ih =>
    have hstep := feed_step h b
    rcases read_cons_unfinished hr with ⟨u, hf, hr⟩ | ⟨wc, u, w, hf, hw, rfl, hr⟩
    · rw [hf] at hstep
      cases hstep with
      | more _ hu => exact ih hu hr
    · obtain ⟨henc, hesc⟩ := encodable_of_feed h hf
      rw [hf] at hstep
      cases hstep with
      | terminator => exact absurd rfl hw
      | character _ _ hu => exact List.forall_mem_cons.mpr ⟨⟨henc, hw, hesc⟩, ih hu hr⟩

/-- Without escape sequences a text that was read to its end is written in the bytes
that were read; `held` are those that were read before. -/
theorem writes_of_read (he : enc.isStateful = false) {held : List UInt8}
    (hh : held = [] ∨ enc.isPartial held = true)
    (hr : enc.read ⟨held, .ascii⟩ bytes = ⟨w, .unfinished t⟩) (ht : t.pending = []) :
    enc.Writes .initial w (held ++ bytes) .initial := by
  induction bytes generalizing held w with
  | nil =>
    cases hr
    cases ht
    exact .nil .initial
  | cons b bytes ih =>
    rw [List.append_cons]
    rcases read_cons_unfinished hr with ⟨u, hf, hr⟩ | ⟨wc, u, w, hf, _, rfl, hr⟩
    · rw [feed_eq he hh] at hf
      split at hf
      · cases hf
      split at hf
      · rename_i hp
        cases hf
        exact ih (Or.inr hp) hr
      · cases hf
    · rw [feed_eq he hh] at hf
      split at hf
      · rename_i hs
        cases hf
        exact .cons (encode_sequenceValue hs .initial) (ih (Or.inl rfl) hr)
      · split at hf <;> cases hf

theorem nil_of_remaining {rest : List UInt8} (h : (remaining rest t).getD [] = []) : rest = [] := by
  rw [remaining] at h
  split at h
  · rename_i hr
    exact List.isEmpty_iff.mp (Bool.and_eq_true_iff.mp hr).1
  · exact h

/-- Decoding that consumes a source without the terminator goes along the whole reading. -/
theorem read_of_decodeString (h : enc.Resumable s) (h0 : 0 ∉ bytes) {capacity n : Nat}
    (hr : (enc.decodeString (some capacity) (some bytes) s).result = .ok n)
    (hc : (enc.decodeString (some capacity) (some bytes) s).cursor.getD [] = []) :
    enc.read s bytes = ⟨(enc.decodeString (some capacity) (some bytes) s).stored,
      .unfinished (enc.decodeString (some capacity) (some bytes) s).state⟩ := by
  have htrack := h.decodeAll_tracked (some capacity) bytes
  simp only [decodeString, Option.isSome_some, ite_true] at hr hc ⊢
  generalize enc.decodeAll (some capacity) s bytes = p at htrack hr hc ⊢
  cases htrack with
  | terminated ht => exact absurd (h.of_read_terminated ht).2.1 h0
  | drained hread => exact hread
  | full front _ hsrc hread =>
    have hrest := nil_of_remaining hc
    subst hrest
    rw [List.append_nil] at hsrc
    subst hsrc
    exact hread
  | invalid => cases hr

end Readings

/-- A text and bytes are converted into each other from a state, wherever there is room,
and both conversions leave the same state. -/
structure Exchanges (enc : Encoding) (s : ConversionState) (w : List UInt32)
    (bytes : List UInt8) (t : ConversionState) : Prop where
  /-- The text is encoded in the bytes. -/
  encode : ∀ capacity, bytes.length ≤ capacity →
    enc.encodeString (some capacity) (some w) s = ⟨.ok bytes.length, bytes, remaining [] t, t⟩
  /-- The bytes are decoded to the text. -/
  decode : ∀ capacity, w.length ≤ capacity →
    enc.decodeString (some capacity) (some bytes) s = ⟨.ok w.length, w, remaining [] t, t⟩

/-- The same for a text with its terminator, which is stored and not counted; both
conversions leave the initial state. -/
structure ExchangesTerminated (enc : Encoding) (s : ConversionState) (w : List UInt32)
    (bytes : List UInt8) : Prop where
  /-- The terminated text is encoded in the bytes. -/
  encode : ∀ capacity, bytes.length ≤ capacity →
    enc.encodeString (some capacity) (some (w ++ [0])) s =
      ⟨.ok (bytes.length - 1), bytes, none, .initial⟩
  /-- The bytes are decoded to the terminated text. -/
  decode : ∀ capacity, w.length + 1 ≤ capacity →
    enc.decodeString (some capacity) (some bytes) s = ⟨.ok w.length, w ++ [0], none, .initial⟩

theorem Writes.exchanges {enc : Encoding} {s t : ConversionState} {w : List UInt32}
    {bytes : List UInt8} (h : enc.Writes s w bytes t) (hs : enc.IsBetween s)
    (hw : enc.IsText w) : enc.Exchanges s w bytes t :=
  ⟨fun _ hc => h.encodeString hw hc, fun _ hc => h.decodeString hs hw hc⟩

/-- A terminated text is read back from the bytes that are written for it. -/
theorem IsText.exists_exchangesTerminated {enc : Encoding} {s : ConversionState}
    {w : List UInt32} (hw : enc.IsText w) (hs : enc.IsBetween s) :
    ∃ bytes, enc.ExchangesTerminated s w bytes := by
  obtain ⟨bytes, t, h⟩ := hw.exists_writes s
  have hz := (h.isBetween hs).encode_zero
  exact ⟨bytes ++ _, fun _ hc => h.encodeString_terminated hw hz hc,
    fun _ hc => h.decodeString_terminated hs hw hz hc⟩

/-- What was read from a whole source without the terminator can be written, and without
escape sequences in the bytes that were read. -/
theorem exists_exchanges_of_decodeWhole {enc : Encoding} {bytes : List UInt8} (h0 : 0 ∉ bytes)
    {capacity n : Nat} (hr : (enc.decodeWhole capacity bytes).result = .ok n)
    (hc : (enc.decodeWhole capacity bytes).cursor.getD [] = [])
    (hp : (enc.decodeWhole capacity bytes).state.pending = []) :
    ∃ written t, enc.Exchanges .initial (enc.decodeWhole capacity bytes).stored written t ∧
      (enc.isStateful = false → written = bytes) := by
  have hres := resumable_initial enc
  have hread := read_of_decodeString hres h0 hr hc
  have hw := hres.isText_of_read hread
  cases he : enc.isStateful with
  | false =>
    have h := writes_of_read he (Or.inl rfl) hread hp
    exact ⟨bytes, .initial, h.exchanges (isBetween_initial enc) hw, fun _ => rfl⟩
  | true =>
    obtain ⟨written, t, h⟩ := hw.exists_writes .initial
    exact ⟨written, t, h.exchanges (isBetween_initial enc) hw, nofun⟩

/-- Encoding and decoding are inverse. A text that is written from a state between
characters is read back from the same state, and both end in the same state, or in the
initial one if the text is terminated. And what is read from a whole source without the
terminator can be written: without escape sequences in the same bytes, and always in
bytes that are read as the same text. -/
theorem encodeString_decodeString (enc : Encoding) :
    (∀ s w, enc.IsBetween s → enc.IsText w →
      (∃ bytes t, enc.Exchanges s w bytes t) ∧ ∃ bytes, enc.ExchangesTerminated s w bytes) ∧
    ∀ bytes capacity n, 0 ∉ bytes → (enc.decodeWhole capacity bytes).result = .ok n →
      (enc.decodeWhole capacity bytes).cursor.getD [] = [] →
      (enc.decodeWhole capacity bytes).state.pending = [] →
      ∃ written t, enc.Exchanges .initial (enc.decodeWhole capacity bytes).stored written t ∧
        (enc.isStateful = false → written = bytes) := by
  constructor
  · intro s w hs hw
    obtain ⟨bytes, t, h⟩ := hw.exists_writes s
    exact ⟨⟨bytes, t, h.exchanges hs hw⟩, hw.exists_exchangesTerminated hs⟩
  · intro bytes capacity n h0 hr hc hp
    exact exists_exchanges_of_decodeWhole h0 hr hc hp

/-- A text that leaves the shift, and bytes that enter it. -/
theorem encodeString_decodeString_shifted :
    (∃ bytes t, jis.Exchanges ⟨[], .jis0208⟩ [0x41, 0x3021] bytes t) ∧
    ∃ written t, jis.Exchanges .initial [0x3021] written t := by
  obtain ⟨hforward, hback⟩ := encodeString_decodeString jis
  have hbetween : jis.IsBetween ⟨[], .jis0208⟩ := ⟨rfl, nofun⟩
  have htext : jis.IsText [0x41, 0x3021] := by
    simp only [IsText, List.forall_mem_cons]
    exact ⟨⟨rfl, by decide, fun _ => by decide⟩, ⟨rfl, by decide, fun _ => by decide⟩, nofun⟩
  have hone : jis.IsText [0x3021] := fun wc h => htext wc (List.mem_cons_of_mem _ h)
  have hencode : jis.encode .initial 0x3021 =
      some ([0x1B, 0x24, 0x42, 0x30, 0x21], ⟨[], .jis0208⟩) := by decide
  have hwrites := Writes.cons hencode (.nil _)
  have hread : jis.decodeWhole 1 [0x1B, 0x24, 0x42, 0x30, 0x21] =
      ⟨.ok 1, [0x3021], some [], ⟨[], .jis0208⟩⟩ :=
    hwrites.decodeString (isBetween_initial jis) hone (Nat.le_refl 1)
  obtain ⟨written, t, h, _⟩ := hback [0x1B, 0x24, 0x42, 0x30, 0x21] 1 1 (by decide)
    (by rw [hread]) (by rw [hread]; rfl) (by rw [hread])
  rw [hread] at h
  exact ⟨(hforward _ _ hbetween htext).1, written, t, h⟩

end Encoding

end FormattedText
