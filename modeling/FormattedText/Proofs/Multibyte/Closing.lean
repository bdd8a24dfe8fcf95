import FormattedText.Proofs.Multibyte.Blocks

/-!
# Texts that end in the initial shift

The bytes of a terminated text without the zero byte at their end bring an encoding with
escape sequences back to the initial shift (`Encoding.closedText`). So they are read to the
characters of the text, with the decoder as it began (`Encoding.ReadsAs`). Bytes of that
kind may stand one behind the other, ASCII bytes between them too, and decoding them in one
call gives all their characters (`ReadsAs.decodeWhole`).
-/

namespace FormattedText

open ByteClass

namespace Encoding

/-- The bytes of a wide text up to its terminator, and back to the initial shift. -/
def closedText (enc : Encoding) (w : List UInt32) : List UInt8 :=
  (enc.encodeAll none .initial (w.takeWhile (· ≠ 0) ++ [0])).converted.dropLast

/-- The bytes are read to the characters from the initial state on, and lead back to it. -/
def ReadsAs (enc : Encoding) (bytes : List UInt8) (characters : List UInt32) : Prop :=
  enc.read .initial bytes = ⟨characters, .unfinished .initial⟩

/-- An ASCII byte that is a character in every state between characters, not the
terminator and not the begin of an escape sequence. -/
def IsPlain (enc : Encoding) (c : UInt8) : Prop :=
  isAscii c = true ∧ c ≠ 0 ∧ (enc = jis → c ≠ escape)

section ReadsAs

variable {enc : Encoding} {a b bytes : List UInt8} {cs ds : List UInt32}

theorem readsAs_nil (enc : Encoding) : enc.ReadsAs [] [] := rfl

/-- What leads back to the initial state may stand before anything. -/
theorem ReadsAs.append (ha : enc.ReadsAs a cs) (hb : enc.ReadsAs b ds) :
    enc.ReadsAs (a ++ b) (cs ++ ds) := by
  rw [ReadsAs, read_append ha, hb]
  rfl

theorem IsPlain.feed {c : UInt8} (hc : enc.IsPlain c) :
    enc.feed .initial c = .character c.toUInt32 .initial := by
  obtain ⟨h, hzero, hesc⟩ := hc
  cases enc with
  | ascii | latin1 =>
    simp only [Encoding.feed, feedSingle, sequenceLength?, h, ite_true, Option.isSome_some]
  | utf8 | eucJp | shiftJis =>
    simp only [Encoding.feed, feedSequence, ConversionState.initial, sequenceLength?, h, true_or,
      ite_true]
  | jis =>
    simp only [Encoding.feed, feedJis, ConversionState.initial, hesc rfl, hzero, h, ite_false,
      ite_true]

/-- Plain bytes read as themselves. -/
theorem readsAs_plain (h : ∀ c ∈ bytes, enc.IsPlain c) :
    enc.ReadsAs bytes (bytes.map UInt8.toUInt32) := by
  induction bytes with
  | nil => exact readsAs_nil enc
  | cons c bytes ih =>
    have hc := h c List.mem_cons_self
    have hlater : enc.ReadsAs bytes _ := ih fun d hd => h d (List.mem_cons_of_mem c hd)
    rw [ReadsAs, read_of_character hc.feed (toUInt32_ne_zero hc.2.1), hlater]
    rfl

/-- Decoding a whole string that reads so, into a destination with room for it, gives its
characters; with room for more, the decoder gets to the end and is in the initial state. -/
theorem ReadsAs.decodeWhole (h : enc.ReadsAs bytes cs) {capacity : Nat}
    (hc : cs.length ≤ capacity) :
    let decoded := enc.decodeWhole capacity bytes
    decoded.result = .ok cs.length ∧ decoded.stored = cs ∧
      (cs.length < capacity → decoded.cursor = none ∧ decoded.state = .initial) := by
  have htrack := (resumable_initial enc).decodeAll_tracked (some capacity) bytes
  simp only [Encoding.decodeWhole, decodeString, Option.isSome_some, ite_true]
  generalize enc.decodeAll (some capacity) .initial bytes = p at htrack
  cases htrack with
  | terminated hr =>
    rw [h] at hr
    cases hr
  | drained hr =>
    rw [h] at hr
    cases hr
    exact ⟨rfl, rfl, fun _ => ⟨rfl, rfl⟩⟩
  | @full ds rest t front hroom hsrc hr =>
    have hall := read_append hr rest
    rw [← hsrc, h] at hall
    obtain ⟨more, _, hcs⟩ := Reading.after_eq_iff.mp hall.symm
    cases hroom
    have hmore : more = [] := by
      rw [hcs, List.length_append] at hc
      exact List.eq_nil_of_length_eq_zero (by omega)
    rw [hmore, List.append_nil] at hcs
    subst hcs
    exact ⟨rfl, rfl, fun hlt => absurd hlt (Nat.lt_irrefl _)⟩
  | @invalid ds rest t front hsrc hr hi =>
    have hall := read_append hr rest
    rw [← hsrc, h, hi] at hall
    cases hall

end ReadsAs

section Reading

variable {enc : Encoding} {s t : ConversionState} {w : List UInt32} {wc : UInt32}
  {bytes last : List UInt8}

theorem IsBetween.resumable (hs : enc.IsBetween s) : enc.Resumable s :=
  resumable_of_pending_nil hs.pending hs.initial

/-- A character is read from its bytes, and nothing else. -/
theorem IsBetween.read_encode (hs : enc.IsBetween s) (h : enc.encode s wc = some (bytes, t))
    (hwc : wc ≠ 0) (hesc : enc = jis → wc ≠ escape.toUInt32) :
    enc.read s bytes = ⟨[wc], .unfinished t⟩ := by
  obtain ⟨hne, hd⟩ := decode_encode hs h hesc []
  rw [List.append_nil, reportedCount, if_neg hwc] at hd
  have hread := hs.resumable.decode_read hne
  simp only [hd] at hread
  rcases hread with ⟨hzero, _⟩ | ⟨k, hk, _, hr⟩
  · exact absurd (List.eq_nil_of_length_eq_zero hzero) hne
  · rw [← hk, List.take_length] at hr
    exact hr

theorem Writes.read (h : enc.Writes s w bytes t) (hs : enc.IsBetween s) (hw : enc.IsText w) :
    enc.read s bytes = ⟨w, .unfinished t⟩ := by
  induction h with
  | nil => rfl
  | @cons s t u wc w bytes more h hrest ih =>
    obtain ⟨_, hwc, hesc⟩ := hw wc List.mem_cons_self
    have hlater := ih (hs.encode h) fun c hc => hw c (List.mem_cons_of_mem wc hc)
    rw [read_append (hs.read_encode h hwc hesc), hlater]
    rfl

/-- The way back to the initial shift is no character. -/
theorem IsBetween.read_reset (hs : enc.IsBetween s) :
    enc.read s (escapeBetween s.shift .ascii) = ⟨[], .unfinished .initial⟩ := by
  cases he : enc.isStateful with
  | false =>
    rw [hs.initial he]
    rfl
  | true =>
    cases enc with
    | jis =>
      obtain ⟨pending, shift⟩ := s
      cases hs.pending
      cases shift <;> rfl
    | _ => cases he

end Reading

section Closing

variable {enc : Encoding} {s t : ConversionState} {w : List UInt32} {bytes last : List UInt8}

theorem not_mem_takeWhile_zero (w : List UInt32) : 0 ∉ w.takeWhile (· ≠ 0) := by
  intro h
  have hall := List.all_eq_true.mp (List.all_takeWhile (p := (· ≠ 0)) (l := w)) 0 h
  exact of_decide_eq_true hall rfl

/-- A text closes with the bytes of its characters and the way back to the initial shift. -/
theorem IsText.exists_closedText (hw : enc.IsText (w.takeWhile (· ≠ 0))) :
    ∃ bytes t, enc.Writes .initial (w.takeWhile (· ≠ 0)) bytes t ∧ enc.IsBetween t ∧
      enc.closedText w = bytes ++ escapeBetween t.shift .ascii := by
  obtain ⟨bytes, t, h⟩ := hw.exists_writes .initial
  have ht := h.isBetween (isBetween_initial enc)
  refine ⟨bytes, t, h, ht, ?_⟩
  rw [closedText, h.encodeAll_append (not_mem_takeWhile_zero w) rfl,
    encodeAll_cons ht.encode_zero rfl, if_pos rfl, Progress.after, ← List.append_assoc,
    List.dropLast_concat]

/-- A closed text reads as its characters. -/
theorem IsText.readsAs_closedText (hw : enc.IsText (w.takeWhile (· ≠ 0))) :
    enc.ReadsAs (enc.closedText w) (w.takeWhile (· ≠ 0)) := by
  obtain ⟨bytes, t, h, ht, hclosed⟩ := hw.exists_closedText
  rw [ReadsAs, hclosed, read_append (h.read (isBetween_initial enc) hw), ht.read_reset,
    Reading.after, List.append_nil]

end Closing

end Encoding

end FormattedText
