import FormattedText.Multibyte.Text
import FormattedText.Proofs.Multibyte.Feeding

/-!
# Reading a text byte by byte

`Encoding.read` gives the characters of a text and where its reading ends, by
feeding the decoder one byte after another. So it cannot depend on how the text is
cut up: `read_append` reads two parts one after the other. `Resumable.decode_read`
and `Resumable.decodeAll_tracked` say that decoding a character and decoding a string,
which stop at the end of a source or of a destination, go along this one reading.
-/

namespace FormattedText

/-- Where the reading of a text ends. -/
inductive ReadingEnd where
  /-- All bytes are read; the decoder is in a state. -/
  | unfinished (state : ConversionState)
  /-- The terminator was read, which left the decoder in a state. -/
  | terminated (state : ConversionState)
  /-- A byte was refused. -/
  | invalid
  deriving DecidableEq, Repr

/-- The reading of a text. -/
structure Reading where
  /-- The characters in order, a terminator included. -/
  characters : List UInt32
  /-- Where the reading ends. -/
  ending : ReadingEnd
  deriving DecidableEq, Repr

/-- A reading that comes after other characters. -/
def Reading.after (front : List UInt32) (r : Reading) : Reading :=
  { r with characters := front ++ r.characters }

theorem Reading.after_after (a b : List UInt32) (r : Reading) :
    (r.after b).after a = r.after (a ++ b) := by
  simp only [after, List.append_assoc]

theorem Reading.after_eq_iff {front cs : List UInt32} {r : Reading} {e : ReadingEnd} :
    r.after front = ⟨cs, e⟩ ↔ ∃ cs', r = ⟨cs', e⟩ ∧ cs = front ++ cs' := by
  obtain ⟨characters, ending⟩ := r
  simp only [after, mk.injEq]
  constructor
  · rintro ⟨rfl, rfl⟩
    exact ⟨characters, ⟨rfl, rfl⟩, rfl⟩
  · rintro ⟨cs', ⟨rfl, rfl⟩, rfl⟩
    exact ⟨rfl, rfl⟩

namespace Encoding

/-- Reads a text from a state of the decoder on. -/
def read (enc : Encoding) (s : ConversionState) : List UInt8 → Reading
  | [] => ⟨[], .unfinished s⟩
  | b :: rest =>
      match enc.feed s b with
      | .more t => enc.read t rest
      | .character wc t =>
          if wc = 0 then ⟨[0], .terminated t⟩ else (enc.read t rest).after [wc]
      | .refused => ⟨[], .invalid⟩

section Cuts

variable {enc : Encoding} {s t : ConversionState}

theorem read_of_more {b : UInt8} (h : enc.feed s b = .more t) (rest : List UInt8) :
    enc.read s (b :: rest) = enc.read t rest := by
  simp only [read, h]

theorem read_of_character {b : UInt8} {wc : UInt32} (h : enc.feed s b = .character wc t)
    (hw : wc ≠ 0) (rest : List UInt8) :
    enc.read s (b :: rest) = (enc.read t rest).after [wc] := by
  simp only [read, h, hw, ite_false]

theorem read_of_terminator {b : UInt8} (h : enc.feed s b = .character 0 t)
    (rest : List UInt8) : enc.read s (b :: rest) = ⟨[0], .terminated t⟩ := by
  simp only [read, h, ite_true]

theorem read_of_refused {b : UInt8} (h : enc.feed s b = .refused) (rest : List UInt8) :
    enc.read s (b :: rest) = ⟨[], .invalid⟩ := by
  simp only [read, h]

/-- A text is read beyond its first byte where the byte is kept or completes a
character other than the terminator. -/
theorem read_cons_unfinished {b : UInt8} {rest : List UInt8} {cs : List UInt32}
    (h : enc.read s (b :: rest) = ⟨cs, .unfinished t⟩) :
    (∃ u, enc.feed s b = .more u ∧ enc.read u rest = ⟨cs, .unfinished t⟩) ∨
    ∃ wc u cs', enc.feed s b = .character wc u ∧ wc ≠ 0 ∧ cs = wc :: cs' ∧
      enc.read u rest = ⟨cs', .unfinished t⟩ := by
  cases hf : enc.feed s b with
  | more u =>
    rw [read_of_more hf] at h
    exact Or.inl ⟨u, rfl, h⟩
  | character wc u =>
    by_cases hw : wc = 0
    · subst hw
      rw [read_of_terminator hf] at h
      cases h
    · rw [read_of_character hf hw, Reading.after_eq_iff] at h
      obtain ⟨cs', hr, hc⟩ := h
      exact Or.inr ⟨wc, u, cs', rfl, hw, hc, hr⟩
  | refused =>
    rw [read_of_refused hf] at h
    cases h

/-- A text is read part by part: the second part goes on from the state that the
first has left. -/
theorem read_append {a : List UInt8} {cs : List UInt32}
    (h : enc.read s a = ⟨cs, .unfinished t⟩) (b : List UInt8) :
    enc.read s (a ++ b) = (enc.read t b).after cs := by
  induction a generalizing s cs with
  | nil =>
    cases h
    rfl
  | cons c a ih =>
    rw [List.cons_append]
    rcases read_cons_unfinished h with ⟨u, hf, hr⟩ | ⟨wc, u, cs', hf, hw, rfl, hr⟩
    · rw [read_of_more hf, ih hr]
    · rw [read_of_character hf hw, ih hr, Reading.after_after, List.singleton_append]

/-- A reading that has ended is not changed by more bytes. -/
theorem read_append_of_ended {a : List UInt8}
    (h : ∀ t, (enc.read s a).ending ≠ .unfinished t) (b : List UInt8) :
    enc.read s (a ++ b) = enc.read s a := by
  induction a generalizing s with
  | nil => exact absurd rfl (h s)
  | cons c a ih =>
    rw [List.cons_append]
    cases hf : enc.feed s c with
    | more u =>
      rw [read_of_more hf] at h ⊢
      rw [read_of_more hf, ih h]
    | character wc u =>
      by_cases hw : wc = 0
      · subst hw
        rw [read_of_terminator hf, read_of_terminator hf]
      · rw [read_of_character hf hw] at h ⊢
        rw [read_of_character hf hw, ih h]
    | refused => rw [read_of_refused hf, read_of_refused hf]

theorem read_append_of_terminated {a : List UInt8} {cs : List UInt32}
    (h : enc.read s a = ⟨cs, .terminated t⟩) (b : List UInt8) :
    enc.read s (a ++ b) = ⟨cs, .terminated t⟩ := by
  rw [read_append_of_ended, h]
  intro u hu
  rw [h] at hu
  cases hu

theorem read_append_of_invalid {a : List UInt8} {cs : List UInt32}
    (h : enc.read s a = ⟨cs, .invalid⟩) (b : List UInt8) :
    enc.read s (a ++ b) = ⟨cs, .invalid⟩ := by
  rw [read_append_of_ended, h]
  intro u hu
  rw [h] at hu
  cases hu

end Cuts

section Invariants

variable {enc : Encoding} {s t : ConversionState}

/-- Reading leaves a decoder in a state that it can go on from, takes a byte or more
for each character, and goes past no terminator. -/
theorem Resumable.of_read (h : enc.Resumable s) {a : List UInt8} {cs : List UInt32}
    (hr : enc.read s a = ⟨cs, .unfinished t⟩) :
    enc.Resumable t ∧ cs.length ≤ a.length ∧ 0 ∉ a ∧ 0 ∉ cs := by
  induction a generalizing s cs with
  | nil =>
    cases hr
    exact ⟨h, Nat.le_refl _, List.not_mem_nil, List.not_mem_nil⟩
  | cons b a ih =>
    have hstep := feed_step h b
    rcases read_cons_unfinished hr with ⟨u, hf, hr⟩ | ⟨wc, u, cs', hf, hw, rfl, hr⟩
    · rw [hf] at hstep
      cases hstep with
      | more hb hu =>
        obtain ⟨ht, hl, ha, hc⟩ := ih hu hr
        refine ⟨ht, Nat.le_succ_of_le hl, ?_, hc⟩
        exact fun hm => (List.mem_cons.mp hm).elim (fun h0 => hb h0.symm) ha
    · rw [hf] at hstep
      cases hstep with
      | terminator => exact absurd rfl hw
      | character hb _ hu =>
        obtain ⟨ht, hl, ha, hc⟩ := ih hu hr
        refine ⟨ht, Nat.succ_le_succ hl, ?_, ?_⟩
        · exact fun hm => (List.mem_cons.mp hm).elim (fun h0 => hb h0.symm) ha
        · exact fun hm => (List.mem_cons.mp hm).elim (fun h0 => hw h0.symm) hc

/-- A reading that meets the terminator ends with it in the initial state. -/
theorem Resumable.of_read_terminated (h : enc.Resumable s) {a : List UInt8} {cs : List UInt32}
    (hr : enc.read s a = ⟨cs, .terminated t⟩) :
    t = .initial ∧ 0 ∈ a ∧ ∃ cs', cs = cs' ++ [0] ∧ 0 ∉ cs' := by
  induction a generalizing s cs with
  | nil => cases hr
  | cons b a ih =>
    have hstep := feed_step h b
    cases hf : enc.feed s b with
    | more u =>
      rw [hf] at hstep
      rw [read_of_more hf] at hr
      cases hstep with
      | more _ hu =>
        obtain ⟨ht, ha, hc⟩ := ih hu hr
        exact ⟨ht, List.mem_cons_of_mem b ha, hc⟩
    | character wc u =>
      rw [hf] at hstep
      cases hstep with
      | terminator hb =>
        rw [read_of_terminator hf] at hr
        cases hr
        exact ⟨rfl, hb ▸ List.mem_cons_self, [], rfl, List.not_mem_nil⟩
      | character _ hw hu =>
        rw [read_of_character hf hw, Reading.after_eq_iff] at hr
        obtain ⟨cs', hr, rfl⟩ := hr
        obtain ⟨ht, ha, cs'', rfl, hc⟩ := ih hu hr
        refine ⟨ht, List.mem_cons_of_mem b ha, wc :: cs'', rfl, ?_⟩
        exact fun hm => (List.mem_cons.mp hm).elim (fun h0 => hw h0.symm) hc
    | refused =>
      rw [read_of_refused hf] at hr
      cases hr

end Invariants

section Decoding

variable {enc : Encoding} {s : ConversionState}

/-- Feeding the bytes of a source up to its first character goes along the reading. -/
theorem scan_read (enc : Encoding) (s : ConversionState) (used : Nat) (src : List UInt8) :
    match enc.scan s used src with
    | .incomplete t => enc.read s src = ⟨[], .unfinished t⟩
    | .invalid => enc.read s src = ⟨[], .invalid⟩
    | .character wc n t => ∃ front last rest, src = front ++ last :: rest ∧
        n = reportedCount wc (used + front.length + 1) ∧
        (if wc = 0 then enc.read s src = ⟨[0], .terminated t⟩
          else enc.read s (front ++ [last]) = ⟨[wc], .unfinished t⟩) := by
  induction src generalizing s used with
  | nil => rfl
  | cons b src ih =>
    simp only [scan]
    cases hf : enc.feed s b with
    | more u =>
      have hi := ih u (used + 1)
      simp only
      cases hs : enc.scan u (used + 1) src with
      | incomplete t =>
        simp only [hs] at hi ⊢
        rw [read_of_more hf, hi]
      | invalid =>
        simp only [hs] at hi ⊢
        rw [read_of_more hf, hi]
      | character wc n t =>
        simp only [hs] at hi ⊢
        obtain ⟨front, last, rest, rfl, hn, hr⟩ := hi
        refine ⟨b :: front, last, rest, rfl, ?_, ?_⟩
        · rw [hn, List.length_cons, show used + 1 + front.length + 1 =
            used + (front.length + 1) + 1 by omega]
        · rw [read_of_more hf, List.cons_append, read_of_more hf]
          exact hr
    | character wc u =>
      refine ⟨[], b, src, rfl, rfl, ?_⟩
      split
      · rename_i hw
        subst hw
        exact read_of_terminator hf src
      · rename_i hw
        exact read_of_character hf hw []
    | refused => exact read_of_refused hf src

/-- Decoding a character goes along the reading: the terminator is reported with no
bytes, any other character with those up to its last. -/
theorem Resumable.decode_read (h : enc.Resumable s) {src : List UInt8} (hs : src ≠ []) :
    match enc.decode s src with
    | .incomplete t => enc.read s src = ⟨[], .unfinished t⟩
    | .invalid => enc.read s src = ⟨[], .invalid⟩
    | .character wc n t => n = 0 ∧ wc = 0 ∧ enc.read s src = ⟨[0], .terminated t⟩ ∨
        ∃ k, n = k + 1 ∧ k < src.length ∧
          enc.read s (src.take (k + 1)) = ⟨[wc], .unfinished t⟩ := by
  have hscan := scan_read enc s 0 src
  rw [h.decode_eq_scan hs]
  cases he : enc.scan s 0 src with
  | incomplete t =>
    simp only [he] at hscan
    exact hscan
  | invalid =>
    simp only [he] at hscan
    exact hscan
  | character wc n t =>
    simp only [he] at hscan ⊢
    obtain ⟨front, last, rest, rfl, hn, hr⟩ := hscan
    by_cases hw : wc = 0
    · rw [if_pos hw] at hr
      exact Or.inl ⟨by rw [hn, reportedCount, if_pos hw], hw, hr⟩
    · rw [if_neg hw] at hr
      refine Or.inr ⟨front.length, ?_, ?_, ?_⟩
      · rw [hn, reportedCount, if_neg hw, Nat.zero_add]
      · rw [List.length_append, List.length_cons]
        omega
      · rw [List.take_length_add_append, List.take_succ_cons, List.take_zero]
        exact hr

/-- How far the decoding of a string got, told by the reading of the string. -/
inductive Tracked (enc : Encoding) (s : ConversionState) (room : Option Nat)
    (src : List UInt8) : Progress UInt8 UInt32 → Prop where
  /-- The reading ends with the terminator. -/
  | terminated {cs : List UInt32} {rest : List UInt8} {t : ConversionState}
      (hr : enc.read s src = ⟨cs, .terminated t⟩) :
      Tracked enc s room src ⟨cs, .terminated, rest, t⟩
  /-- All bytes are read. -/
  | drained {cs : List UInt32} {t : ConversionState}
      (hr : enc.read s src = ⟨cs, .unfinished t⟩) : Tracked enc s room src ⟨cs, .drained, [], t⟩
  /-- A part of the bytes gives as many characters as there is room for. -/
  | full {cs : List UInt32} {rest : List UInt8} {t : ConversionState} (front : List UInt8)
      (hroom : room = some cs.length) (hsrc : src = front ++ rest)
      (hr : enc.read s front = ⟨cs, .unfinished t⟩) : Tracked enc s room src ⟨cs, .full, rest, t⟩
  /-- Behind a part of the bytes no character follows. -/
  | invalid {cs : List UInt32} {rest : List UInt8} {t : ConversionState} (front : List UInt8)
      (hsrc : src = front ++ rest) (hr : enc.read s front = ⟨cs, .unfinished t⟩)
      (hi : enc.read t rest = ⟨[], .invalid⟩) : Tracked enc s room src ⟨cs, .invalid, rest, t⟩

/-- A character that is read first comes before all others. -/
theorem Tracked.after {s t : ConversionState} {room : Option Nat} {wc : UInt32}
    {front src : List UInt8} {p : Progress UInt8 UInt32}
    (h : Tracked enc t (roomAfter room 1) src p) (hspent : isSpent room = false)
    (hr : enc.read s front = ⟨[wc], .unfinished t⟩) :
    Tracked enc s room (front ++ src) (p.after [wc]) := by
  cases h with
  | terminated ht =>
    refine .terminated ?_
    rw [read_append hr, ht]
    rfl
  | drained ht =>
    refine .drained ?_
    rw [read_append hr, ht]
    rfl
  | full front' hroom hsrc ht =>
    refine .full (front ++ front') ?_ ?_ ?_
    · cases room with
      | none => cases hroom
      | some r =>
        have hne : r ≠ 0 := by
          rintro rfl
          cases hspent
        simp only [roomAfter, Option.map_some, Option.some.injEq] at hroom
        simp only [Option.some.injEq, List.length_append, List.length_singleton]
        omega
    · rw [hsrc, List.append_assoc]
    · rw [read_append hr, ht]
      rfl
  | invalid front' hsrc ht hi =>
    refine .invalid (front ++ front') ?_ ?_ hi
    · rw [hsrc, List.append_assoc]
    · rw [read_append hr, ht]
      rfl

/-- Decoding a string goes along the reading: it stops where the reading ends, or
where the destination is full. -/
theorem Resumable.decodeAll_tracked (h : enc.Resumable s) (room : Option Nat)
    (src : List UInt8) : Tracked enc s room src (enc.decodeAll room s src) := by
  fun_induction decodeAll enc room s src with
  | case1 room s src hspent => exact .full [] (beq_iff_eq.mp hspent) rfl rfl
  | case2 room s hspent => exact .drained rfl
  | case3 room s hspent b rest wc t hd =>
    have hread := h.decode_read (List.cons_ne_nil b rest)
    simp only [hd] at hread
    rcases hread with ⟨_, _, hr⟩ | ⟨k, hk, _⟩
    · exact .terminated hr
    · cases hk
  | case4 room s hspent b rest wc n t hd ih =>
    have hread := h.decode_read (List.cons_ne_nil b rest)
    simp only [hd] at hread
    rcases hread with ⟨hn, _⟩ | ⟨k, hk, hlt, hr⟩
    · cases hn
    cases hk
    have htrack := (ih (h.of_read hr).1).after (Bool.eq_false_iff.mpr hspent) hr
    rw [List.take_succ_cons, List.cons_append, List.take_append_drop] at htrack
    exact htrack
  | case5 room s hspent b rest t hd =>
    have hread := h.decode_read (List.cons_ne_nil b rest)
    simp only [hd] at hread
    exact .drained hread
  | case6 room s hspent b rest hd =>
    have hread := h.decode_read (List.cons_ne_nil b rest)
    simp only [hd] at hread
    exact .invalid [] rfl rfl hread

end Decoding

end Encoding

end FormattedText
