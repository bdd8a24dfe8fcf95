import FormattedText.Multibyte.Character
import FormattedText.Proofs.Multibyte.Reading

/-!
# Characters in pieces

The bytes of a character may arrive in any pieces. What a piece gives does not depend on the
bytes behind it (`scan_append_of_ended`), and where a piece ends inside a character the next
one goes on from the state that was left (`scan_append_of_incomplete`): the bytes that went
before only add to the count. So reading a piece and then the next comes to the character,
and to the failure, that reading both at once comes to (`AfterReads.decodeOne_append`).
-/

namespace FormattedText

/-- What a source gives behind `taken` bytes of the same character: they only add to the
count, which stays zero for the terminator. -/
def Decoded.behind (taken : Nat) : Decoded → Decoded
  | .character wc count s => .character wc (Encoding.reportedCount wc (taken + count)) s
  | .incomplete s => .incomplete s
  | .invalid => .invalid

/-- The two ways to read a character whose first `taken` bytes came in a piece of their own:
`whole` reads all bytes from the state `s`, `resumed` reads those that follow from the state
`t` that the first piece has left. -/
inductive CharacterRead.Resumes (taken : Nat) (s t : ConversionState) :
    CharacterRead → CharacterRead → Prop where
  /-- Both read the terminator, which is reported with no bytes. -/
  | terminator (u : ConversionState) : Resumes taken s t ⟨.ok 0, some 0, u⟩ ⟨.ok 0, some 0, u⟩
  /-- Both read the same character, and each counts its own bytes. -/
  | character {wc : UInt32} {n : Nat} (u : ConversionState) (hw : wc ≠ 0) (hn : n ≠ 0) :
      Resumes taken s t ⟨.ok (taken + n), some wc, u⟩ ⟨.ok n, some wc, u⟩
  /-- Both lack bytes, and have come to the same state. -/
  | incomplete (u : ConversionState) :
      Resumes taken s t ⟨.error .incompleteSequence, none, u⟩
        ⟨.error .incompleteSequence, none, u⟩
  /-- Both refuse the bytes, and each leaves its state alone. -/
  | invalid :
      Resumes taken s t ⟨.error .invalidSequence, none, s⟩ ⟨.error .invalidSequence, none, t⟩

/-- Reading a piece of `taken` bytes, and reading it with more bytes behind it, from the state
`s`; `resume` reads the bytes behind it from another state. -/
inductive CharacterRead.InPieces (taken : Nat) (s : ConversionState)
    (resume : ConversionState → CharacterRead) : CharacterRead → CharacterRead → Prop where
  /-- The piece gives a character; it is the same, whatever follows. -/
  | complete {wc : UInt32} {n : Nat} (u : ConversionState) :
      InPieces taken s resume ⟨.ok n, some wc, u⟩ ⟨.ok n, some wc, u⟩
  /-- The piece is refused, whatever follows, and nothing is stored or kept of it. -/
  | refused :
      InPieces taken s resume ⟨.error .invalidSequence, none, s⟩ ⟨.error .invalidSequence, none, s⟩
  /-- The piece ends inside a character; what follows goes on from the state that it left. -/
  | unfinished {t : ConversionState} {whole : CharacterRead}
      (h : Resumes taken s t whole (resume t)) :
      InPieces taken s resume ⟨.error .incompleteSequence, none, t⟩ whole

namespace Encoding

/-- The states that reading characters in the encoding comes to, from the initial state on. -/
inductive AfterReads (enc : Encoding) : ConversionState → Prop where
  /-- Nothing has been read. -/
  | initial : AfterReads enc .initial
  /-- One more character was read, whatever came of it. -/
  | decodeOne {s : ConversionState} (h : AfterReads enc s) (source : Option (List UInt8)) :
      AfterReads enc (enc.decodeOne source s).state

section Scanning

variable {enc : Encoding} {s t : ConversionState} {used : Nat} {a : List UInt8}

/-- The bytes that went before count only at the end. -/
theorem scan_add (enc : Encoding) (s : ConversionState) (taken used : Nat) (src : List UInt8) :
    enc.scan s (taken + used) src = (enc.scan s used src).behind taken := by
  induction src generalizing s used with
  | nil => rfl
  | cons b src ih =>
    simp only [scan]
    cases enc.feed s b with
    | more u => exact ih u (used + 1)
    | refused => rfl
    | character wc u =>
      by_cases hw : wc = 0
      · simp only [Decoded.behind, reportedCount, hw, ite_true]
      · simp only [Decoded.behind, reportedCount, hw, ite_false, Nat.add_assoc]

/-- A piece that ends inside a character is continued by the next one. -/
theorem scan_append_of_incomplete (h : enc.scan s used a = .incomplete t) (b : List UInt8) :
    enc.scan s used (a ++ b) = enc.scan t (used + a.length) b := by
  induction a generalizing s used with
  | nil =>
    cases h
    rfl
  | cons c a ih =>
    simp only [List.cons_append, scan] at h ⊢
    cases hf : enc.feed s c with
    | more u =>
      rw [hf] at h
      rw [List.length_cons, Nat.add_comm a.length 1, ← Nat.add_assoc]
      exact ih h
    | character wc u =>
      rw [hf] at h
      cases h
    | refused =>
      rw [hf] at h
      cases h

/-- The bytes behind a character, or behind a refused byte, are not looked at. -/
theorem scan_append_of_ended (h : ∀ t, enc.scan s used a ≠ .incomplete t) (b : List UInt8) :
    enc.scan s used (a ++ b) = enc.scan s used a := by
  induction a generalizing s used with
  | nil => exact absurd rfl (h s)
  | cons c a ih =>
    simp only [List.cons_append, scan] at h ⊢
    cases hf : enc.feed s c with
    | more u =>
      rw [hf] at h
      exact ih h
    | character => rfl
    | refused => rfl

end Scanning

section Decoding

variable {enc : Encoding} {s t : ConversionState} {a b : List UInt8}

/-- Only the terminator is reported with no bytes. -/
theorem Resumable.count_eq_zero_iff (h : enc.Resumable s) {wc : UInt32} {n : Nat}
    (hd : enc.decode s a = .character wc n t) : n = 0 ↔ wc = 0 := by
  have ha : a ≠ [] := by
    rintro rfl
    cases hd
  have hread := h.decode_read ha
  simp only [hd] at hread
  rcases hread with ⟨hn, hw, _⟩ | ⟨k, rfl, _, hr⟩
  · exact iff_of_true hn hw
  · have hcs := (h.of_read hr).2.2.2
    exact iff_of_false (Nat.succ_ne_zero k) fun hw => hcs (hw ▸ List.mem_cons_self)

theorem Resumable.of_decode_incomplete (h : enc.Resumable s)
    (hd : enc.decode s a = .incomplete t) : enc.Resumable t := by
  by_cases ha : a = []
  · subst ha
    cases hd
    exact h
  · have hread := h.decode_read ha
    simp only [hd] at hread
    exact (h.of_read hread).1

/-- Decoding goes on from a piece that ends inside a character. -/
theorem Resumable.decode_append_of_incomplete (h : enc.Resumable s) (ha : a ≠ []) (hb : b ≠ [])
    (hd : enc.decode s a = .incomplete t) :
    enc.decode s (a ++ b) = (enc.decode t b).behind a.length := by
  have ht := h.of_decode_incomplete hd
  rw [h.decode_eq_scan ha] at hd
  rw [h.decode_eq_scan (List.append_ne_nil_of_left_ne_nil ha b), ht.decode_eq_scan hb,
    scan_append_of_incomplete hd, Nat.add_comm, scan_add]

theorem Resumable.decode_append_of_ended (h : enc.Resumable s) (ha : a ≠ [])
    (hd : ∀ t, enc.decode s a ≠ .incomplete t) (b : List UInt8) :
    enc.decode s (a ++ b) = enc.decode s a := by
  rw [h.decode_eq_scan ha] at hd ⊢
  rw [h.decode_eq_scan (List.append_ne_nil_of_left_ne_nil ha b), scan_append_of_ended hd]

/-- After a read a decoder can go on, whatever came of it. -/
theorem Resumable.decodeOne (h : enc.Resumable s) (source : Option (List UInt8)) :
    enc.Resumable (enc.decodeOne source s).state := by
  match source with
  | none => exact resumable_initial enc
  | some src =>
    simp only [Encoding.decodeOne]
    cases hd : enc.decode s src with
    | invalid => exact h
    | incomplete t => exact h.of_decode_incomplete hd
    | character wc n t =>
      have hsrc : src ≠ [] := by
        rintro rfl
        cases hd
      have hread := h.decode_read hsrc
      simp only [hd] at hread
      rcases hread with ⟨_, _, hr⟩ | ⟨_, _, _, hr⟩
      · rw [(h.of_read_terminated hr).1]
        exact resumable_initial enc
      · exact (h.of_read hr).1

/-- After reads in one encoding a decoder can go on in it. -/
theorem AfterReads.resumable (h : enc.AfterReads s) : enc.Resumable s := by
  induction h with
  | initial => exact resumable_initial enc
  | decodeOne _ source ih => exact ih.decodeOne source

/-- Where a piece ends inside a character, the bytes behind it are read alike in one call with
the piece and in a call of their own. -/
theorem Resumable.decodeOne_resumes (h : enc.Resumable s) (ha : a ≠ []) (hb : b ≠ [])
    (hd : enc.decode s a = .incomplete t) :
    CharacterRead.Resumes a.length s t (enc.decodeOne (some (a ++ b)) s)
      (enc.decodeOne (some b) t) := by
  simp only [Encoding.decodeOne, h.decode_append_of_incomplete ha hb hd]
  cases hlater : enc.decode t b with
  | invalid => exact .invalid
  | incomplete u => exact .incomplete u
  | character wc n u =>
    have hzero := (h.of_decode_incomplete hd).count_eq_zero_iff hlater
    by_cases hw : wc = 0
    · rw [hzero.mpr hw, hw]
      exact .terminator u
    · simp only [Decoded.behind, reportedCount, hw, ite_false]
      exact .character u hw (mt hzero.mp hw)

/-- A character may arrive in any pieces, in each encoding and from each state that reading
in it comes to. -/
theorem AfterReads.decodeOne_append (h : enc.AfterReads s) (ha : a ≠ []) (hb : b ≠ []) :
    CharacterRead.InPieces a.length s (enc.decodeOne (some b)) (enc.decodeOne (some a) s)
      (enc.decodeOne (some (a ++ b)) s) := by
  have hs := h.resumable
  cases hd : enc.decode s a with
  | character wc n t =>
    have hall := hs.decode_append_of_ended ha (by rw [hd]; exact nofun) b
    simp only [Encoding.decodeOne, hall, hd]
    exact .complete t
  | invalid =>
    have hall := hs.decode_append_of_ended ha (by rw [hd]; exact nofun) b
    simp only [Encoding.decodeOne, hall, hd]
    exact .refused
  | incomplete t =>
    have hfirst : enc.decodeOne (some a) s = ⟨.error .incompleteSequence, none, t⟩ := by
      simp only [Encoding.decodeOne, hd]
    rw [hfirst]
    exact .unfinished (hs.decodeOne_resumes ha hb hd)

/-- A decoder has seen one escape sequence and the first byte of another. The second comes in
two more pieces, and the pair behind it is read with the last of them. -/
theorem decodeOne_append_escape :
    let s : ConversionState := (jis.decodeOne (some [0x1B, 0x28, 0x4A, 0x1B]) .initial).state
    let later : List UInt8 := [0x42, 0x30, 0x21, 0x41]
    jis.AfterReads s ∧ s = ⟨[0x1B], .ascii⟩ ∧
      CharacterRead.InPieces 1 s (jis.decodeOne (some later)) (jis.decodeOne (some [0x24]) s)
        (jis.decodeOne (some (0x24 :: later)) s) ∧
      jis.decodeOne (some (0x24 :: later)) s = ⟨.ok 4, some 0x3021, ⟨[], .jis0208⟩⟩ := by
  intro s later
  have h : jis.AfterReads s := AfterReads.initial.decodeOne _
  have hlater : later ≠ [] := List.cons_ne_nil _ _
  have hpieces := h.decodeOne_append (List.cons_ne_nil 0x24 []) hlater
  exact ⟨h, rfl, hpieces, rfl⟩

end Decoding

end Encoding

end FormattedText
