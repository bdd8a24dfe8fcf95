import FormattedText.Multibyte.Decoder
import FormattedText.Proofs.Multibyte.Sequence

/-!
# The steps of a decoder

What one byte does to a decoder that has only ever seen one encoding. `Resumable`
describes the states that such a decoder can be in, and `feed_step` says all that a
byte can do there: end the text, complete a character, be kept, or be refused.
Without escape sequences the step is given by the byte classes alone (`feed_eq`).
-/

namespace FormattedText

open ByteClass

namespace Encoding

/-- The states of a decoder between two calls, when all calls used the encoding. -/
inductive Resumable (enc : Encoding) : ConversionState → Prop where
  /-- Between characters; only an encoding with escape sequences may be shifted. -/
  | idle {shift : Shift} (h : enc.isStateful = false → shift = .ascii) : Resumable enc ⟨[], shift⟩
  /-- Inside a character of an encoding without escape sequences. -/
  | character {bytes : List UInt8} (h : enc.isPartial bytes = true) :
      Resumable enc ⟨bytes, .ascii⟩
  /-- After the first byte of an escape sequence. -/
  | escape {shift : Shift} (h : enc = jis) : Resumable enc ⟨[ByteClass.escape], shift⟩
  /-- After the second byte of an escape sequence. -/
  | escapeSecond {shift : Shift} {second : UInt8} (h : enc = jis)
      (hs : second = 0x24 ∨ second = 0x28) : Resumable enc ⟨[ByteClass.escape, second], shift⟩
  /-- After the first byte of a pair. -/
  | pair {lead : UInt8} (h : enc = jis) (hl : isJisByte lead = true) :
      Resumable enc ⟨[lead], .jis0208⟩

/-- The effects that a byte can have on a decoder in a state. -/
inductive FeedStep (enc : Encoding) (s : ConversionState) (b : UInt8) : Feed → Prop where
  /-- The terminator, which ends a shift. -/
  | terminator (hb : b = 0) (hs : s.pending = []) : FeedStep enc s b (.character 0 .initial)
  /-- The last byte of a character. -/
  | character {wc : UInt32} {shift : Shift} (hb : b ≠ 0) (hw : wc ≠ 0)
      (h : Resumable enc ⟨[], shift⟩) : FeedStep enc s b (.character wc ⟨[], shift⟩)
  /-- A byte that is kept, or the last byte of an escape sequence. -/
  | more {t : ConversionState} (hb : b ≠ 0) (h : Resumable enc t) : FeedStep enc s b (.more t)
  /-- A byte that cannot stand there. A terminator is refused inside a character only. -/
  | refused (h : b = 0 → s.pending ≠ []) : FeedStep enc s b .refused

theorem resumable_initial (enc : Encoding) : enc.Resumable .initial := .idle fun _ => rfl

/-- A state without pending bytes can be resumed wherever its shift is possible. -/
theorem resumable_of_pending_nil {enc : Encoding} {s : ConversionState} (hp : s.pending = [])
    (hs : enc.isStateful = false → s = .initial) : enc.Resumable s := by
  obtain ⟨pending, shift⟩ := s
  cases hp
  exact .idle fun h => congrArg ConversionState.shift (hs h)

/-- Without escape sequences a decoder is never shifted, and what it holds is partial. -/
theorem Resumable.eq_of_stateless {enc : Encoding} {s : ConversionState} (h : enc.Resumable s)
    (he : enc.isStateful = false) :
    ∃ bytes, s = ⟨bytes, .ascii⟩ ∧ (bytes = [] ∨ enc.isPartial bytes = true) := by
  cases h with
  | idle hs => exact ⟨[], by rw [hs he], Or.inl rfl⟩
  | character hp => exact ⟨_, rfl, Or.inr hp⟩
  | escape hj => subst hj; cases he
  | escapeSecond hj => subst hj; cases he
  | pair hj => subst hj; cases he

section Classes

/-- The terminator continues no character. -/
theorem continues_zero (enc : Encoding) (lead : UInt8) (position : Nat) :
    enc.continues lead position 0 = false := by
  cases enc with
  | utf8 =>
    simp only [continues, utf8SecondMin]
    repeat' split
    all_goals rfl
  | _ => rfl

/-- Only at its start can the terminator stand in a character. -/
theorem isSequence_concat_zero {enc : Encoding} {bytes : List UInt8} (hp : bytes ≠ []) :
    enc.isSequence (bytes ++ [0]) = false ∧ enc.isPartial (bytes ++ [0]) = false := by
  match bytes, hp with
  | lead :: rest, _ =>
    have hf : enc.follows lead 1 (rest ++ [0]) = false := by
      rw [follows_append, follows, continues_zero, Bool.false_and, Bool.and_false]
    rw [List.cons_append, isSequence, isPartial, hf, Bool.and_false, Bool.and_false]
    exact ⟨rfl, rfl⟩

/-- The terminator is a character of every encoding without escape sequences, and no
other sequence stands for it. -/
theorem sequenceValue_eq_zero_iff {enc : Encoding} (he : enc.isStateful = false)
    {bytes : List UInt8} (h : enc.isSequence bytes = true) :
    enc.sequenceValue bytes = 0 ↔ bytes = [0] := by
  have hz : enc.encode .initial 0 = some ([0], .initial) := by
    cases enc with
    | jis => cases he
    | _ => rfl
  constructor
  · intro hv
    have hb := encode_sequenceValue h .initial
    rw [hv, hz, Option.some.injEq, Prod.mk.injEq] at hb
    exact hb.1.symm
  · rintro rfl
    rfl

theorem isSequence_zero {enc : Encoding} (he : enc.isStateful = false) :
    enc.isSequence [0] = true := by
  cases enc with
  | jis => cases he
  | _ => rfl

/-- The step of an encoding of single bytes is that of the others, nothing being
pending. -/
private theorem feed_eq_feedSequence {enc : Encoding} (he : enc.isStateful = false)
    {bytes : List UInt8} (hp : bytes = [] ∨ enc.isPartial bytes = true) (shift : Shift)
    (b : UInt8) : enc.feed ⟨bytes, shift⟩ b = enc.feedSequence ⟨bytes, shift⟩ b := by
  have hsingle : enc.isSingleByte = true → ∀ c n, enc.sequenceLength? c = some n → n = 1 := by
    intro hs c n hn
    cases enc with
    | ascii => exact (Option.some.inj (Option.ite_none_right_eq_some.mp hn).2).symm
    | latin1 => exact (Option.some.inj hn).symm
    | _ => cases hs
  have hfeed : enc.isSingleByte = true → enc.feedSingle ⟨bytes, shift⟩ b =
      enc.feedSequence ⟨bytes, shift⟩ b := by
    intro hs
    have hb : bytes = [] := by
      match bytes, hp with
      | [], _ => rfl
      | lead :: rest, Or.inr hp =>
        obtain ⟨⟨n, hn, hlt⟩, _⟩ := isPartial_cons.mp hp
        have := hsingle hs lead n hn
        omega
    subst hb
    cases hn : enc.sequenceLength? b with
    | none => simp only [feedSingle, feedSequence, hn, Option.isSome_none, Bool.false_eq_true,
        ite_false]
    | some n =>
      have h1 := hsingle hs b n hn
      subst h1
      simp only [feedSingle, feedSequence, hn, Option.isSome_some, ite_true]
  cases enc with
  | ascii => exact hfeed rfl
  | latin1 => exact hfeed rfl
  | jis => cases he
  | _ => rfl

/-- Without escape sequences the decoder keeps exactly the partial sequences and
gives a character for exactly the whole ones. -/
theorem feed_eq {enc : Encoding} (he : enc.isStateful = false) {bytes : List UInt8}
    (hp : bytes = [] ∨ enc.isPartial bytes = true) (shift : Shift) (b : UInt8) :
    enc.feed ⟨bytes, shift⟩ b =
      if enc.isSequence (bytes ++ [b]) then
        .character (enc.sequenceValue (bytes ++ [b])) ⟨[], shift⟩
      else if enc.isPartial (bytes ++ [b]) then .more ⟨bytes ++ [b], shift⟩
      else .refused := by
  rw [feed_eq_feedSequence he hp]
  rcases bytes with _ | ⟨lead, rest⟩
  · simp only [List.nil_append, feedSequence, isSequence, isPartial, follows, List.length_nil,
      Bool.and_true, beq_iff_eq]
    cases hn : enc.sequenceLength? b with
    | none => rfl
    | some n =>
      obtain ⟨h1, _⟩ := sequenceLength?_bounds hn
      rcases n with _ | _ | n
      · cases h1
      · rfl
      · simp [ConversionState.holding]
  · have hpart := hp.resolve_left (List.cons_ne_nil lead rest)
    obtain ⟨⟨n, hn, hlt⟩, hf⟩ := isPartial_cons.mp hpart
    obtain ⟨n, rfl⟩ : ∃ k, n = k + 2 := ⟨n - 2, by omega⟩
    simp only [List.cons_append, feedSequence, isSequence, isPartial, follows_append, hf, hn,
      follows, Bool.true_and, Bool.and_true, List.length_append, List.length_cons,
      List.length_nil, Nat.add_comm 1 rest.length]
    cases hc : enc.continues lead (rest.length + 1) b with
    | false => simp
    | true =>
      by_cases hl : n + 2 ≤ rest.length + 1 + 1
      · have he : n = rest.length := by omega
        simp [he, ConversionState.holding]
      · have hne : ¬n = rest.length := by omega
        have hlt' : rest.length + 1 + 1 < n + 2 := by omega
        simp [hl, hne, hlt', ConversionState.holding]

end Classes

/-- The step of a decoder without escape sequences. -/
private theorem feed_step_stateless {enc : Encoding} (he : enc.isStateful = false)
    {bytes : List UInt8} (hp : bytes = [] ∨ enc.isPartial bytes = true) (b : UInt8) :
    FeedStep enc ⟨bytes, .ascii⟩ b (enc.feed ⟨bytes, .ascii⟩ b) := by
  rw [feed_eq he hp]
  by_cases hb : b = 0
  · subst hb
    by_cases hn : bytes = []
    · subst hn
      have hv := (sequenceValue_eq_zero_iff he (isSequence_zero he)).mpr rfl
      rw [List.nil_append, isSequence_zero he, hv]
      exact .terminator rfl rfl
    · rw [(isSequence_concat_zero hn).1, (isSequence_concat_zero hn).2]
      exact .refused fun _ => hn
  · by_cases hs : enc.isSequence (bytes ++ [b]) = true
    · rw [if_pos hs]
      refine .character hb ?_ (.idle fun _ => rfl)
      intro hv
      have hz := (sequenceValue_eq_zero_iff he hs).mp hv
      rw [List.append_eq_singleton_iff, List.cons.injEq] at hz
      exact hb (hz.elim (fun h => h.2.1) fun h => absurd h.2 (List.cons_ne_nil b []))
    · rw [if_neg hs]
      split
      · exact .more hb (.character ‹_›)
      · exact .refused fun h => absurd h hb

section Jis

theorem isJisByte_ne_escape {b : UInt8} (h : isJisByte b = true) : b ≠ ByteClass.escape := by
  rintro rfl
  cases h

theorem isJisByte_ne_zero {b : UInt8} (h : isJisByte b = true) : b ≠ 0 := by
  rintro rfl
  cases h

theorem pairValue_ne_zero {hi lo : UInt8} (h : lo ≠ 0) : pairValue hi lo ≠ 0 := by
  intro hv
  have hl := pairLow_pairValue hi lo
  rw [hv] at hl
  exact h hl.symm

theorem toUInt32_ne_zero {b : UInt8} (h : b ≠ 0) : b.toUInt32 ≠ 0 := by
  intro hv
  rw [← UInt32.toNat_inj, UInt8.toNat_toUInt32] at hv
  exact h (UInt8.toNat_inj.mp hv)

private theorem feedJis_idle (shift : Shift) (b : UInt8) :
    FeedStep jis ⟨[], shift⟩ b (feedJis ⟨[], shift⟩ b) := by
  have hany : ∀ s : Shift, jis.Resumable ⟨[], s⟩ := fun s => .idle fun h => nomatch h
  simp only [feedJis]
  split
  · rename_i hb
    subst hb
    exact .more (by decide) (.escape rfl)
  split
  · rename_i hb
    exact .terminator hb rfl
  rename_i hb
  cases shift with
  | ascii =>
    simp only
    split
    · exact .character hb (toUInt32_ne_zero hb) (hany .ascii)
    · exact .refused fun h => absurd h hb
  | jis0208 =>
    simp only
    split
    · rename_i hl
      exact .more hb (.pair rfl hl)
    · exact .refused fun h => absurd h hb

private theorem feedJis_escape (shift : Shift) (b : UInt8) :
    FeedStep jis ⟨[ByteClass.escape], shift⟩ b (feedJis ⟨[ByteClass.escape], shift⟩ b) := by
  simp only [feedJis, ite_true]
  split
  · rename_i hb
    refine .more ?_ (.escapeSecond rfl hb)
    rintro rfl
    revert hb
    decide
  · exact .refused fun _ => List.cons_ne_nil _ _

private theorem feedJis_escapeSecond (shift : Shift) (second b : UInt8) :
    FeedStep jis ⟨[ByteClass.escape, second], shift⟩ b
      (feedJis ⟨[ByteClass.escape, second], shift⟩ b) := by
  simp only [feedJis, ite_true]
  cases ht : escapeTarget? second b with
  | none => exact .refused fun _ => List.cons_ne_nil _ _
  | some target =>
    refine .more ?_ (.idle fun h => nomatch h)
    rintro rfl
    simp [escapeTarget?] at ht

private theorem feedJis_pair {lead : UInt8} (hl : isJisByte lead = true) (b : UInt8) :
    FeedStep jis ⟨[lead], .jis0208⟩ b (feedJis ⟨[lead], .jis0208⟩ b) := by
  simp only [feedJis, isJisByte_ne_escape hl, ite_false, hl, true_and]
  split
  · rename_i hb
    exact .character (isJisByte_ne_zero hb) (pairValue_ne_zero (isJisByte_ne_zero hb))
      (.idle fun h => nomatch h)
  · exact .refused fun _ => List.cons_ne_nil _ _

end Jis

/-- All that a byte can do to a decoder that has only seen one encoding. -/
theorem feed_step {enc : Encoding} {s : ConversionState} (h : enc.Resumable s) (b : UInt8) :
    FeedStep enc s b (enc.feed s b) := by
  cases he : enc.isStateful with
  | false =>
    obtain ⟨bytes, rfl, hp⟩ := h.eq_of_stateless he
    exact feed_step_stateless he hp b
  | true =>
    have hj : enc = jis := by
      cases enc with
      | jis => rfl
      | _ => cases he
    subst hj
    cases h with
    | idle => exact feedJis_idle _ b
    | @character bytes hp =>
      match bytes, hp with
      | lead :: rest, hp =>
        obtain ⟨⟨n, hn, _⟩, _⟩ := isPartial_cons.mp hp
        cases hn
    | escape => exact feedJis_escape _ b
    | escapeSecond => exact feedJis_escapeSecond _ _ b
    | pair _ hl => exact feedJis_pair hl b

/-- What a decoder holds is never a whole character already. -/
theorem Resumable.held?_eq_none {enc : Encoding} {s : ConversionState} (h : enc.Resumable s) :
    enc.held? s = none := by
  cases h with
  | idle => cases enc <;> rfl
  | @character bytes hp =>
    match bytes, hp with
    | lead :: rest, hp =>
      obtain ⟨⟨n, hn, hlt⟩, _⟩ := isPartial_cons.mp hp
      obtain ⟨n, rfl⟩ : ∃ k, n = k + 2 := ⟨n - 2, by omega⟩
      have hgt : ¬n + 2 ≤ rest.length + 1 := by omega
      cases enc with
      | jis => cases hn
      | ascii | latin1 => rfl
      | _ => simp only [held?, hn, hgt, ite_false]
  | escape hj => subst hj; simp [held?]
  | escapeSecond hj => subst hj; simp [held?]
  | pair hj => subst hj; simp [held?]

/-- Where no character is held, decoding feeds the bytes of the source one after another. -/
theorem decode_eq_scan_of_held?_eq_none {enc : Encoding} {s : ConversionState}
    (hh : enc.held? s = none) {src : List UInt8} (hs : src ≠ []) :
    enc.decode s src = enc.scan s 0 src := by
  obtain ⟨b, rest, rfl⟩ := List.exists_cons_of_ne_nil hs
  simp only [decode, hh]

theorem Resumable.decode_eq_scan {enc : Encoding} {s : ConversionState} (h : enc.Resumable s)
    {src : List UInt8} (hs : src ≠ []) : enc.decode s src = enc.scan s 0 src :=
  decode_eq_scan_of_held?_eq_none h.held?_eq_none hs

/-- What follows the bytes that a character has taken. -/
theorem drop_of_taken {b : UInt8} {rest front more : List UInt8} {n : Nat}
    (hsrc : b :: rest = front ++ more) (hn : n + 1 = front.length) : rest.drop n = more := by
  have hdrop := congrArg (List.drop (n + 1)) hsrc
  rwa [hn, List.drop_left, ← hn, List.drop_succ_cons] at hdrop

end Encoding

end FormattedText
