import FormattedText.Multibyte.Encoder
import Mathlib.Algebra.GroupWithZero.Nat

/-!
# Byte sequences of characters

In an encoding without escape sequences the byte classes describe a set of byte
sequences, one for each character: the first byte announces the length and the
others may stand at their positions. `encode_eq_some_iff` says that the encoder,
which never looks at these classes, writes exactly these sequences. No sequence
begins another one, and every start of a sequence can be completed.
-/

namespace FormattedText

open ByteClass

namespace Encoding

/-- Do the bytes continue a character that begins with `lead`, the first of them
standing at `position`? -/
def follows (enc : Encoding) (lead : UInt8) : Nat → List UInt8 → Bool
  | _, [] => true
  | position, b :: rest => enc.continues lead position b && enc.follows lead (position + 1) rest

/-- Are the bytes one whole character, by their classes? -/
def isSequence (enc : Encoding) : List UInt8 → Bool
  | [] => false
  | lead :: rest => enc.sequenceLength? lead == some (rest.length + 1) && enc.follows lead 1 rest

/-- Are the bytes the beginning of a longer character, by their classes? -/
def isPartial (enc : Encoding) : List UInt8 → Bool
  | [] => false
  | lead :: rest => (enc.sequenceLength? lead).any (rest.length + 1 < ·) && enc.follows lead 1 rest

/-- A continuation is checked byte by byte. -/
theorem follows_append (enc : Encoding) (lead : UInt8) (position : Nat) (a b : List UInt8) :
    enc.follows lead position (a ++ b) =
      (enc.follows lead position a && enc.follows lead (position + a.length) b) := by
  induction a generalizing position with
  | nil => simp only [List.nil_append, follows, List.length_nil, Nat.add_zero, Bool.true_and]
  | cons c a ih =>
    simp only [List.cons_append, follows, ih, List.length_cons, Bool.and_assoc,
      show position + 1 + a.length = position + (a.length + 1) by omega]

theorem isSequence_cons {enc : Encoding} {lead : UInt8} {rest : List UInt8} :
    enc.isSequence (lead :: rest) = true ↔
      enc.sequenceLength? lead = some (rest.length + 1) ∧ enc.follows lead 1 rest = true := by
  simp only [isSequence, Bool.and_eq_true, beq_iff_eq]

theorem isPartial_cons {enc : Encoding} {lead : UInt8} {rest : List UInt8} :
    enc.isPartial (lead :: rest) = true ↔
      (∃ n, enc.sequenceLength? lead = some n ∧ rest.length + 1 < n) ∧
        enc.follows lead 1 rest = true := by
  simp only [isPartial, Bool.and_eq_true, Option.any_eq_true, decide_eq_true_eq]

section ByteRanges

/-! The byte classes as ranges of numbers. -/

theorem sequenceLength?_utf8_iff (b : UInt8) (n : Nat) :
    utf8.sequenceLength? b = some n ↔
      n = 1 ∧ b.toNat < 0x80 ∨ n = 2 ∧ 0xC2 ≤ b.toNat ∧ b.toNat ≤ 0xDF ∨
      n = 3 ∧ 0xE0 ≤ b.toNat ∧ b.toNat ≤ 0xEF ∨ n = 4 ∧ 0xF0 ≤ b.toNat ∧ b.toNat ≤ 0xF4 := by
  simp only [sequenceLength?, isAscii, decide_eq_true_eq, UInt8.lt_iff_toNat_lt,
    UInt8.le_iff_toNat_le, UInt8.reduceToNat]
  repeat' split
  all_goals simp only [Option.some.injEq, reduceCtorEq, false_iff]; omega

theorem sequenceLength?_eucJp_iff (b : UInt8) (n : Nat) :
    eucJp.sequenceLength? b = some n ↔
      n = 1 ∧ b.toNat < 0x80 ∨ n = 3 ∧ b.toNat = 0x8F ∨
      n = 2 ∧ (b.toNat = 0x8E ∨ 0xA1 ≤ b.toNat ∧ b.toNat ≤ 0xFE) := by
  simp only [sequenceLength?, isAscii, isEucByte, eucKanaLead, eucTripleLead, Bool.and_eq_true,
    decide_eq_true_eq, UInt8.lt_iff_toNat_lt, UInt8.le_iff_toNat_le, ← UInt8.toNat_inj,
    UInt8.reduceToNat]
  repeat' split
  all_goals simp only [Option.some.injEq, reduceCtorEq, false_iff]; omega

theorem sequenceLength?_shiftJis_iff (b : UInt8) (n : Nat) :
    shiftJis.sequenceLength? b = some n ↔
      n = 1 ∧ (b.toNat < 0x80 ∨ 0xA1 ≤ b.toNat ∧ b.toNat ≤ 0xDF) ∨
      n = 2 ∧ (0x81 ≤ b.toNat ∧ b.toNat ≤ 0x9F ∨ 0xE0 ≤ b.toNat ∧ b.toNat ≤ 0xEF) := by
  simp only [sequenceLength?, isAscii, isSjisKana, isSjisLead, Bool.and_eq_true, Bool.or_eq_true,
    decide_eq_true_eq, UInt8.lt_iff_toNat_lt, UInt8.le_iff_toNat_le, UInt8.reduceToNat]
  repeat' split
  all_goals simp only [Option.some.injEq, reduceCtorEq, false_iff]; omega

private theorem continues_utf8_second (lead b : UInt8) :
    utf8.continues lead 1 b = true ↔ 0x80 ≤ b.toNat ∧ b.toNat ≤ 0xBF ∧
      (lead.toNat = 0xE0 → 0xA0 ≤ b.toNat) ∧ (lead.toNat = 0xF0 → 0x90 ≤ b.toNat) ∧
      (lead.toNat = 0xED → b.toNat ≤ 0x9F) ∧ (lead.toNat = 0xF4 → b.toNat ≤ 0x8F) := by
  simp only [continues, utf8SecondMin, utf8SecondMax, ite_true, Bool.and_eq_true,
    decide_eq_true_eq, ← UInt8.toNat_inj, UInt8.reduceToNat]
  repeat' split
  all_goals simp only [UInt8.le_iff_toNat_le, UInt8.reduceToNat]; omega

private theorem continues_utf8_later {position : Nat} (h : position ≠ 1) (lead b : UInt8) :
    utf8.continues lead position b = true ↔ 0x80 ≤ b.toNat ∧ b.toNat ≤ 0xBF := by
  simp only [continues, h, ite_false, Bool.and_eq_true, decide_eq_true_eq,
    UInt8.le_iff_toNat_le, UInt8.reduceToNat]

theorem isEucByte_iff (b : UInt8) : isEucByte b = true ↔ 0xA1 ≤ b.toNat ∧ b.toNat ≤ 0xFE := by
  simp only [isEucByte, Bool.and_eq_true, decide_eq_true_eq, UInt8.le_iff_toNat_le,
    UInt8.reduceToNat]

theorem isJisByte_iff (b : UInt8) : isJisByte b = true ↔ 0x21 ≤ b.toNat ∧ b.toNat ≤ 0x7E := by
  simp only [isJisByte, Bool.and_eq_true, decide_eq_true_eq, UInt8.le_iff_toNat_le,
    UInt8.reduceToNat]

private theorem isSjisTrail_iff (b : UInt8) :
    isSjisTrail b = true ↔
      0x40 ≤ b.toNat ∧ b.toNat ≤ 0x7E ∨ 0x80 ≤ b.toNat ∧ b.toNat ≤ 0xFC := by
  simp only [isSjisTrail, Bool.or_eq_true, Bool.and_eq_true, decide_eq_true_eq,
    UInt8.le_iff_toNat_le, UInt8.reduceToNat]

private theorem isSjisLead_iff (b : UInt8) :
    isSjisLead b = true ↔
      0x81 ≤ b.toNat ∧ b.toNat ≤ 0x9F ∨ 0xE0 ≤ b.toNat ∧ b.toNat ≤ 0xEF := by
  simp only [isSjisLead, Bool.or_eq_true, Bool.and_eq_true, decide_eq_true_eq,
    UInt8.le_iff_toNat_le, UInt8.reduceToNat]

private theorem isSjisKana_iff (b : UInt8) :
    isSjisKana b = true ↔ 0xA1 ≤ b.toNat ∧ b.toNat ≤ 0xDF := by
  simp only [isSjisKana, Bool.and_eq_true, decide_eq_true_eq, UInt8.le_iff_toNat_le,
    UInt8.reduceToNat]

theorem toNat_pairValue (hi lo : UInt8) :
    (pairValue hi lo).toNat = hi.toNat * 256 + lo.toNat := by
  have hh := hi.toNat_lt
  have hl := lo.toNat_lt
  simp only [pairValue, UInt32.toNat_ofNat']
  omega

theorem toNat_pairHigh (wc : UInt32) : (pairHigh wc).toNat = wc.toNat / 256 % 256 := by
  simp only [pairHigh, UInt8.toNat_ofNat', Nat.reducePow]

theorem toNat_pairLow (wc : UInt32) : (pairLow wc).toNat = wc.toNat % 256 := by
  simp only [pairLow, UInt8.toNat_ofNat', Nat.reducePow, Nat.mod_mod]

theorem pairHigh_pairValue (hi lo : UInt8) : pairHigh (pairValue hi lo) = hi := by
  have hh := hi.toNat_lt
  have hl := lo.toNat_lt
  rw [← UInt8.toNat_inj, toNat_pairHigh, toNat_pairValue]
  omega

theorem pairLow_pairValue (hi lo : UInt8) : pairLow (pairValue hi lo) = lo := by
  have hl := lo.toNat_lt
  rw [← UInt8.toNat_inj, toNat_pairLow, toNat_pairValue]
  omega

end ByteRanges

/-- A first byte announces between one and four bytes. -/
theorem sequenceLength?_bounds {enc : Encoding} {lead : UInt8} {n : Nat}
    (h : enc.sequenceLength? lead = some n) : 1 ≤ n ∧ n ≤ 4 := by
  cases enc with
  | ascii =>
    simp only [sequenceLength?, Option.ite_none_right_eq_some, Option.some.injEq] at h
    omega
  | latin1 =>
    simp only [sequenceLength?, Option.some.injEq] at h
    omega
  | utf8 => rw [sequenceLength?_utf8_iff] at h; omega
  | eucJp => rw [sequenceLength?_eucJp_iff] at h; omega
  | shiftJis => rw [sequenceLength?_shiftJis_iff] at h; omega
  | jis => cases h

section Utf8

private theorem isSequence_utf8_one (a : UInt8) :
    utf8.isSequence [a] = true ↔ a.toNat < 0x80 := by
  simp [isSequence_cons, sequenceLength?_utf8_iff, follows]

private theorem isSequence_utf8_two (a b : UInt8) :
    utf8.isSequence [a, b] = true ↔ (0xC2 ≤ a.toNat ∧ a.toNat ≤ 0xDF) ∧
      0x80 ≤ b.toNat ∧ b.toNat ≤ 0xBF := by
  simp only [isSequence_cons, sequenceLength?_utf8_iff, follows, continues_utf8_second,
    List.length_cons, List.length_nil, Bool.and_true, true_and]
  omega

private theorem isSequence_utf8_three (a b c : UInt8) :
    utf8.isSequence [a, b, c] = true ↔ (0xE0 ≤ a.toNat ∧ a.toNat ≤ 0xEF) ∧
      (0x80 ≤ b.toNat ∧ b.toNat ≤ 0xBF) ∧ (a.toNat = 0xE0 → 0xA0 ≤ b.toNat) ∧
      (a.toNat = 0xED → b.toNat ≤ 0x9F) ∧ 0x80 ≤ c.toNat ∧ c.toNat ≤ 0xBF := by
  simp only [isSequence_cons, sequenceLength?_utf8_iff, follows, continues_utf8_second,
    continues_utf8_later (show 1 + 1 ≠ 1 by decide), List.length_cons, List.length_nil,
    Bool.and_eq_true, true_and, and_true]
  omega

private theorem isSequence_utf8_four (a b c d : UInt8) :
    utf8.isSequence [a, b, c, d] = true ↔ (0xF0 ≤ a.toNat ∧ a.toNat ≤ 0xF4) ∧
      (0x80 ≤ b.toNat ∧ b.toNat ≤ 0xBF) ∧ (a.toNat = 0xF0 → 0x90 ≤ b.toNat) ∧
      (a.toNat = 0xF4 → b.toNat ≤ 0x8F) ∧ (0x80 ≤ c.toNat ∧ c.toNat ≤ 0xBF) ∧
      0x80 ≤ d.toNat ∧ d.toNat ≤ 0xBF := by
  simp only [isSequence_cons, sequenceLength?_utf8_iff, follows, continues_utf8_second,
    continues_utf8_later (show 1 + 1 ≠ 1 by decide),
    continues_utf8_later (show 1 + 1 + 1 ≠ 1 by decide), List.length_cons, List.length_nil,
    Bool.and_eq_true, true_and, and_true]
  omega

private theorem toNat_utf8_one (a : UInt8) : (utf8.sequenceValue [a]).toNat = a.toNat :=
  UInt8.toNat_toUInt32 a

private theorem toNat_utf8_two (a b : UInt8) :
    (utf8.sequenceValue [a, b]).toNat = a.toNat % 32 * 64 + b.toNat % 64 := by
  simp only [sequenceValue, UInt32.toNat_ofNat', List.length_cons, List.length_nil,
    List.foldl_cons, List.foldl_nil, Nat.pow_eq, Nat.reducePow, Nat.reduceAdd, Nat.reduceSub]
  omega

private theorem toNat_utf8_three (a b c : UInt8) :
    (utf8.sequenceValue [a, b, c]).toNat =
      (a.toNat % 16 * 64 + b.toNat % 64) * 64 + c.toNat % 64 := by
  simp only [sequenceValue, UInt32.toNat_ofNat', List.length_cons, List.length_nil,
    List.foldl_cons, List.foldl_nil, Nat.pow_eq, Nat.reducePow, Nat.reduceAdd, Nat.reduceSub]
  omega

private theorem toNat_utf8_four (a b c d : UInt8) :
    (utf8.sequenceValue [a, b, c, d]).toNat =
      ((a.toNat % 8 * 64 + b.toNat % 64) * 64 + c.toNat % 64) * 64 + d.toNat % 64 := by
  simp only [sequenceValue, UInt32.toNat_ofNat', List.length_cons, List.length_nil,
    List.foldl_cons, List.foldl_nil, Nat.pow_eq, Nat.reducePow, Nat.reduceAdd, Nat.reduceSub]
  omega

private theorem tail_payload (n : Nat) : (0x80 + n % 64) % 2 ^ 8 % 64 = n % 64 := by omega

/-- What the UTF-8 encoder writes is a sequence that stands for the code point. -/
theorem isSequence_encodeUtf8 {wc : UInt32} {bytes : List UInt8}
    (h : encodeUtf8 wc = some bytes) :
    utf8.isSequence bytes = true ∧ utf8.sequenceValue bytes = wc := by
  simp only [encodeUtf8, Nat.pow_eq] at h
  split at h
  · cases h
  split at h
  · cases h
    constructor
    · simp only [isSequence_utf8_one, UInt8.toNat_ofNat']
      omega
    · simp only [← UInt32.toNat_inj, toNat_utf8_one, UInt8.toNat_ofNat']
      omega
  split at h
  · cases h
    constructor
    · simp only [isSequence_utf8_two, UInt8.toNat_ofNat']
      omega
    · simp only [← UInt32.toNat_inj, toNat_utf8_two, UInt8.toNat_ofNat', tail_payload]
      omega
  split at h
  · cases h
    constructor
    · have ht : wc.toNat / 64 ^ 2 = wc.toNat / 64 ^ 1 / 64 := by omega
      have hl : 32 ≤ wc.toNat / 64 ^ 1 ∧ wc.toNat / 64 ^ 1 < 1024 ∧
          ¬(864 ≤ wc.toNat / 64 ^ 1 ∧ wc.toNat / 64 ^ 1 < 896) := by omega
      simp only [isSequence_utf8_three, UInt8.toNat_ofNat', ht]
      generalize wc.toNat / 64 ^ 1 = m at hl ⊢
      omega
    · simp only [← UInt32.toNat_inj, toNat_utf8_three, UInt8.toNat_ofNat', tail_payload]
      omega
  · cases h
    constructor
    · have ht : wc.toNat / 64 ^ 3 = wc.toNat / 64 ^ 2 / 64 := by omega
      have hl : 16 ≤ wc.toNat / 64 ^ 2 ∧ wc.toNat / 64 ^ 2 < 272 := by omega
      simp only [isSequence_utf8_four, UInt8.toNat_ofNat', ht]
      generalize wc.toNat / 64 ^ 2 = m at hl ⊢
      omega
    · have hl : (0xF0 + wc.toNat / 64 ^ 3) % 2 ^ 8 % 8 = wc.toNat / 64 ^ 3 := by omega
      simp only [← UInt32.toNat_inj, toNat_utf8_four, UInt8.toNat_ofNat', tail_payload, hl]
      omega

/-- The UTF-8 encoder writes every sequence, for the code point it stands for. -/
theorem encodeUtf8_sequenceValue {bytes : List UInt8} (h : utf8.isSequence bytes = true) :
    encodeUtf8 (utf8.sequenceValue bytes) = some bytes := by
  match bytes, h with
  | [a], h =>
    rw [isSequence_utf8_one] at h
    simp only [encodeUtf8, Nat.pow_eq, toNat_utf8_one]
    rw [if_neg (by omega), if_pos (by omega), UInt8.ofNat_toNat]
  | [a, b], h =>
    rw [isSequence_utf8_two] at h
    simp only [encodeUtf8, Nat.pow_eq, toNat_utf8_two]
    rw [if_neg (by omega), if_neg (by omega), if_pos (by omega)]
    simp only [← UInt8.toNat_inj, Option.some.injEq, List.cons.injEq, UInt8.toNat_ofNat',
      and_true]
    omega
  | [a, b, c], h =>
    rw [isSequence_utf8_three] at h
    simp only [encodeUtf8, Nat.pow_eq, toNat_utf8_three]
    rw [if_neg (by omega), if_neg (by omega), if_neg (by omega), if_pos (by omega)]
    simp only [← UInt8.toNat_inj, Option.some.injEq, List.cons.injEq, UInt8.toNat_ofNat',
      and_true]
    omega
  | [a, b, c, d], h =>
    rw [isSequence_utf8_four] at h
    simp only [encodeUtf8, Nat.pow_eq, toNat_utf8_four]
    rw [if_neg (by omega), if_neg (by omega), if_neg (by omega), if_neg (by omega)]
    simp only [← UInt8.toNat_inj, Option.some.injEq, List.cons.injEq, UInt8.toNat_ofNat',
      and_true]
    omega
  | a :: b :: c :: d :: e :: rest, h =>
    have hn := (sequenceLength?_bounds (isSequence_cons.mp h).1).2
    simp only [List.length_cons] at hn
    omega

end Utf8

section EucJp

private theorem isSequence_eucJp_one (a : UInt8) :
    eucJp.isSequence [a] = true ↔ a.toNat < 0x80 := by
  simp [isSequence_cons, sequenceLength?_eucJp_iff, follows]

private theorem isSequence_eucJp_two (a b : UInt8) :
    eucJp.isSequence [a, b] = true ↔
      (a.toNat = 0x8E ∨ 0xA1 ≤ a.toNat ∧ a.toNat ≤ 0xFE) ∧ 0xA1 ≤ b.toNat ∧ b.toNat ≤ 0xFE := by
  simp [isSequence_cons, sequenceLength?_eucJp_iff, follows, continues, isEucByte_iff]

private theorem isSequence_eucJp_three (a b c : UInt8) :
    eucJp.isSequence [a, b, c] = true ↔ a = eucTripleLead ∧
      (0xA1 ≤ b.toNat ∧ b.toNat ≤ 0xFE) ∧ 0xA1 ≤ c.toNat ∧ c.toNat ≤ 0xFE := by
  simp [isSequence_cons, sequenceLength?_eucJp_iff, follows, continues, isEucByte_iff,
    eucTripleLead, ← UInt8.toNat_inj]

private theorem toNat_add_highBit {b : UInt8} (h : b.toNat < 0x80) :
    (b + 0x80).toNat = b.toNat + 0x80 := by
  rw [UInt8.toNat_add, show (0x80 : UInt8).toNat = 0x80 from rfl]
  omega

/-- What the EUC-JP encoder writes is a sequence that stands for the character. -/
theorem isSequence_encodeEucJp {wc : UInt32} {bytes : List UInt8}
    (h : encodeEucJp wc = some bytes) :
    eucJp.isSequence bytes = true ∧ eucJp.sequenceValue bytes = wc := by
  have hh := toNat_pairHigh wc
  have hl := toNat_pairLow wc
  simp only [encodeEucJp, UInt32.lt_iff_toNat_lt, UInt32.reduceToNat, ← UInt8.toNat_inj,
    eucKanaLead, UInt8.reduceToNat, isEucByte_iff, isJisByte_iff] at h
  split at h
  · cases h
    constructor
    · rw [isSequence_eucJp_one]
      omega
    · rw [← UInt32.toNat_inj, sequenceValue, UInt8.toNat_toUInt32]
      omega
  split at h
  · cases h
  split at h
  · cases h
    constructor
    · rw [isSequence_eucJp_two]
      omega
    · have hv : eucJp.sequenceValue [pairHigh wc, pairLow wc] =
          pairValue (pairHigh wc) (pairLow wc) := rfl
      rw [← UInt32.toNat_inj, hv, toNat_pairValue]
      omega
  split at h
  · cases h
    have hb := toNat_add_highBit (b := pairLow wc) (by omega)
    constructor
    · rw [isSequence_eucJp_three]
      exact ⟨rfl, by omega⟩
    · simp only [← UInt32.toNat_inj, sequenceValue, ite_true, toNat_pairValue, UInt8.toNat_ofNat']
      omega
  · cases h

/-- The EUC-JP encoder writes every sequence, for the character it stands for. -/
theorem encodeEucJp_sequenceValue {bytes : List UInt8} (h : eucJp.isSequence bytes = true) :
    encodeEucJp (eucJp.sequenceValue bytes) = some bytes := by
  match bytes, h with
  | [a], h =>
    rw [isSequence_eucJp_one] at h
    have hn : (eucJp.sequenceValue [a]).toNat = a.toNat := UInt8.toNat_toUInt32 a
    simp only [encodeEucJp, UInt32.lt_iff_toNat_lt, UInt32.reduceToNat, hn]
    rw [if_pos h, pairLow, hn, Nat.mod_eq_of_lt a.toNat_lt, UInt8.ofNat_toNat]
  | [a, b], h =>
    rw [isSequence_eucJp_two] at h
    have hv : eucJp.sequenceValue [a, b] = pairValue a b := rfl
    simp only [hv, encodeEucJp, UInt32.lt_iff_toNat_lt, UInt32.reduceToNat, toNat_pairValue,
      pairHigh_pairValue, pairLow_pairValue, eucKanaLead, ← UInt8.toNat_inj, UInt8.reduceToNat,
      isEucByte_iff]
    rw [if_neg (by omega), if_neg (by omega), if_pos h]
  | [a, b, c], h =>
    rw [isSequence_eucJp_three] at h
    obtain ⟨rfl, hb, hc⟩ := h
    have hl : (UInt8.ofNat (c.toNat % 128)).toNat = c.toNat - 128 := by
      rw [UInt8.toNat_ofNat']
      omega
    have ha := toNat_add_highBit (b := UInt8.ofNat (c.toNat % 128)) (by omega)
    have hv : eucJp.sequenceValue [eucTripleLead, b, c] =
        pairValue b (UInt8.ofNat (c.toNat % 128)) := rfl
    simp only [hv, encodeEucJp, UInt32.lt_iff_toNat_lt, UInt32.reduceToNat, toNat_pairValue,
      pairHigh_pairValue, pairLow_pairValue, eucKanaLead, ← UInt8.toNat_inj, UInt8.reduceToNat,
      isEucByte_iff, isJisByte_iff]
    rw [if_neg (by omega), if_neg (by omega), if_neg (by omega), if_pos (by omega)]
    simp only [Option.some.injEq, List.cons.injEq, true_and, and_true, ← UInt8.toNat_inj]
    omega
  | a :: b :: c :: d :: rest, h =>
    have hn := (isSequence_cons.mp h).1
    simp only [sequenceLength?_eucJp_iff, List.length_cons] at hn
    omega

end EucJp

section ShiftJis

private theorem isSequence_shiftJis_one (a : UInt8) :
    shiftJis.isSequence [a] = true ↔
      a.toNat < 0x80 ∨ 0xA1 ≤ a.toNat ∧ a.toNat ≤ 0xDF := by
  simp [isSequence_cons, sequenceLength?_shiftJis_iff, follows]

private theorem isSequence_shiftJis_two (a b : UInt8) :
    shiftJis.isSequence [a, b] = true ↔
      (0x81 ≤ a.toNat ∧ a.toNat ≤ 0x9F ∨ 0xE0 ≤ a.toNat ∧ a.toNat ≤ 0xEF) ∧
      (0x40 ≤ b.toNat ∧ b.toNat ≤ 0x7E ∨ 0x80 ≤ b.toNat ∧ b.toNat ≤ 0xFC) := by
  simp [isSequence_cons, sequenceLength?_shiftJis_iff, follows, continues, isSjisTrail_iff]

/-- What the Shift_JIS encoder writes is a sequence that stands for the character. -/
theorem isSequence_encodeShiftJis {wc : UInt32} {bytes : List UInt8}
    (h : encodeShiftJis wc = some bytes) :
    shiftJis.isSequence bytes = true ∧ shiftJis.sequenceValue bytes = wc := by
  have hh := toNat_pairHigh wc
  have hl := toNat_pairLow wc
  simp only [encodeShiftJis, UInt32.lt_iff_toNat_lt, UInt32.le_iff_toNat_le, UInt32.reduceToNat,
    isAscii, decide_eq_true_eq, UInt8.lt_iff_toNat_lt, UInt8.reduceToNat, isSjisKana_iff,
    isSjisLead_iff, isSjisTrail_iff] at h
  split at h
  · split at h
    · cases h
      constructor
      · rw [isSequence_shiftJis_one]
        omega
      · rw [← UInt32.toNat_inj, sequenceValue, UInt8.toNat_toUInt32]
        omega
    · cases h
  split at h
  · cases h
  split at h
  · rename_i hp
    cases h
    constructor
    · exact (isSequence_shiftJis_two _ _).mpr hp
    · have hv : shiftJis.sequenceValue [pairHigh wc, pairLow wc] =
          pairValue (pairHigh wc) (pairLow wc) := rfl
      rw [← UInt32.toNat_inj, hv, toNat_pairValue]
      omega
  · cases h

/-- The Shift_JIS encoder writes every sequence, for the character it stands for. -/
theorem encodeShiftJis_sequenceValue {bytes : List UInt8}
    (h : shiftJis.isSequence bytes = true) :
    encodeShiftJis (shiftJis.sequenceValue bytes) = some bytes := by
  match bytes, h with
  | [a], h =>
    rw [isSequence_shiftJis_one] at h
    have ha := a.toNat_lt
    have hn : (shiftJis.sequenceValue [a]).toNat = a.toNat := UInt8.toNat_toUInt32 a
    have hl : pairLow (shiftJis.sequenceValue [a]) = a := by
      rw [pairLow, hn, Nat.mod_eq_of_lt ha, UInt8.ofNat_toNat]
    simp only [encodeShiftJis, UInt32.le_iff_toNat_le, UInt32.reduceToNat, hn, hl, isAscii,
      decide_eq_true_eq, UInt8.lt_iff_toNat_lt, UInt8.reduceToNat, isSjisKana_iff]
    rw [if_pos (by omega), if_pos h]
  | [a, b], h =>
    rw [isSequence_shiftJis_two] at h
    have ha := a.toNat_lt
    have hb := b.toNat_lt
    have hv : shiftJis.sequenceValue [a, b] = pairValue a b := rfl
    simp only [hv, encodeShiftJis, UInt32.lt_iff_toNat_lt, UInt32.le_iff_toNat_le,
      UInt32.reduceToNat, toNat_pairValue, pairHigh_pairValue, pairLow_pairValue, isSjisLead_iff,
      isSjisTrail_iff]
    rw [if_neg (by omega), if_neg (by omega), if_pos h]
  | a :: b :: c :: rest, h =>
    have hn := (isSequence_cons.mp h).1
    simp only [sequenceLength?_shiftJis_iff, List.length_cons] at hn
    omega

end ShiftJis

section SingleByte

/-- A seven-bit sequence is one seven-bit byte. -/
private theorem isSequence_ascii_iff {bytes : List UInt8} :
    ascii.isSequence bytes = true ↔ ∃ b : UInt8, bytes = [b] ∧ b.toNat < 0x80 := by
  match bytes with
  | [] => simp [isSequence]
  | [b] => simp [isSequence_cons, sequenceLength?, isAscii, UInt8.lt_iff_toNat_lt, follows]
  | b :: c :: rest => simp [isSequence_cons, sequenceLength?]

/-- A sequence of ISO-8859-1 is any one byte. -/
private theorem isSequence_latin1_iff {bytes : List UInt8} :
    latin1.isSequence bytes = true ↔ ∃ b : UInt8, bytes = [b] := by
  match bytes with
  | [] => simp [isSequence]
  | [b] => simp [isSequence_cons, sequenceLength?, follows]
  | b :: c :: rest => simp [isSequence_cons, sequenceLength?]

private theorem pairLow_toUInt32 (b : UInt8) : pairLow b.toUInt32 = b := by
  rw [← UInt8.toNat_inj, toNat_pairLow, UInt8.toNat_toUInt32, Nat.mod_eq_of_lt b.toNat_lt]

private theorem toUInt32_pairLow {wc : UInt32} (h : wc.toNat ≤ 0xFF) :
    (pairLow wc).toUInt32 = wc := by
  rw [← UInt32.toNat_inj, UInt8.toNat_toUInt32, toNat_pairLow]
  omega

end SingleByte

/-- What the encoder writes is a sequence that stands for the character; the state
stays. -/
theorem isSequence_of_encode {enc : Encoding} (he : enc.isStateful = false)
    {s t : ConversionState} {wc : UInt32} {bytes : List UInt8}
    (h : enc.encode s wc = some (bytes, t)) :
    t = s ∧ enc.isSequence bytes = true ∧ enc.sequenceValue bytes = wc := by
  cases enc with
  | ascii =>
    obtain ⟨hw, hb⟩ := Option.ite_none_right_eq_some.mp h
    simp only [UInt32.le_iff_toNat_le, UInt32.reduceToNat] at hw
    cases hb
    have hl := toNat_pairLow wc
    exact ⟨rfl, isSequence_ascii_iff.mpr ⟨pairLow wc, rfl, by omega⟩,
      toUInt32_pairLow (by omega)⟩
  | latin1 =>
    obtain ⟨hw, hb⟩ := Option.ite_none_right_eq_some.mp h
    simp only [UInt32.le_iff_toNat_le, UInt32.reduceToNat] at hw
    cases hb
    exact ⟨rfl, isSequence_latin1_iff.mpr ⟨pairLow wc, rfl⟩, toUInt32_pairLow hw⟩
  | utf8 =>
    obtain ⟨b, hb, he⟩ := Option.map_eq_some_iff.mp h
    cases he
    exact ⟨rfl, isSequence_encodeUtf8 hb⟩
  | eucJp =>
    obtain ⟨b, hb, he⟩ := Option.map_eq_some_iff.mp h
    cases he
    exact ⟨rfl, isSequence_encodeEucJp hb⟩
  | shiftJis =>
    obtain ⟨b, hb, he⟩ := Option.map_eq_some_iff.mp h
    cases he
    exact ⟨rfl, isSequence_encodeShiftJis hb⟩
  | jis => cases he

/-- The encoder writes every sequence, for the character it stands for. -/
theorem encode_sequenceValue {enc : Encoding} {bytes : List UInt8}
    (h : enc.isSequence bytes = true) (s : ConversionState) :
    enc.encode s (enc.sequenceValue bytes) = some (bytes, s) := by
  cases enc with
  | ascii =>
    obtain ⟨b, rfl, hb⟩ := isSequence_ascii_iff.mp h
    simp only [encode, sequenceValue, pairLow_toUInt32, UInt32.le_iff_toNat_le,
      UInt8.toNat_toUInt32, UInt32.reduceToNat]
    rw [if_pos (by omega)]
  | latin1 =>
    obtain ⟨b, rfl⟩ := isSequence_latin1_iff.mp h
    have hb := b.toNat_lt
    simp only [encode, sequenceValue, pairLow_toUInt32, UInt32.le_iff_toNat_le,
      UInt8.toNat_toUInt32, UInt32.reduceToNat]
    rw [if_pos (by omega)]
  | utf8 => simp only [encode, encodeUtf8_sequenceValue h, Option.map_some]
  | eucJp => simp only [encode, encodeEucJp_sequenceValue h, Option.map_some]
  | shiftJis => simp only [encode, encodeShiftJis_sequenceValue h, Option.map_some]
  | jis =>
    match bytes, h with
    | lead :: rest, h => cases (isSequence_cons.mp h).1

/-- The encoder and the byte classes, which know nothing of each other, describe
the same characters. -/
theorem encode_eq_some_iff {enc : Encoding} (he : enc.isStateful = false)
    {s t : ConversionState} {wc : UInt32} {bytes : List UInt8} :
    enc.encode s wc = some (bytes, t) ↔
      t = s ∧ enc.isSequence bytes = true ∧ enc.sequenceValue bytes = wc := by
  constructor
  · exact isSequence_of_encode he
  · rintro ⟨rfl, hs, rfl⟩
    exact encode_sequenceValue hs t

/-- A sequence has between one and four bytes. -/
theorem isSequence_length {enc : Encoding} {bytes : List UInt8}
    (h : enc.isSequence bytes = true) : 1 ≤ bytes.length ∧ bytes.length ≤ 4 := by
  match bytes, h with
  | lead :: rest, h => exact sequenceLength?_bounds (isSequence_cons.mp h).1

/-- No sequence begins another one. -/
theorem isSequence_append {enc : Encoding} {a b : List UInt8}
    (ha : enc.isSequence a = true) (h : enc.isSequence (a ++ b) = true) : b = [] := by
  match a, ha with
  | lead :: rest, ha =>
    have hl := (isSequence_cons.mp ha).1
    rw [List.cons_append, isSequence_cons, hl, Option.some.injEq, List.length_append] at h
    exact List.eq_nil_of_length_eq_zero (by omega)

/-- A partial sequence is no whole one, and no whole one begins it. -/
theorem not_isPartial_append {enc : Encoding} {a : List UInt8}
    (ha : enc.isSequence a = true) (b : List UInt8) : enc.isPartial (a ++ b) = false := by
  match a, ha with
  | lead :: rest, ha =>
    have hl := (isSequence_cons.mp ha).1
    rw [Bool.eq_false_iff, List.cons_append, ne_eq, isPartial_cons, hl]
    rintro ⟨⟨n, hn, hlt⟩, _⟩
    rw [Option.some.injEq] at hn
    rw [List.length_append] at hlt
    omega

/-- The beginning of a sequence is partial. -/
theorem isPartial_of_isSequence {enc : Encoding} {a b : List UInt8} (ha : a ≠ []) (hb : b ≠ [])
    (h : enc.isSequence (a ++ b) = true) : enc.isPartial a = true := by
  match a, ha with
  | lead :: rest, _ =>
    rw [List.cons_append, isSequence_cons, follows_append, Bool.and_eq_true] at h
    have hl := List.length_pos_iff.mpr hb
    exact isPartial_cons.mpr ⟨⟨_, h.1, by rw [List.length_append]; omega⟩, h.2.1⟩

/-- Wherever a character goes on, some byte may stand. -/
theorem exists_continues {enc : Encoding} {lead : UInt8} {n : Nat}
    (h : enc.sequenceLength? lead = some n) (hn : 1 < n) (position : Nat) :
    ∃ b, enc.continues lead position b = true := by
  cases enc with
  | ascii =>
    simp only [sequenceLength?, Option.ite_none_right_eq_some, Option.some.injEq] at h
    omega
  | latin1 =>
    simp only [sequenceLength?, Option.some.injEq] at h
    omega
  | utf8 =>
    by_cases hp : position = 1
    · subst hp
      refine ⟨utf8SecondMin lead, ?_⟩
      simp only [continues, ite_true, utf8SecondMin, utf8SecondMax]
      repeat' split
      all_goals simp_all
    · exact ⟨0x80, (continues_utf8_later hp lead 0x80).mpr (by decide)⟩
  | eucJp => exact ⟨0xA1, rfl⟩
  | shiftJis => exact ⟨0x40, rfl⟩
  | jis => cases h

/-- Every partial sequence can be completed. -/
theorem exists_isSequence {enc : Encoding} {a : List UInt8} (h : enc.isPartial a = true) :
    ∃ b, b ≠ [] ∧ enc.isSequence (a ++ b) = true := by
  match a, h with
  | lead :: rest, h =>
    obtain ⟨⟨n, hn, hlt⟩, hf⟩ := isPartial_cons.mp h
    have hc : ∀ count position : Nat, ∃ b : List UInt8,
        b.length = count ∧ enc.follows lead position b = true := by
      intro count
      induction count with
      | zero => exact fun _ => ⟨[], rfl, rfl⟩
      | succ count ih =>
        intro position
        obtain ⟨c, hc⟩ := exists_continues hn (by omega) position
        obtain ⟨b, hb, hfb⟩ := ih (position + 1)
        exact ⟨c :: b, by rw [List.length_cons, hb], by simp only [follows, hc, hfb, Bool.and_self]⟩
    obtain ⟨b, hb, hfb⟩ := hc (n - (rest.length + 1)) (1 + rest.length)
    refine ⟨b, List.ne_nil_of_length_pos (by omega), ?_⟩
    rw [List.cons_append, isSequence_cons, List.length_append, follows_append, hf, hfb, hn]
    exact ⟨congrArg some (by omega), rfl⟩

end Encoding

end FormattedText
