import FormattedText.Proofs.Field.WideBlocks

/-!
# Wide text within a limit

Wide text is measured character by character, and it is written in blocks. Measuring never
looks at the terminator, and a block never looks beyond itself; but both stop behind the same
characters (`CutsAt`): as many as fit whole within the limit. So the number that is measured
is the number of bytes that are written, and one fails where the other does
(`exists_measuredAsWritten`).
-/

namespace FormattedText

open Encoding

namespace Field

/-- How a text goes on behind characters of it whose bytes, `used` in number, are within a
limit and leave the state `t`: what stops there, and the failure if it is one. -/
inductive EndsAt (enc : Encoding) (limit : Option Nat) (used : Nat) (t : ConversionState) :
    List UInt32 → Option Failure → Prop where
  /-- There are no more characters. -/
  | drained : EndsAt enc limit used t [] none
  /-- The terminator follows. -/
  | terminator (rest : List UInt32) : EndsAt enc limit used t (0 :: rest) none
  /-- The next character finds no room. One without bytes is not looked at if the limit is
  reached. -/
  | full {wc : UInt32} (rest : List UInt32)
      (hroom : ∀ b u, enc.encode t wc = some (b, u) → hasRoomFor limit (used + b.length) = false)
      (hspent : enc.encode t wc = none → hasRoomFor limit (used + 1) = false) :
      EndsAt enc limit used t (wc :: rest) none
  /-- The next character has no bytes, and the limit is not reached. -/
  | refused {wc : UInt32} (rest : List UInt32) (he : enc.encode t wc = none)
      (hroom : hasRoomFor limit (used + 1) = true) :
      EndsAt enc limit used t (wc :: rest) (some .invalidSequence)

/-- A text is cut behind the characters that come before its first zero and fit whole within
a limit. -/
structure CutsAt (enc : Encoding) (limit : Option Nat) (w taken : List UInt32)
    (bytes : List UInt8) (t : ConversionState) (rest : List UInt32) (failure : Option Failure) :
    Prop where
  /-- The text is cut in two. -/
  split : w = taken ++ rest
  /-- No terminator is taken. -/
  zero_not_mem : 0 ∉ taken
  /-- The bytes of the characters, and the state behind them. -/
  writes : enc.Writes .initial taken bytes t
  /-- They fit. -/
  fits : hasRoomFor limit bytes.length = true
  /-- Why no more characters are taken. -/
  ends : EndsAt enc limit bytes.length t rest failure

/-- The bytes of characters within a limit, with the return to the initial shift if that fits
too. -/
def closedWithin (limit : Option Nat) (bytes : List UInt8) (t : ConversionState) : List UInt8 :=
  let reset := escapeBetween t.shift .ascii
  if hasRoomFor limit (bytes.length + reset.length) then bytes ++ reset else bytes

section Cutting

variable {enc : Encoding} {limit : Option Nat} {s t u : ConversionState} {used : Nat}
  {w taken rest : List UInt32} {bytes more : List UInt8} {failure : Option Failure}

/-- From any state on, as many characters are taken as fit whole. -/
theorem exists_endsAt (enc : Encoding) (limit : Option Nat) (s : ConversionState)
    (w : List UInt32) (h : hasRoomFor limit used = true) :
    ∃ taken rest bytes t failure, w = taken ++ rest ∧ 0 ∉ taken ∧ enc.Writes s taken bytes t ∧
      hasRoomFor limit (used + bytes.length) = true ∧
      EndsAt enc limit (used + bytes.length) t rest failure := by
  induction w generalizing s used with
  | nil => exact ⟨[], [], [], s, none, rfl, List.not_mem_nil, .nil s, h, .drained⟩
  | cons wc w ih =>
    by_cases hz : wc = 0
    · subst hz
      exact ⟨[], 0 :: w, [], s, none, rfl, List.not_mem_nil, .nil s, h, .terminator w⟩
    cases he : enc.encode s wc with
    | none =>
      cases hroom : hasRoomFor limit (used + 1) with
      | true => exact ⟨[], wc :: w, [], s, _, rfl, List.not_mem_nil, .nil s, h, .refused w he hroom⟩
      | false =>
        have hends : EndsAt enc limit used s (wc :: w) none := by
          refine .full w (fun b u hb => ?_) fun _ => hroom
          rw [he] at hb
          cases hb
        exact ⟨[], wc :: w, [], s, none, rfl, List.not_mem_nil, .nil s, h, hends⟩
    | some form =>
      obtain ⟨b, u⟩ := form
      cases hroom : hasRoomFor limit (used + b.length) with
      | false =>
        have hends : EndsAt enc limit used s (wc :: w) none := by
          refine .full w (fun b' u' hb => ?_) fun hnone => ?_
          · rw [he] at hb
            cases hb
            exact hroom
          · rw [he] at hnone
            cases hnone
        exact ⟨[], wc :: w, [], s, none, rfl, List.not_mem_nil, .nil s, h, hends⟩
      | true =>
        obtain ⟨taken, rest, bytes, t, failure, hsplit, hmem, hwrites, hfits, hends⟩ := ih u hroom
        rw [Nat.add_assoc, ← List.length_append] at hfits hends
        refine ⟨wc :: taken, rest, b ++ bytes, t, failure, ?_, ?_, .cons he hwrites, hfits, hends⟩
        · rw [hsplit, List.cons_append]
        · exact List.not_mem_cons_of_ne_of_not_mem (Ne.symm hz) hmem

theorem exists_cutsAt (enc : Encoding) (limit : Option Nat) (w : List UInt32) :
    ∃ taken bytes t rest failure, CutsAt enc limit w taken bytes t rest failure := by
  have hzero : hasRoomFor limit 0 = true := by cases limit <;> rfl
  obtain ⟨taken, rest, bytes, t, failure, hsplit, hmem, hwrites, hfits, hends⟩ :=
    exists_endsAt enc limit .initial w hzero
  rw [Nat.zero_add] at hfits hends
  exact ⟨taken, bytes, t, rest, failure, hsplit, hmem, hwrites, hfits, hends⟩

/-- The bytes of a text begin with those of its first part, and the others continue them. -/
theorem writes_append (h : enc.Writes s taken bytes t) (hw : enc.Writes s (taken ++ w) more u) :
    ∃ later, more = bytes ++ later ∧ enc.Writes t w later u := by
  induction h generalizing more with
  | nil => exact ⟨more, rfl, hw⟩
  | @cons s t' t wc taken b bytes h hrest ih =>
    cases hw with
    | cons h' hw =>
      rw [h] at h'
      cases h'
      obtain ⟨later, rfl, hlater⟩ := ih hw
      exact ⟨later, (List.append_assoc _ _ _).symm, hlater⟩

/-- There is always room for one character. -/
theorem encodeOne_longest {wc : UInt32} (h : enc.encode s wc = some (bytes, t)) :
    enc.encodeOne (some longestCharacter) wc s = ⟨.ok bytes.length, bytes, t⟩ := by
  have hroom : ¬ longestCharacter < bytes.length :=
    Nat.not_lt.mpr (Nat.le_trans (length_of_encode h).2 (maxCharacterLength_le enc))
  simp only [encodeOne, h, hroom, ite_false]

/-- The way back to the initial shift is the terminator without its zero byte. -/
theorem shiftReset_eq (ht : enc.IsBetween t) :
    shiftReset enc t = escapeBetween t.shift .ascii := by
  rw [shiftReset]
  split
  · rename_i hinitial
    rw [ConversionState.isInitial_iff.mp hinitial]
    rfl
  · rw [encodeOne_longest ht.encode_zero, List.dropLast_concat]

/-- The end of a text does not fail, or it fails at a character without bytes. -/
theorem EndsAt.failure_eq_iff (h : EndsAt enc limit used t rest failure) :
    failure = some .invalidSequence ↔ ∃ wc later, rest = wc :: later ∧ enc.encode t wc = none ∧
      hasRoomFor limit (used + 1) = true := by
  constructor
  · intro hfailure
    cases h with
    | drained | terminator | full => cases hfailure
    | @refused wc rest he hroom => exact ⟨wc, rest, rfl, he, hroom⟩
  · rintro ⟨wc, later, hrest, he, hroom⟩
    cases h with
    | drained => cases hrest
    | terminator =>
      cases hrest
      exact absurd he (enc.encode_zero_ne_none t)
    | full _ _ hspent =>
      cases hrest
      rw [hspent he] at hroom
      cases hroom
    | refused => rfl

end Cutting

section Measuring

variable {enc : Encoding} {limit : Option Nat} {s t : ConversionState} {used : Nat}
  {w taken rest : List UInt32} {bytes : List UInt8} {failure : Option Failure}

/-- The characters that fit are all measured. -/
theorem measureFrom_writes (h : enc.Writes s taken bytes t) (hmem : 0 ∉ taken)
    (hfits : hasRoomFor limit (used + bytes.length) = true) (rest : List UInt32) :
    measureFrom enc limit used s (taken ++ rest) =
      measureFrom enc limit (used + bytes.length) t rest := by
  induction h generalizing used with
  | nil => rfl
  | @cons s t u wc taken bytes more h hrest ih =>
    rw [List.length_append, ← Nat.add_assoc] at hfits ⊢
    have hbytes := hasRoomFor_of_le hfits (Nat.le_add_right _ _)
    have hone := hasRoomFor_of_le hbytes (Nat.add_le_add_left (length_of_encode h).1 used)
    have hwc : wc ≠ 0 := fun hz => hmem (hz ▸ List.mem_cons_self)
    rw [← ih (fun hlater => hmem (List.mem_cons_of_mem wc hlater)) hfits, List.cons_append,
      measureFrom, encodeOne_longest h]
    simp only [hwc, hone, hbytes, Bool.not_true, Bool.false_eq_true, or_self, ite_false]

/-- Measuring stops where the text ends within the limit. -/
theorem EndsAt.measureFrom (h : EndsAt enc limit used t rest failure) :
    measureFrom enc limit used t rest = failure.elim (.ok (used, t)) .error := by
  cases h with
  | drained | terminator => rfl
  | @full wc rest hroom hspent =>
    rw [Field.measureFrom]
    split
    · rfl
    · rename_i hnot
      cases he : enc.encode t wc with
      | none => exact absurd (Or.inr (by rw [hspent he]; rfl)) hnot
      | some form =>
        obtain ⟨b, u⟩ := form
        simp only [encodeOne_longest he, hroom b u he, Bool.not_false, ite_true]
        rfl
  | @refused wc rest he hroom =>
    have hwc : wc ≠ 0 := by
      rintro rfl
      exact enc.encode_zero_ne_none t he
    simp only [Field.measureFrom, hwc, hroom, encodeOne, he, Bool.not_true, Bool.false_eq_true,
      or_self, ite_false]
    rfl

/-- The number of bytes that is measured is that of the text as it is written. -/
theorem CutsAt.measureWide (h : CutsAt enc limit w taken bytes t rest failure) :
    measureWide enc limit w = failure.elim (.ok (closedWithin limit bytes t).length) .error := by
  have hfits : hasRoomFor limit (0 + bytes.length) = true := by
    rw [Nat.zero_add]
    exact h.fits
  have hall := measureFrom_writes h.writes h.zero_not_mem hfits rest
  rw [Nat.zero_add, h.ends.measureFrom, ← h.split] at hall
  rw [Field.measureWide, hall]
  cases failure with
  | some e => rfl
  | none =>
    have ht := h.writes.isBetween (isBetween_initial enc)
    simp only [Option.elim_none, Except.map, shiftReset_eq ht, closedWithin]
    split
    · rw [List.length_append]
    · rfl

end Measuring

section Writing

variable {enc : Encoding} {limit : Option Nat} {t : ConversionState} {w taken rest : List UInt32}
  {bytes : List UInt8} {failure : Option Failure}

theorem bytesOf_text (blocks : List (List UInt8)) :
    Piece.bytesOf (blocks.map .text) = blocks.flatten := by
  rw [Piece.bytesOf, List.flatMap_map]
  exact List.flatMap_id

/-- Blocks that all could be written are closed. -/
theorem bytes_widePieces {blocks : WideBlocks}
    (hblocks : encodeBlocks enc limit .initial blockBuffer w = blocks)
    (hstate : enc.IsBetween blocks.state) (h : blocks.failure = none) :
    (widePieces enc limit w).bytes = closedWithin limit blocks.blocks.flatten blocks.state := by
  simp only [widePieces, hblocks, h, Option.isNone_none, true_and, shiftReset_eq hstate,
    WideBlocks.length_eq, closedWithin, bytes, Piece.bytesOf, List.flatMap_append]
  rw [← Piece.bytesOf, bytesOf_text]
  split
  · exact congrArg (_ ++ ·) (List.append_nil _)
  · exact List.append_nil _

/-- Blocks before a character without bytes are not closed. -/
theorem bytes_widePieces_of_failed {blocks : WideBlocks} {e : Failure}
    (hblocks : encodeBlocks enc limit .initial blockBuffer w = blocks)
    (h : blocks.failure = some e) :
    (widePieces enc limit w).bytes = blocks.blocks.flatten := by
  simp only [widePieces, hblocks, h, Option.isNone_some, Bool.false_eq_true, false_and, ite_false,
    List.append_nil]
  exact bytesOf_text blocks.blocks

/-- In the initial shift nothing closes a text. -/
theorem closedWithin_initial (limit : Option Nat) (bytes : List UInt8) :
    closedWithin limit bytes .initial = bytes := by
  have hreset : escapeBetween ConversionState.initial.shift .ascii = [] := rfl
  rw [closedWithin, hreset, List.append_nil]
  exact ite_self bytes

/-- Where the terminator finds room, the text is closed as the terminator closes it. -/
theorem closedWithin_terminated (hfits : hasRoomFor limit bytes.length = true)
    (hroom : hasRoomFor (roomAfter limit bytes.length)
      (escapeBetween t.shift .ascii ++ [0]).length = true) :
    closedWithin limit bytes t = bytes ++ escapeBetween t.shift .ascii := by
  rw [hasRoomFor_roomAfter hfits, List.length_append, ← Nat.add_assoc] at hroom
  rw [closedWithin]
  exact if_pos (hasRoomFor_of_le hroom (Nat.le_add_right _ _))

/-- The pieces fail as the blocks do. -/
theorem failure_widePieces {blocks : WideBlocks}
    (hblocks : encodeBlocks enc limit .initial blockBuffer w = blocks) :
    (widePieces enc limit w).failure = blocks.failure := by
  rw [widePieces, hblocks]

/-- A text that is not stopped by its terminator is closed behind the characters taken. -/
theorem widePieces_of_stopped {blocks : WideBlocks} {ending : Ending}
    (hblocks : encodeBlocks enc limit .initial blockBuffer w = blocks) (ht : enc.IsBetween t)
    (hon : ending.goesOn = true)
    (hfollow : blocks.Follow (Progress.after bytes ⟨[], ending, rest, t⟩)) :
    (widePieces enc limit w).failure = none ∧
      (widePieces enc limit w).bytes = closedWithin limit bytes t := by
  cases hfollow with
  | terminated hending =>
    cases hending
    cases hon
  | stopped _ hbytes hstate hfailure =>
    refine ⟨(failure_widePieces hblocks).trans hfailure, ?_⟩
    have hbetween : enc.IsBetween blocks.state := by
      rw [hstate]
      exact ht
    rw [bytes_widePieces hblocks hbetween hfailure, hbytes, hstate, Progress.after,
      List.append_nil]
  | invalid hending =>
    cases hending
    cases hon

/-- A text that is stopped by its terminator is closed by it. -/
theorem widePieces_of_terminated {blocks : WideBlocks} {reset : List UInt8}
    (hblocks : encodeBlocks enc limit .initial blockBuffer w = blocks)
    (hfollow : blocks.Follow (Progress.after bytes ⟨reset ++ [0], .terminated, rest, t⟩)) :
    (widePieces enc limit w).failure = none ∧
      (widePieces enc limit w).bytes = bytes ++ reset := by
  cases hfollow with
  | terminated _ hbytes hstate hfailure =>
    refine ⟨(failure_widePieces hblocks).trans hfailure, ?_⟩
    have hbetween : enc.IsBetween blocks.state := by
      rw [hstate]
      exact isBetween_initial enc
    rw [bytes_widePieces hblocks hbetween hfailure, hstate, closedWithin_initial, hbytes,
      Progress.after, ← List.append_assoc, List.dropLast_concat]
  | stopped hending => cases hending
  | invalid hending => cases hending

/-- The pieces of a text are the bytes of the characters that are taken, closed unless the text
fails behind them. -/
theorem CutsAt.widePieces (h : CutsAt enc limit w taken bytes t rest failure) :
    (widePieces enc limit w).failure = failure ∧
      (widePieces enc limit w).bytes =
        failure.elim (closedWithin limit bytes t) fun _ => bytes := by
  have ht := h.writes.isBetween (isBetween_initial enc)
  have hfollow := encodeBlocks_follow enc limit .initial blockBuffer w
  have hall := h.writes.encodeAll_append h.zero_not_mem h.fits rest
  rw [← h.split] at hall
  rw [hall] at hfollow
  generalize hblocks : encodeBlocks enc limit .initial blockBuffer w = blocks at hfollow
  cases h.ends with
  | drained => exact widePieces_of_stopped hblocks ht rfl hfollow
  | terminator rest =>
    -- a block tries the terminator with its zero byte, so it may be full where the way back to
    -- the initial shift still fits
    have hz := ht.encode_zero
    cases hroom : hasRoomFor (roomAfter limit bytes.length)
        (escapeBetween t.shift .ascii ++ [0]).length with
    | true =>
      rw [encodeAll_cons hz hroom, if_pos rfl] at hfollow
      rw [Option.elim_none, closedWithin_terminated h.fits hroom]
      exact widePieces_of_terminated hblocks hfollow
    | false =>
      rw [encodeAll_full (fun b u he => ?_) (fun he => ?_)] at hfollow
      · exact widePieces_of_stopped hblocks ht rfl hfollow
      · rw [hz] at he
        cases he
        exact hroom
      · rw [hz] at he
        cases he
  | full rest hroom hspent =>
    rw [encodeAll_full (fun b u he => ?_) (fun he => ?_)] at hfollow
    · exact widePieces_of_stopped hblocks ht rfl hfollow
    · exact (hasRoomFor_roomAfter h.fits _).trans (hroom b u he)
    · exact (hasRoomFor_roomAfter h.fits _).trans (hspent he)
  | refused rest he hroom =>
    rw [encodeAll_refused he ((hasRoomFor_roomAfter h.fits _).trans hroom)] at hfollow
    cases hfollow with
    | terminated hending => cases hending
    | stopped hending => cases hending
    | invalid _ hbytes hfailure =>
      refine ⟨(failure_widePieces hblocks).trans hfailure, ?_⟩
      rw [bytes_widePieces_of_failed hblocks hfailure, hbytes]
      exact List.append_nil bytes

end Writing

/-- The characters that a text gives within a limit, their bytes, and the state behind them:
the longest part of the text, from its beginning and before its first zero, that fits whole. -/
structure LongestWithin (enc : Encoding) (limit : Option Nat) (w taken : List UInt32)
    (bytes : List UInt8) (t : ConversionState) : Prop where
  /-- The characters are the first ones of the text. -/
  begins : taken <+: w.takeWhile (· ≠ 0)
  /-- Their bytes from the initial state on. -/
  writes : enc.Writes .initial taken bytes t
  /-- The bytes fit. -/
  fits : hasRoomFor limit bytes.length = true
  /-- No more characters fit. -/
  longest : ∀ other otherBytes u, other <+: w.takeWhile (· ≠ 0) →
    enc.Writes .initial other otherBytes u → hasRoomFor limit otherBytes.length = true →
    other <+: taken

/-- Behind the characters that a text gives comes one without bytes, and there is room for a
byte more. -/
def Refuses (enc : Encoding) (limit : Option Nat) (w taken : List UInt32) (bytes : List UInt8)
    (t : ConversionState) : Prop :=
  ∃ wc rest, w = taken ++ wc :: rest ∧ enc.encode t wc = none ∧
    hasRoomFor limit (bytes.length + 1) = true

/-- Measuring a text within a limit and writing it agree. -/
structure MeasuredAsWritten (enc : Encoding) (limit : Option Nat) (w taken : List UInt32)
    (bytes : List UInt8) (t : ConversionState) : Prop where
  /-- The text gives as many characters as fit whole. -/
  longest : LongestWithin enc limit w taken bytes t
  /-- The limit is kept, also with the return to the initial shift. -/
  within : hasRoomFor limit (closedWithin limit bytes t).length = true
  /-- Both fail at a character without bytes that is met within the limit. -/
  refused : Refuses enc limit w taken bytes t →
    measureWide enc limit w = .error .invalidSequence ∧
      (widePieces enc limit w).failure = some .invalidSequence ∧
      (widePieces enc limit w).bytes = bytes
  /-- Otherwise both succeed, and the bytes that are written are as many as were measured. -/
  written : ¬ Refuses enc limit w taken bytes t →
    measureWide enc limit w = .ok (closedWithin limit bytes t).length ∧
      (widePieces enc limit w).failure = none ∧
      (widePieces enc limit w).bytes = closedWithin limit bytes t

section Agreement

variable {enc : Encoding} {limit : Option Nat} {t : ConversionState} {w taken rest : List UInt32}
  {bytes : List UInt8} {failure : Option Failure}

/-- What a text goes on with does not fit. -/
theorem EndsAt.not_fits (h : EndsAt enc limit bytes.length t rest failure) {wc : UInt32}
    {others later : List UInt32} {more : List UInt8} {u : ConversionState} (hwc : wc ≠ 0)
    (hrest : rest = wc :: later) (hw : enc.Writes t (wc :: others) more u) :
    hasRoomFor limit (bytes ++ more).length = false := by
  cases hw with
  | @cons _ v _ _ _ b more he hmore =>
    cases h with
    | drained => cases hrest
    | terminator =>
      cases hrest
      exact absurd rfl hwc
    | full _ hroom =>
      cases hrest
      have hnot := hroom b v he
      rw [Bool.eq_false_iff] at hnot ⊢
      refine fun hfits => hnot (hasRoomFor_of_le hfits ?_)
      simp only [List.length_append]
      omega
    | refused _ hnone =>
      cases hrest
      rw [he] at hnone
      cases hnone

/-- A text is cut behind the longest part of it that fits. -/
theorem CutsAt.longestWithin (h : CutsAt enc limit w taken bytes t rest failure) :
    LongestWithin enc limit w taken bytes t := by
  have hnonzero : ∀ wc ∈ taken, decide (wc ≠ 0) = true :=
    fun wc hwc => decide_eq_true fun hz => h.zero_not_mem (hz ▸ hwc)
  have hsplit : w.takeWhile (· ≠ 0) = taken ++ rest.takeWhile (· ≠ 0) := by
    rw [h.split]
    exact List.takeWhile_append_of_pos hnonzero
  have hbegins : taken <+: w.takeWhile (· ≠ 0) := by
    rw [hsplit]
    exact List.prefix_append _ _
  refine ⟨hbegins, h.writes, h.fits, fun other otherBytes u hother hw hfits => ?_⟩
  rcases List.prefix_or_prefix_of_prefix hother hbegins with hshort | ⟨more, rfl⟩
  · exact hshort
  rw [hsplit, List.prefix_append_right_inj] at hother
  obtain ⟨later, rfl, hlater⟩ := writes_append h.writes hw
  cases more with
  | nil => simp only [List.append_nil, List.prefix_rfl]
  | cons wc others =>
    -- a longer part of the text would need room for the character behind the cut
    obtain ⟨tail, htail⟩ := hother
    cases hrest : rest with
    | nil =>
      rw [hrest] at htail
      cases htail
    | cons c rest =>
      rw [hrest, List.takeWhile_cons] at htail
      split at htail
      · rename_i hc
        rw [List.cons_append, List.cons.injEq] at htail
        have hwc : wc ≠ 0 := htail.1 ▸ of_decide_eq_true hc
        have hends := h.ends.not_fits hwc (hrest.trans (by rw [htail.1])) hlater
        rw [hends] at hfits
        cases hfits
      · cases htail

theorem CutsAt.refuses_iff (h : CutsAt enc limit w taken bytes t rest failure) :
    Refuses enc limit w taken bytes t ↔ failure = some .invalidSequence := by
  rw [h.ends.failure_eq_iff, Refuses, h.split]
  simp only [List.append_cancel_left_eq]

/-- Closing a text takes nothing from it. -/
theorem length_le_closedWithin (limit : Option Nat) (bytes : List UInt8) (t : ConversionState) :
    bytes.length ≤ (closedWithin limit bytes t).length := by
  rw [closedWithin]
  split
  · rw [List.length_append]
    exact Nat.le_add_right _ _
  · exact Nat.le_refl _

/-- Closing a text keeps the limit. -/
theorem hasRoomFor_closedWithin (hfits : hasRoomFor limit bytes.length = true) :
    hasRoomFor limit (closedWithin limit bytes t).length = true := by
  rw [closedWithin]
  split
  · rename_i hroom
    rw [List.length_append]
    exact hroom
  · exact hfits

/-- Measuring a text within a limit and writing it agree, for every text and every limit. -/
theorem exists_measuredAsWritten (enc : Encoding) (limit : Option Nat) (w : List UInt32) :
    ∃ taken bytes t, MeasuredAsWritten enc limit w taken bytes t := by
  obtain ⟨taken, bytes, t, rest, failure, h⟩ := exists_cutsAt enc limit w
  have hmeasured := h.measureWide
  obtain ⟨hfailure, hbytes⟩ := h.widePieces
  refine ⟨taken, bytes, t, h.longestWithin, hasRoomFor_closedWithin h.fits, fun hrefuses => ?_,
    fun hnot => ?_⟩
  · obtain rfl := h.refuses_iff.mp hrefuses
    exact ⟨hmeasured, hfailure, hbytes⟩
  · have hnone : failure = none := by
      cases h.ends with
      | drained | terminator | full => rfl
      | refused => exact absurd (h.refuses_iff.mpr rfl) hnot
    subst hnone
    exact ⟨hmeasured, hfailure, hbytes⟩

end Agreement

end Field

end FormattedText
