import FormattedText.Calls.Text
import FormattedText.Proofs.Multibyte.Reading

/-!
# Decoding a string in several calls

A terminated string may be decoded by many calls, each of which examines a few bytes
and stores a few characters and goes on where the call before has stopped. A call
advances, completes the string or fails (`mbsnrtowcs_bounded`), and in each case it
goes along the one reading of the string. So the calls together store what one call
stores that is not bounded, and end as it ends, wherever the bounds cut the string.
-/

namespace FormattedText

open Encoding

/-- The bounds of a call that decodes a part of a string. -/
structure CallBounds where
  /-- The greatest number of bytes that the call examines. -/
  bytes : Nat
  /-- The number of characters that the destination takes. -/
  room : Nat
  deriving DecidableEq, Repr

namespace CallBounds

/-- Bounds under which a call can do something. -/
def Positive (b : CallBounds) : Prop := 1 ≤ b.bytes ∧ 1 ≤ b.room

instance (b : CallBounds) : Decidable b.Positive :=
  inferInstanceAs (Decidable (1 ≤ b.bytes ∧ 1 ≤ b.room))

end CallBounds

/-- The returned number of a failed call, by C conventions. -/
def failedCode : Int := -1

/-- A count is no failure. -/
theorem Returned.code_value_ne (n : Nat) : (Returned.value n).code ≠ failedCode := by
  rw [Returned.code, failedCode]
  omega

namespace TextCall

/-- The call went on in its source and left something to be done. -/
def Advances {β : Type} (call : TextCall β) : Prop :=
  call.returned.code ≠ failedCode ∧ ∃ k, 1 ≤ k ∧ call.position = some k

/-- The call goes to the end of a reading: it stores all characters of it and
converts the terminator, or it fails where a byte is refused. -/
inductive EndsAs : TextCall UInt32 → Reading → Prop where
  /-- The terminator was converted. -/
  | completed {n : Nat} {cs : List UInt32} :
      EndsAs ⟨.value n, cs, none, .initial⟩ ⟨cs, .terminated .initial⟩
  /-- A character cannot be converted. -/
  | failed {k : Nat} {cs : List UInt32} :
      EndsAs ⟨.failed .illegalSequence, cs, some k, .initial⟩ ⟨cs, .invalid⟩

/-- Calls one after another that go along a reading to its end: all advance but the
last. -/
inductive RunAs : List (TextCall UInt32) → Reading → Prop where
  /-- One call goes to the end. -/
  | last {call : TextCall UInt32} {whole : Reading} (h : call.EndsAs whole) : RunAs [call] whole
  /-- A call advances, and the others go along the rest of the reading. -/
  | cons {call : TextCall UInt32} {calls : List (TextCall UInt32)} {rest : Reading}
      (ha : call.Advances) (h : RunAs calls rest) :
      RunAs (call :: calls) (rest.after call.stored)

theorem EndsAs.stored_eq {call : TextCall UInt32} {whole : Reading} (h : call.EndsAs whole) :
    call.stored = whole.characters := by
  cases h <;> rfl

/-- A call that goes to the end leaves the initial state, and either the null pointer
or a failure. -/
theorem EndsAs.ended {call : TextCall UInt32} {whole : Reading} (h : call.EndsAs whole) :
    call.state = .initial ∧ (call.position = none ↔ whole.ending = .terminated .initial) ∧
      (call.returned.code = failedCode ↔ whole.ending = .invalid) ∧
      (call.position = none ∨ call.returned.code = failedCode) := by
  cases h with
  | @completed n cs =>
    have hcode : ¬(Returned.value n).code = failedCode := Returned.code_value_ne n
    exact ⟨rfl, iff_of_true rfl rfl, iff_of_false hcode nofun, Or.inl rfl⟩
  | failed => exact ⟨rfl, iff_of_false nofun nofun, iff_of_true rfl rfl, Or.inr rfl⟩

theorem RunAs.stored_eq {calls : List (TextCall UInt32)} {whole : Reading}
    (h : RunAs calls whole) : calls.flatMap (·.stored) = whole.characters := by
  induction h with
  | last h => rw [List.flatMap_singleton, h.stored_eq]
  | cons _ _ ih =>
    rw [List.flatMap_cons, ih]
    rfl

/-- Only the last of the calls does not advance. -/
theorem RunAs.exists_last {calls : List (TextCall UInt32)} {whole : Reading}
    (h : RunAs calls whole) : ∃ front last cs, calls = front ++ [last] ∧
      (∀ call ∈ front, call.Advances) ∧ last.EndsAs ⟨cs, whole.ending⟩ := by
  induction h with
  | last h => exact ⟨[], _, _, rfl, fun _ => nofun, h⟩
  | cons ha _ ih =>
    obtain ⟨front, last, cs, rfl, hfront, hlast⟩ := ih
    exact ⟨_ :: front, last, cs, rfl, List.forall_mem_cons.mpr ⟨ha, hfront⟩, hlast⟩

end TextCall

namespace Calls

/-- Decodes a string in calls under the given bounds, one after another on the same
source pointer and the same state, until the pointer is null or a call has failed. -/
def decodeInCalls (enc : Encoding) (s : ConversionState) (source : List UInt8) :
    List CallBounds → List (TextCall UInt32)
  | [] => []
  | b :: rest =>
      let call := mbsnrtowcs enc (some b.room) (some source) (some b.bytes) s
      call :: match call.position with
        | none => []
        | some k =>
            if call.returned.code = failedCode then []
            else decodeInCalls enc call.state (source.drop k) rest

section Steps

variable {enc : Encoding} {s : ConversionState} {source : List UInt8} {b : CallBounds}
  {call : TextCall UInt32}

theorem decodeInCalls_of_ended
    (hc : mbsnrtowcs enc (some b.room) (some source) (some b.bytes) s = call)
    (h : call.position = none ∨ call.returned.code = failedCode) (schedule : List CallBounds) :
    decodeInCalls enc s source (b :: schedule) = [call] := by
  simp only [decodeInCalls, hc]
  cases hp : call.position with
  | none => rfl
  | some k =>
    have hcode := h.resolve_left (by rw [hp]; exact Option.some_ne_none k)
    simp only [hcode, ite_true]

theorem decodeInCalls_of_advances
    (hc : mbsnrtowcs enc (some b.room) (some source) (some b.bytes) s = call)
    (hcode : call.returned.code ≠ failedCode) {k : Nat} (hp : call.position = some k)
    (schedule : List CallBounds) :
    decodeInCalls enc s source (b :: schedule) =
      call :: decodeInCalls enc call.state (source.drop k) schedule := by
  simp only [decodeInCalls, hc, hp, hcode, ite_false]

end Steps

section Examined

/-- Without a bound a call examines a string up to its terminator. -/
theorem examined_unbounded {text : List UInt8} (h : 0 ∉ text) (junk : List UInt8) :
    examined (· == 0) none (text ++ 0 :: junk) = text ++ [0] := by
  induction text with
  | nil => rfl
  | cons b text ih =>
    rw [List.mem_cons, not_or] at h
    have hb : (b == 0) = false := beq_eq_false_iff_ne.mpr (Ne.symm h.1)
    simp only [List.cons_append, examined, isSpent, hb, roomAfter, Option.map_none, ih h.2]
    rfl

/-- With a bound it examines that many bytes, if the terminator does not come first. -/
theorem examined_bounded {text : List UInt8} (h : 0 ∉ text) (junk : List UInt8) (n : Nat) :
    examined (· == 0) (some n) (text ++ 0 :: junk) = (text ++ [0]).take n := by
  induction text generalizing n with
  | nil =>
    cases n with
    | zero => rfl
    | succ n =>
      simp only [List.nil_append, examined, isSpent, List.take_succ_cons, List.take_nil]
      rfl
  | cons b text ih =>
    rw [List.mem_cons, not_or] at h
    have hb : (b == 0) = false := beq_eq_false_iff_ne.mpr (Ne.symm h.1)
    cases n with
    | zero => rfl
    | succ n =>
      have hi := ih h.2 n
      simp only [List.cons_append, examined, hb, roomAfter, Option.map_some,
        Nat.add_sub_cancel, hi, List.take_succ_cons]
      rfl

end Examined

/-- A conversion that was stopped by neither a terminator nor a failure leaves the
source pointer at the first element that was not converted. -/
theorem resumePosition_remaining {α : Type} [BEq α] [LawfulBEq α] [OfNat α 0] {front : List α}
    (h : 0 ∉ front) (rest : List α) (t : ConversionState) :
    resumePosition (· == 0) (front ++ rest) (remaining rest t) = some front.length := by
  by_cases hr : rest.isEmpty && t.isInitial
  · have hn : rest = [] := List.isEmpty_iff.mp (Bool.and_eq_true_iff.mp hr).1
    subst hn
    have hl : (front.getLast?).any (· == 0) = false := by
      rw [Bool.eq_false_iff]
      intro hany
      obtain ⟨b, hb, h0⟩ := Option.any_eq_true _ _ |>.mp hany
      exact h (beq_iff_eq.mp h0 ▸ List.mem_of_getLast? hb)
    simp only [remaining, hr, ite_true, resumePosition, List.append_nil, hl, Bool.false_eq_true,
      ite_false]
  · simp only [remaining, hr, Bool.false_eq_true, ite_false, resumePosition,
      List.length_append, Nat.add_sub_cancel]

/-- What comes before the terminator of a string is a part of the string. -/
theorem eq_append_of_not_mem {text front more : List UInt8} (h : text ++ [0] = front ++ more)
    (h0 : 0 ∉ front) : ∃ left, text = front ++ left := by
  rcases List.append_eq_append_iff.mp h with ⟨last, hfront, hlast⟩ | ⟨left, htext, _⟩
  · cases last with
    | nil => exact ⟨[], by rw [hfront, List.append_nil, List.append_nil]⟩
    | cons c last =>
      obtain ⟨rfl, _⟩ := List.cons.inj hlast
      exact absurd (hfront ▸ List.mem_append_right text List.mem_cons_self) h0
  · exact ⟨left, htext⟩

/-- The effects of a call that decodes a part of a string: `range` is what it examines
and `whole` the reading of the string with its terminator. -/
inductive BoundedCall (enc : Encoding) (s : ConversionState) (room : Nat)
    (range : List UInt8) (whole : Reading) : TextCall UInt32 → Prop where
  /-- The string is read to its end. -/
  | ended {call : TextCall UInt32} (h : call.EndsAs whole) : BoundedCall enc s room range whole call
  /-- Some bytes were read. -/
  | advanced {n : Nat} {cs : List UInt32} {t : ConversionState} (front rest : List UInt8)
      (hsrc : range = front ++ rest) (hne : front ≠ [])
      (hr : enc.read s front = ⟨cs, .unfinished t⟩) (hstop : rest = [] ∨ cs.length = room) :
      BoundedCall enc s room range whole ⟨.value n, cs, some front.length, t⟩

/-- Only the last bytes of a terminated string have the terminator. -/
theorem drop_eq_nil_of_mem_take {text : List UInt8} (h0 : 0 ∉ text) {n : Nat}
    (h : 0 ∈ (text ++ [0]).take n) : (text ++ [0]).drop n = [] := by
  rw [List.drop_eq_nil_iff, List.length_append, List.length_singleton]
  by_cases hn : n ≤ text.length
  · rw [List.take_append_of_le_length hn] at h
    exact absurd (List.mem_of_mem_take h) h0
  · omega

/-- A call on some bytes of a terminated string advances, completes or fails. -/
theorem textCall_bounded {enc : Encoding} {s : ConversionState} (h : enc.Resumable s)
    {text : List UInt8} (h0 : 0 ∉ text) {room n : Nat} (hroom : 1 ≤ room) (hn : 1 ≤ n) :
    BoundedCall enc s room ((text ++ [0]).take n) (enc.read s (text ++ [0]))
      (textCall (· == 0) ((text ++ [0]).take n) true
        (enc.decodeString (some room) (some ((text ++ [0]).take n)) s)) := by
  have htext : text ++ [0] = (text ++ [0]).take n ++ (text ++ [0]).drop n :=
    (List.take_append_drop n _).symm
  have hne : (text ++ [0]).take n ≠ [] := by
    intro hnil
    have hl := congrArg List.length hnil
    simp only [List.length_take, List.length_append, List.length_singleton, List.length_nil] at hl
    omega
  have hend := drop_eq_nil_of_mem_take h0 (n := n)
  generalize hrange : (text ++ [0]).take n = range at htext hne hend ⊢
  have htrack := h.decodeAll_tracked (some room) range
  simp only [decodeString, Option.isSome_some, ite_true]
  generalize enc.decodeAll (some room) s range = p at htrack ⊢
  cases htrack with
  | @terminated cs rest t hr =>
    obtain ⟨rfl, hmem, _⟩ := h.of_read_terminated hr
    have hlast : range.getLast?.any (· == 0) = true := by
      rw [hend hmem, List.append_nil] at htext
      rw [← htext, List.getLast?_concat]
      rfl
    simp only [textCall, ite_true, resumePosition, hlast, Returned.ofRestartable]
    rw [htext, read_append_of_terminated hr]
    exact .ended .completed
  | @drained cs t hr =>
    have hpos := resumePosition_remaining (h.of_read hr).2.2.1 [] t
    rw [List.append_nil] at hpos
    simp only [textCall, ite_true, hpos, Returned.ofRestartable]
    exact .advanced range [] (List.append_nil range).symm hne hr (Or.inl rfl)
  | @full cs rest t front hfull hsrc hr =>
    have hpos := resumePosition_remaining (h.of_read hr).2.2.1 rest t
    rw [← hsrc] at hpos
    simp only [textCall, ite_true, hpos, Returned.ofRestartable]
    have hl : cs.length = room := (Option.some.inj hfull).symm
    refine .advanced front rest hsrc ?_ hr (Or.inr hl)
    rintro rfl
    cases hr
    rw [List.length_nil] at hl
    omega
  | @invalid cs rest t front hsrc hr hi =>
    have hinv : enc.read s range = ⟨cs, .invalid⟩ := by
      rw [hsrc, read_append hr, hi, Reading.after, List.append_nil]
    simp only [textCall, ite_true, resumePosition, Returned.ofRestartable]
    rw [htext, read_append_of_invalid hinv]
    exact .ended .failed

/-- A call with bounds, on a string in memory. -/
theorem mbsnrtowcs_bounded {enc : Encoding} {s : ConversionState} (h : enc.Resumable s)
    {text : List UInt8} (h0 : 0 ∉ text) (junk : List UInt8) {b : CallBounds} (hb : b.Positive) :
    BoundedCall enc s b.room ((text ++ [0]).take b.bytes) (enc.read s (text ++ [0]))
      (mbsnrtowcs enc (some b.room) (some (text ++ 0 :: junk)) (some b.bytes) s) := by
  simp only [mbsnrtowcs, examined_bounded h0, Option.isSome_some]
  exact textCall_bounded h h0 hb.2 hb.1

/-- A call that has room for a character from every byte is not stopped by its
bounds: it stores what the reading gives and ends as the reading ends. -/
theorem mbsnrtowcs_unbounded {enc : Encoding} {s : ConversionState} (h : enc.Resumable s)
    {text : List UInt8} (h0 : 0 ∉ text) (junk : List UInt8) {capacity : Nat}
    (hcap : text.length + 1 ≤ capacity) :
    (mbsnrtowcs enc (some capacity) (some (text ++ 0 :: junk)) none s).EndsAs
      (enc.read s (text ++ [0])) := by
  have hall : (text ++ [0]).take (text.length + 1) = text ++ [0] :=
    List.take_of_length_le (by simp)
  have hroom : 1 ≤ capacity := Nat.le_trans (Nat.le_add_left 1 text.length) hcap
  have hcall := textCall_bounded h h0 hroom (Nat.le_add_left 1 text.length)
  rw [hall] at hcall
  simp only [mbsnrtowcs, examined_unbounded h0, Option.isSome_some]
  generalize textCall _ _ _ _ = call at hcall ⊢
  cases hcall with
  | ended hend => exact hend
  | @advanced n cs t front rest hsrc hne hr hstop =>
    obtain ⟨_, hlen, hfront, _⟩ := h.of_read hr
    obtain ⟨left, hleft⟩ := eq_append_of_not_mem hsrc hfront
    have hl := congrArg List.length hleft
    rw [List.length_append] at hl
    rcases hstop with hrest | hfull
    · rw [hrest, List.append_nil] at hsrc
      exact absurd (hsrc ▸ List.mem_concat_self) hfront
    · omega

/-- Calls under positive bounds go along the reading of a string to its end, if there
may be a call for each byte. -/
theorem decodeInCalls_run {enc : Encoding} {s : ConversionState} (h : enc.Resumable s)
    {text : List UInt8} (h0 : 0 ∉ text) (junk : List UInt8) {schedule : List CallBounds}
    (hpos : ∀ b ∈ schedule, b.Positive) (hlen : text.length + 1 ≤ schedule.length) :
    TextCall.RunAs (decodeInCalls enc s (text ++ 0 :: junk) schedule)
      (enc.read s (text ++ [0])) := by
  induction schedule generalizing s text with
  | nil => cases hlen
  | cons b schedule ih =>
    have hcall := mbsnrtowcs_bounded h h0 junk (hpos b List.mem_cons_self)
    generalize hc : mbsnrtowcs _ _ _ _ _ = call at hcall
    cases hcall with
    | ended hend =>
      rw [decodeInCalls_of_ended hc hend.ended.2.2.2]
      exact .last hend
    | @advanced n cs t front rest hsrc hne hr hstop =>
      obtain ⟨ht, _, hfront, _⟩ := h.of_read hr
      have hwhole : text ++ [0] = front ++ (rest ++ (text ++ [0]).drop b.bytes) := by
        rw [← List.append_assoc, ← hsrc, List.take_append_drop]
      obtain ⟨left, rfl⟩ := eq_append_of_not_mem hwhole hfront
      have hcode := Returned.code_value_ne n
      have hl := List.length_pos_iff.mpr hne
      have hrun := ih ht (fun hm => h0 (List.mem_append_right front hm))
        (fun b hb => hpos b (List.mem_cons_of_mem _ hb))
        (by simp only [List.length_append, List.length_cons] at hlen; omega)
      rw [decodeInCalls_of_advances hc hcode rfl, List.append_assoc, List.append_assoc,
        read_append hr, List.drop_left]
      exact .cons ⟨hcode, front.length, hl, rfl⟩ hrun

/-- Decoding a terminated string does not depend on how it is cut up. Calls under any
positive bounds, at least one for each byte, store together what a single call stores
that has room for the whole string, and they end with the null pointer or with a failure
as the single call ends. All calls but the last advance, and the state is left initial. -/
theorem decodeInCalls_eq_once (enc : Encoding) {text : List UInt8} (h0 : 0 ∉ text)
    (junk : List UInt8) {schedule : List CallBounds} (hpos : ∀ b ∈ schedule, b.Positive)
    (hlen : text.length + 1 ≤ schedule.length) {capacity : Nat}
    (hcap : text.length + 1 ≤ capacity) :
    let source := text ++ 0 :: junk
    let once := mbsnrtowcs enc (some capacity) (some source) none .initial
    let calls := decodeInCalls enc .initial source schedule
    calls.flatMap (·.stored) = once.stored ∧ once.state = .initial ∧
    ∃ front last, calls = front ++ [last] ∧ (∀ call ∈ front, call.Advances) ∧
      last.state = .initial ∧ (last.position = none ∨ last.returned.code = failedCode) ∧
      (last.position = none ↔ once.position = none) ∧
      (last.returned.code = failedCode ↔ once.returned.code = failedCode) := by
  intro source once calls
  have hres := resumable_initial enc
  have honce : once.EndsAs _ := mbsnrtowcs_unbounded hres h0 junk hcap
  have hrun : TextCall.RunAs calls _ := decodeInCalls_run hres h0 junk hpos hlen
  obtain ⟨hstate, hnull, hcode, _⟩ := honce.ended
  obtain ⟨front, last, cs, hcalls, hfront, hlast⟩ := hrun.exists_last
  obtain ⟨hlstate, hlnull, hlcode, hor⟩ := hlast.ended
  refine ⟨hrun.stored_eq.trans honce.stored_eq.symm, hstate, front, last, hcalls, hfront,
    hlstate, hor, ?_, ?_⟩
  · rw [hlnull, hnull]
  · rw [hlcode, hcode]

/-- A character in a shifted text, examined byte by byte. -/
theorem decodeInCalls_eq_once_shifted :
    let calls := decodeInCalls jis .initial ([0x1B, 0x24, 0x42, 0x30, 0x21] ++ [0])
      (List.replicate 6 ⟨1, 1⟩)
    calls.flatMap (·.stored) = [0x3021, 0] ∧
      ∃ front last, calls = front ++ [last] ∧ last.position = none := by
  have h0 : (0 : UInt8) ∉ [0x1B, 0x24, 0x42, 0x30, 0x21] := by decide
  have hpos : ∀ b ∈ List.replicate 6 (⟨1, 1⟩ : CallBounds), b.Positive := by decide
  have hcap : [(0x1B : UInt8), 0x24, 0x42, 0x30, 0x21].length + 1 ≤ 6 := by decide
  have honce := mbsnrtowcs_unbounded (resumable_initial jis) h0 [] hcap
  obtain ⟨hstored, _, front, last, hcalls, _, _, _, hnull, _⟩ :=
    decodeInCalls_eq_once jis h0 [] hpos (by decide) hcap
  refine ⟨?_, front, last, hcalls, ?_⟩
  · rw [hstored, honce.stored_eq]
    decide
  · rw [hnull, honce.ended.2.1]
    decide

end Calls

end FormattedText
