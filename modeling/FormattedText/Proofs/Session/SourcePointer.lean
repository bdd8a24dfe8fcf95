import FormattedText.Proofs.Multibyte.Schedule
import FormattedText.Proofs.Multibyte.Stopping
import FormattedText.Session.Conversion

/-!
# Where a string call leaves its source pointer

A string call with a destination converts a part of its range, the elements that it examines, and
stops behind that part: after the terminator, at the end of the range, where the destination is
full, or before a character that it cannot convert. `Calls.LeavesPointer` tells for each of these
what is stored, what is returned and where the source pointer stands. The pointer is null in the
first case only, and there the zero is stored behind the elements that are counted
(`LeavesPointer.position_eq_none_iff`). Decoding has this from every state that decoding in the
same encoding has left, and encoding from every state at all.
-/

namespace FormattedText

/-- Does a call decode? All others encode. -/
def Conversion.decodes : Conversion → Bool
  | .decodeOne .. | .decodeString .. | .nextLength .. | .implicitLength .. | .decodeWhole ..
  | .mbtowc .. | .mblen .. | .mbrtowc .. | .mbrlen .. | .mbsnrtowcs .. | .mbstowcs .. => true
  | _ => false

/-- What string calls do with the parts of a source in one direction: `α` is the type of the
elements of the source and `β` of those of the destination. -/
structure Direction (α β : Type) [OfNat β 0] where
  /-- Characters that are converted whole, what they become, and the states before and after. -/
  Converts : ConversionState → List α → List β → ConversionState → Prop
  /-- A terminator, with what comes before it in the same character, and what it becomes. -/
  Terminates : ConversionState → List α → List β → Prop
  /-- The rest of a source that is used up, and the states before and after. -/
  UsesUp : ConversionState → List α → ConversionState → Prop
  /-- A source whose first character does not fit in so many elements of the destination. -/
  Exceeds : ConversionState → List α → Nat → Prop
  /-- A source whose first character cannot be converted. -/
  Refuses : ConversionState → List α → Prop
  /-- The terminator becomes one, behind what ends a shift. -/
  terminates_eq : ∀ {s last ending}, Terminates s last ending → ∃ lead, ending = lead ++ [0]

namespace Calls

variable {α β : Type} [OfNat β 0] {d : Direction α β} {s : ConversionState} {room : Nat}
  {range : List α} {call : TextCall β}

/-- How a string call, which examines `range` and has a destination of `room` elements, leaves its
source pointer, and what it returns and stores. -/
inductive LeavesPointer (d : Direction α β) (s : ConversionState) (room : Nat) (range : List α) :
    TextCall β → Prop where
  /-- The terminator is converted, which ends the range. The pointer is null. -/
  | terminated {front last : List α} {w ending : List β} {t : ConversionState}
      (hrange : range = front ++ last) (hfront : d.Converts s front w t)
      (hlast : d.Terminates t last ending) (hroom : (w ++ ending).length ≤ room) :
      LeavesPointer d s room range
        ⟨.value ((w ++ ending).length - 1), w ++ ending, none, .initial⟩
  /-- The range is used up, between two characters or inside one. The pointer is at its end. -/
  | drained {front rest : List α} {w : List β} {t u : ConversionState}
      (hrange : range = front ++ rest) (hfront : d.Converts s front w t)
      (hrest : d.UsesUp t rest u) (hroom : w.length ≤ room) :
      LeavesPointer d s room range ⟨.value w.length, w, some range.length, u⟩
  /-- The next character finds no room. The pointer is behind the characters that are stored. -/
  | full {front rest : List α} {w : List β} {t : ConversionState}
      (hrange : range = front ++ rest) (hfront : d.Converts s front w t)
      (hrest : d.Exceeds t rest (room - w.length)) (hroom : w.length ≤ room) :
      LeavesPointer d s room range ⟨.value w.length, w, some front.length, t⟩
  /-- The next character cannot be converted. The pointer is at its first element. -/
  | refused {front rest : List α} {w : List β} {t : ConversionState}
      (hrange : range = front ++ rest) (hfront : d.Converts s front w t)
      (hrest : d.Refuses t rest) (hroom : w.length ≤ room) :
      LeavesPointer d s room range ⟨.failed .illegalSequence, w, some front.length, .initial⟩

/-- A call that returns a count leaves the null pointer exactly if it has stored a zero there. -/
theorem LeavesPointer.position_eq_none_iff (h : LeavesPointer d s room range call) {n : Nat}
    (hn : call.returned = .value n) : call.position = none ↔ call.stored[n]? = some 0 := by
  cases h with
  | @terminated _ _ w ending _ _ _ hlast =>
    cases hn
    obtain ⟨lead, rfl⟩ := d.terminates_eq hlast
    refine iff_of_true rfl ?_
    rw [← List.append_assoc, List.length_append, List.length_singleton, Nat.add_sub_cancel,
      List.getElem?_concat_length]
  | @drained _ _ w | @full _ _ w =>
    cases hn
    refine iff_of_false (Option.some_ne_none _) ?_
    rw [List.getElem?_eq_none (Nat.le_refl w.length)]
    exact (Option.some_ne_none 0).symm
  | refused => cases hn

theorem LeavesPointer.length_stored (h : LeavesPointer d s room range call) :
    call.stored.length ≤ room := by
  cases h with
  | terminated _ _ _ hroom | drained _ _ _ hroom | full _ _ _ hroom | refused _ _ _ hroom =>
    exact hroom

section Examined

variable {isTerminator : α → Bool}

/-- A call examines nothing behind a terminator. -/
theorem examined_split {a : α} (ha : isTerminator a = true) {bound : Option Nat}
    {source front rest : List α} (h : examined isTerminator bound source = front ++ a :: rest) :
    rest = [] := by
  induction source generalizing bound front with
  | nil =>
    rw [examined] at h
    exact absurd h.symm (List.append_ne_nil_of_right_ne_nil _ (List.cons_ne_nil _ _))
  | cons b source ih =>
    rw [examined] at h
    split at h
    · exact absurd h.symm (List.append_ne_nil_of_right_ne_nil _ (List.cons_ne_nil _ _))
    split at h
    · exact (List.append_eq_singleton_iff.mp h.symm).elim (fun h => (List.cons.inj h.2).2)
        fun h => absurd h.2 (List.cons_ne_nil _ _)
    · rename_i hb
      cases front with
      | nil =>
        rw [List.nil_append, List.cons.injEq] at h
        exact absurd (h.1 ▸ ha) hb
      | cons c front => exact ih (List.cons.inj h).2

end Examined

end Calls

namespace Encoding

open Calls

variable {enc : Encoding} {s t : ConversionState}

/-- Decoding in an encoding. -/
def decoding (enc : Encoding) : Direction UInt8 UInt32 where
  Converts := enc.Reads
  Terminates s last ending :=
    enc.decode s last = .character 0 0 .initial ∧ last.getLast? = some 0 ∧ ending = [0]
  UsesUp s rest t := enc.decode s rest = .incomplete t
  Exceeds _ _ room := room = 0
  Refuses s rest := enc.decode s rest = .invalid
  terminates_eq h := ⟨[], h.2.2⟩

/-- Encoding in an encoding. A character that is written takes no more than its own element. -/
def encoding (enc : Encoding) : Direction UInt32 UInt8 where
  Converts s front bytes t := enc.Writes s front bytes t ∧ 0 ∉ front
  Terminates s last ending := last = [0] ∧ ∃ t, enc.encode s 0 = some (ending, t)
  UsesUp s rest t := rest = [] ∧ t = s
  Exceeds s rest room := ∃ wc more, rest = wc :: more ∧
    (room = 0 ∨ ∃ bytes t, enc.encode s wc = some (bytes, t) ∧ room < bytes.length)
  Refuses s rest := ∃ wc more, rest = wc :: more ∧ enc.encode s wc = none
  terminates_eq h := by
    obtain ⟨_, t, ht⟩ := h
    obtain ⟨lead, u, hu⟩ := enc.exists_encode_zero _
    rw [hu] at ht
    cases ht
    exact ⟨lead, rfl⟩

/-- The states that calls in the encoding come to which all decode, or all encode. -/
inductive AfterCalls (enc : Encoding) (decodes : Bool) : ConversionState → Prop where
  /-- No call has been made. -/
  | initial : AfterCalls enc decodes .initial
  /-- One more call was made, whatever came of it. -/
  | run {s : ConversionState} (h : AfterCalls enc decodes s) (c : Conversion)
      (hc : c.decodes = decodes) : AfterCalls enc decodes (c.run enc s).2

section Decoding

/-- Characters that are decoded one after another are read byte by byte. -/
theorem Reads.read {bytes : List UInt8} {w : List UInt32} (h : enc.Reads s bytes w t)
    (hs : enc.Resumable s) : enc.read s bytes = ⟨w, .unfinished t⟩ := by
  induction h with
  | nil => rfl
  | @cons s t u wc w bytes more hd _ ih =>
    have hne : bytes ≠ [] := by
      rintro rfl
      cases hd
    have hread := hs.decode_read hne
    simp only [hd] at hread
    rcases hread with ⟨hzero, _⟩ | ⟨k, hk, _, hr⟩
    · exact absurd (List.length_eq_zero_iff.mp hzero) hne
    · rw [← hk, List.take_length] at hr
      rw [read_append hr, ih (hs.of_read hr).1]
      rfl

theorem Resumable.decodeString (h : enc.Resumable s) (capacity : Option Nat)
    (source : Option (List UInt8)) : enc.Resumable (enc.decodeString capacity source s).state := by
  cases source with
  | none => exact h
  | some src =>
    have htrack := h.decodeAll_tracked capacity src
    simp only [Encoding.decodeString]
    generalize enc.decodeAll capacity s src = p at htrack ⊢
    cases htrack with
    | terminated hr =>
      rw [(h.of_read_terminated hr).1]
      exact resumable_initial enc
    | drained hr => exact (h.of_read hr).1
    | full _ _ _ hr => exact (h.of_read hr).1
    | invalid => exact resumable_initial enc

theorem Resumable.forgetOnFailure (h : enc.Resumable s) (result : Except Failure Nat) :
    enc.Resumable (forgetOnFailure result s) := by
  cases result with
  | ok => exact h
  | error => exact resumable_initial enc

theorem Resumable.mbsnrtowcs (h : enc.Resumable s) (capacity : Option Nat)
    (source : Option (List UInt8)) (bound : Option Nat) :
    enc.Resumable (Calls.mbsnrtowcs enc capacity source bound s).state := by
  cases source with
  | none => exact h
  | some => exact h.decodeString capacity (some _)

/-- After calls that decode in one encoding a decoder can go on in it. -/
theorem AfterCalls.resumable (h : enc.AfterCalls true s) : enc.Resumable s := by
  induction h with
  | initial => exact resumable_initial enc
  | @run s _ c hc ih =>
    cases c with
    | decodeOne source => exact ih.decodeOne source
    | nextLength source => exact ih.decodeOne (some source)
    | implicitLength source | mbtowc source | mblen source =>
      exact (ih.decodeOne source).forgetOnFailure _
    | mbrtowc source | mbrlen source => exact ih.decodeOne (some (source.getD [0]))
    | decodeString source destination => exact ih.decodeString _ source
    | decodeWhole source destination => exact ih.decodeString _ (some source)
    | mbsnrtowcs hasHandle source bound destination =>
      cases hasHandle with
      | false => exact ih
      | true => exact ih.mbsnrtowcs _ source bound
    | mbstowcs source destination => exact ih.mbsnrtowcs _ source none
    | _ => cases hc

/-- The terminator comes at the end of its bytes, and behind it the state is initial. -/
theorem Resumable.decode_terminator (h : enc.Resumable s) {src : List UInt8} {wc : UInt32}
    (hd : enc.decode s src = .character wc 0 t) : wc = 0 ∧ t = .initial ∧ 0 ∈ src := by
  have hne : src ≠ [] := by
    rintro rfl
    cases hd
  have hread := h.decode_read hne
  simp only [hd] at hread
  rcases hread with ⟨_, hw, hr⟩ | ⟨k, hk, _⟩
  · obtain ⟨ht, hmem, _⟩ := h.of_read_terminated hr
    exact ⟨hw, ht, hmem⟩
  · cases hk

theorem Resumable.zero_not_mem_of_incomplete (h : enc.Resumable s) {src : List UInt8}
    (hd : enc.decode s src = .incomplete t) : 0 ∉ src := by
  cases src with
  | nil => exact List.not_mem_nil
  | cons b src =>
    have hread := h.decode_read (List.cons_ne_nil b src)
    simp only [hd] at hread
    exact (h.of_read hread).2.2.1

/-- Decoding a range, in which a terminator may only come last, leaves the pointer so. -/
theorem Resumable.decoding_leavesPointer (h : enc.Resumable s) (room : Nat) {range : List UInt8}
    (hrange : ∀ front rest, range = front ++ 0 :: rest → rest = []) :
    LeavesPointer enc.decoding s room range
      (textCall (· == 0) range true (enc.decodeString (some room) (some range) s)) := by
  obtain ⟨front, rest, w, t, rfl, hreads, hstops⟩ :=
    exists_decodingStops enc (some room) s range
  obtain ⟨ht, _, hfront, _⟩ := h.of_read (hreads.read h)
  simp only [Encoding.decodeString, Option.isSome_some, ite_true]
  generalize enc.decodeAll (some room) s (front ++ rest) = p at hstops ⊢
  cases hstops with
  | terminated hroom hd =>
    obtain ⟨rfl, rfl, hmem⟩ := ht.decode_terminator hd
    obtain ⟨a, b, rfl⟩ := List.append_of_mem hmem
    obtain rfl : b = [] := hrange (front ++ a) b (by rw [List.append_assoc])
    have hlast : (front ++ (a ++ [0])).getLast?.any (· == 0) = true := by
      rw [← List.append_assoc, List.getLast?_concat]
      rfl
    have hfits : (w ++ [0]).length ≤ room := by
      rw [List.length_append]
      exact of_decide_eq_true hroom
    simp only [textCall, ite_true, resumePosition, hlast]
    exact .terminated rfl hreads ⟨hd, List.getLast?_concat, rfl⟩ hfits
  | @drained u hroom hd =>
    have hzero : 0 ∉ front ++ rest := fun hmem =>
      (List.mem_append.mp hmem).elim hfront (ht.zero_not_mem_of_incomplete hd)
    have hpos := resumePosition_remaining hzero [] u
    rw [List.append_nil] at hpos
    simp only [textCall, ite_true, hpos]
    exact .drained rfl hreads hd (of_decide_eq_true hroom)
  | full hroom =>
    obtain rfl := Option.some.inj hroom
    simp only [textCall, ite_true, resumePosition_remaining hfront]
    exact .full rfl hreads (Nat.sub_self _) (Nat.le_refl _)
  | invalid hroom hd =>
    have hfits : w.length ≤ room := Nat.le_of_succ_le (of_decide_eq_true hroom)
    simp only [textCall, ite_true, resumePosition, List.length_append, Nat.add_sub_cancel]
    exact .refused rfl hreads hd hfits

end Decoding

section Encoding

/-- Encoding a range, in which a terminator may only come last, leaves the pointer so. -/
theorem encoding_leavesPointer (enc : Encoding) (s : ConversionState) (room : Nat)
    {range : List UInt32} (hrange : ∀ front rest, range = front ++ 0 :: rest → rest = []) :
    LeavesPointer enc.encoding s room range
      (textCall (· == 0) range true (enc.encodeString (some room) (some range) s)) := by
  obtain ⟨taken, rest, bytes, t, rfl, hwrites, hroom, hstops⟩ :=
    enc.exists_encodingStops s room range
  generalize enc.encodeString (some room) (some (taken ++ rest)) s = call at hstops ⊢
  cases hstops with
  | drained h0 =>
    have hpos := resumePosition_remaining h0 [] t
    rw [remaining_nil, List.append_nil] at hpos
    rw [List.append_nil]
    simp only [textCall, ite_true, hpos]
    exact .drained (List.append_nil taken).symm ⟨hwrites, h0⟩ ⟨rfl, rfl⟩ hroom
  | @spent wc rest h0 hspent =>
    simp only [textCall, ite_true, resumePosition, List.length_append, Nat.add_sub_cancel]
    refine .full rfl ⟨hwrites, h0⟩ ⟨wc, rest, rfl, Or.inl ?_⟩ hroom
    rw [hspent, Nat.sub_self]
  | @full wc rest more u h0 he hlong =>
    simp only [textCall, ite_true, resumePosition, List.length_append, Nat.add_sub_cancel]
    refine .full rfl ⟨hwrites, h0⟩ ⟨wc, rest, rfl, Or.inr ⟨more, u, he, ?_⟩⟩ hroom
    omega
  | @terminated text rest htaken h0 =>
    subst htaken
    obtain rfl : rest = [] := hrange text rest (by rw [List.append_assoc]; rfl)
    obtain ⟨front, later, u, rfl, hfront, hlater⟩ := hwrites.split
    cases hlater with
    | cons he hrest =>
      cases hrest
      have hlast : (text ++ [0]).getLast?.any (· == 0) = true := by
        rw [List.getLast?_concat]
        rfl
      rw [List.append_nil] at hroom
      simp only [textCall, ite_true, resumePosition, hlast, List.append_nil]
      exact .terminated rfl ⟨hfront, h0⟩ ⟨rfl, _, he⟩ hroom
  | @refused wc rest h0 hbad =>
    simp only [textCall, ite_true, resumePosition, List.length_append, Nat.add_sub_cancel]
    exact .refused rfl ⟨hwrites, h0⟩ ⟨wc, rest, rfl, encode_eq_none_iff.mpr hbad⟩ hroom

end Encoding

end Encoding

namespace Calls

/-- What a string call with a destination does to its source pointer, where `counted` is the same
call without one. -/
structure MovesPointer {α β : Type} [OfNat β 0] (d : Direction α β) (s : ConversionState)
    (range : List α) (destination : List β) (call counted : TextCall β) : Prop where
  /-- The call stops at the end of the range, where the destination is full, or before a character
  that cannot be converted. -/
  leaves : LeavesPointer d s destination.length range call
  /-- Where it returns a count, the pointer is null exactly if the terminator has been stored. -/
  null_iff : ∀ n, call.returned = .value n →
    (call.position = none ↔ call.stored[n]? = some 0)
  /-- Then it stands in the destination at the count. -/
  zero : ∀ n, call.returned = .value n → call.position = none →
    (overlay call.stored destination)[n]? = some 0
  /-- Without a destination the pointer stays. -/
  stays : counted.position = some 0

theorem LeavesPointer.moves {α β : Type} [OfNat β 0] {d : Direction α β} {s : ConversionState}
    {range : List α} {destination : List β} {call counted : TextCall β}
    (h : LeavesPointer d s destination.length range call) (hc : counted.position = some 0) :
    MovesPointer d s range destination call counted := by
  refine ⟨h, fun n => h.position_eq_none_iff, fun n hn hp => ?_, hc⟩
  have hzero := (h.position_eq_none_iff hn).mp hp
  rw [overlay, List.getElem?_append_left (List.getElem?_eq_some_iff.mp hzero).1, hzero]

/-- The source pointer of a string call becomes null only for a terminator that is converted, and
otherwise it comes to the end of what the call has converted: in every encoding, from every state
that earlier calls in the same direction have left, for every source, bound and destination. -/
theorem source_pointer (enc : Encoding) :
    (∀ s, enc.AfterCalls true s → ∀ (source : List UInt8) (bound : Option Nat)
      (destination : List UInt32),
      MovesPointer enc.decoding s (examined (· == 0) bound source) destination
        (mbsnrtowcs enc (some destination.length) (some source) bound s)
        (mbsnrtowcs enc none (some source) bound s)) ∧
    (∀ s, enc.AfterCalls false s → ∀ (source : List UInt32) (bound : Option Nat)
      (destination : List UInt8),
      MovesPointer enc.encoding s (examined (· == 0) bound source) destination
        (wcsnrtombs enc (some destination.length) (some source) bound s)
        (wcsnrtombs enc none (some source) bound s)) := by
  refine ⟨fun s hs source bound destination => ?_, fun s _ source bound destination => ?_⟩
  · exact (hs.resumable.decoding_leavesPointer _ fun front rest => examined_split rfl).moves rfl
  · exact (enc.encoding_leavesPointer s _ fun front rest => examined_split rfl).moves rfl

/-- A pair of which one byte has come before. The bound cuts off the terminator, the destination is
filled by the pair, and the pointer comes to the end of the range. -/
theorem source_pointer_bounded :
    let s := (Conversion.run .eucJp .initial (.mbrlen (some [0xB0]))).2
    let source : List UInt8 := [0xA1, 0]
    Encoding.eucJp.AfterCalls true s ∧
      MovesPointer Encoding.eucJp.decoding s (examined (· == 0) (some 1) source) [7]
        (mbsnrtowcs .eucJp (some 1) (some source) (some 1) s)
        (mbsnrtowcs .eucJp none (some source) (some 1) s) ∧
      (mbsnrtowcs .eucJp (some 1) (some source) (some 1) s).position = some 1 := by
  intro s source
  have hs : Encoding.eucJp.AfterCalls true s :=
    Encoding.AfterCalls.initial.run (.mbrlen (some [0xB0])) rfl
  exact ⟨hs, (source_pointer .eucJp).1 s hs source (some 1) [7], by cbv⟩

end Calls

end FormattedText
