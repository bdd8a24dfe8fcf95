import FormattedText.Proofs.Multibyte.Schedule
import FormattedText.Proofs.Session.Reachable

/-!
# What ends a string

A read that reports no bytes stands for the terminator, and it ends the string that is being
decoded. `Encoding.EndsAtTerminator` says of a state that nothing else does: not a character
that takes no byte of the source because bytes left under another encoding spell it already.
The states of a session with this property are exactly those that hold no such character
(`endsAtTerminator_iff`). While only one encoding is used on a state it always has it, but
`held_character_read_as_end` is a session of two encodings that comes to one without it.
-/

namespace FormattedText

open Calls

namespace Encoding

/-- From the state, strings end at terminators and nowhere else. -/
structure EndsAtTerminator (enc : Encoding) (s : ConversionState) : Prop where
  /-- A read that reports no bytes gives the terminator, and a zero byte of the source for it:
  before that byte the source ends inside a character. -/
  read : ∀ source, (enc.decodeOne (some source) s).result = .ok 0 →
    (enc.decodeOne (some source) s).character = some 0 ∧
      ∃ front rest, source = front ++ 0 :: rest ∧
        (enc.decodeOne (some front) s).result = .error .incompleteSequence
  /-- A string ends with a terminator only at the first zero byte of its source: what was
  converted before has none, and what was left then has one. -/
  text : ∀ room source, (enc.decodeAll room s source).ending = .terminated →
    ∃ taken, source = taken ++ (enc.decodeAll room s source).rest ∧ 0 ∉ taken ∧
      0 ∈ (enc.decodeAll room s source).rest
  /-- The source pointer is null only once the terminator of the source was converted. -/
  pointer : ∀ capacity source bound,
    (mbsnrtowcs enc (some capacity) (some source) bound s).position = none →
      0 ∈ examined (· == 0) bound source ∧
        (enc.decodeAll (some capacity) s (examined (· == 0) bound source)).ending = .terminated

section Decoding

variable {enc : Encoding} {s : ConversionState}

/-- The cursor is gone only at the end of the source. -/
theorem rest_of_remaining {α : Type} {rest : List α} (h : remaining rest s = none) : rest = [] := by
  cases rest with
  | nil => rfl
  | cons => cases h

/-- The source pointer is null only after a terminator. -/
theorem terminated_of_position_none (h : s.Inherited) {capacity : Nat} {source : List UInt8}
    {bound : Option Nat}
    (hp : (mbsnrtowcs enc (some capacity) (some source) bound s).position = none) :
    0 ∈ examined (· == 0) bound source ∧
      (enc.decodeAll (some capacity) s (examined (· == 0) bound source)).ending = .terminated := by
  simp only [mbsnrtowcs] at hp
  generalize examined (· == 0) bound source = range at hp ⊢
  have hcursor : (enc.decodeString (some capacity) (some range) s).cursor = none ∧
      range.getLast?.any (· == 0) = true := by
    simp only [textCall, Option.isSome_some, ite_true] at hp
    generalize (enc.decodeString (some capacity) (some range) s).cursor = cursor at hp ⊢
    cases cursor with
    | some rest => cases hp
    | none =>
      refine ⟨rfl, Decidable.byContradiction fun hlast => ?_⟩
      simp only [resumePosition, hlast] at hp
      cases hp
  obtain ⟨hcursor, hlast⟩ := hcursor
  have hmem : 0 ∈ range := by
    obtain ⟨b, hb, h0⟩ := (Option.any_eq_true _ _).mp hlast
    exact beq_iff_eq.mp h0 ▸ List.mem_of_getLast? hb
  have hrun := decodeAll_inherited h enc (some capacity) range
  refine ⟨hmem, ?_⟩
  simp only [decodeString, Option.isSome_some, ite_true] at hcursor
  generalize enc.decodeAll (some capacity) s range = p at hcursor hrun ⊢
  cases hrun with
  | terminated => rfl
  | drained h0 => exact absurd hmem h0
  | @full _ rest _ taken _ hsrc h0 =>
    have hrest : rest = [] := rest_of_remaining hcursor
    rw [hrest, List.append_nil] at hsrc
    exact absurd (hsrc ▸ hmem) h0
  | invalid => cases hcursor

/-- Where no character is held, strings end at terminators. -/
theorem endsAtTerminator_of_held? (h : s.Inherited) (hh : enc.held? s = none) :
    enc.EndsAtTerminator s where
  read source hr := by
    have hstep := decode_inherited h enc source
    simp only [decodeOne] at hr ⊢
    generalize enc.decode s source = d at hstep hr ⊢
    cases hstep with
    | held hheld =>
      rw [hh] at hheld
      cases hheld
    | terminator _ front rest hsrc _ hcut =>
      obtain ⟨u, hcut⟩ := hcut
      exact ⟨rfl, front, rest, hsrc, by rw [hcut]⟩
    | character _ front _ _ hn hne =>
      cases hr
      exact absurd (List.length_eq_zero_iff.mp hn.symm) hne
    | incomplete | invalid => cases hr
  text room source hend := by
    have hrun := decodeAll_inherited h enc room source
    generalize enc.decodeAll room s source = p at hend hrun ⊢
    cases hrun with
    | terminated _ taken hsrc h0 hz =>
      exact ⟨taken, hsrc, h0, hz.resolve_left fun hheld => hheld hh⟩
    | drained | full | invalid => cases hend
  pointer _ _ _ hp := terminated_of_position_none h hp

/-- A held character ends a string that has no terminator at all. -/
theorem not_endsAtTerminator_of_held? {wc : UInt32} {t : ConversionState}
    (hh : enc.held? s = some (wc, t)) : ¬enc.EndsAtTerminator s := by
  intro h
  have hread : (enc.decodeOne (some [1]) s).result = .ok 0 := by
    simp only [decodeOne, decode, hh]
  obtain ⟨_, front, rest, hsrc, _⟩ := h.read [1] hread
  have hmem : (0 : UInt8) ∈ [1] := hsrc ▸ List.mem_append_right front List.mem_cons_self
  cases List.mem_singleton.mp hmem

/-- While only one encoding is used on a state, strings end at terminators. -/
theorem Resumable.endsAtTerminator (h : enc.Resumable s) : enc.EndsAtTerminator s :=
  endsAtTerminator_of_held? h.inherited h.held?_eq_none

end Decoding

end Encoding

namespace World

/-- Whatever encodings the calls of a session mix, in either direction: from a state that it
comes to, strings end at terminators and nowhere else exactly if the bytes pending there do not
spell a whole character of the encoding that goes on. -/
theorem Reachable.endsAtTerminator_iff {w : World} (h : w.Reachable) (ref : StateRef)
    (enc : Encoding) : enc.EndsAtTerminator (w.state ref) ↔ enc.held? (w.state ref) = none := by
  refine ⟨fun hends => ?_, Encoding.endsAtTerminator_of_held? (h.inherited ref)⟩
  cases hh : enc.held? (w.state ref) with
  | none => rfl
  | some held => exact absurd hends (Encoding.not_endsAtTerminator_of_held? hh)

/-- Two bytes of a three-byte character in UTF-8 are a character in EUC-JP. -/
theorem endsAtTerminator_iff_mixed :
    let w := ((start .unset).performAll
      [.convert (some .utf8) (some "a") (.decodeOne (some [0xE4, 0xB8]) true)]).2
    w.Reachable ∧ ¬Encoding.eucJp.EndsAtTerminator (w.state (.named "a")) ∧
      Encoding.utf8.EndsAtTerminator (w.state (.named "a")) := by
  have h : Reachable ((start .unset).performAll
      [.convert (some .utf8) (some "a") (.decodeOne (some [0xE4, 0xB8]) true)]).2 :=
    (Reachable.start .unset).performAll _
  refine ⟨h, fun hends => ?_, (h.endsAtTerminator_iff (.named "a") .utf8).mpr rfl⟩
  cases (h.endsAtTerminator_iff (.named "a") .eucJp).mp hends

/-- A thread changes its locale inside a character, and its next read reports the end of the
string, although it gives a character and the source has no terminator. -/
theorem held_character_read_as_end :
    ∃ w : World, w.Reachable ∧ w.currentEncoding = .eucJp ∧
      (w.perform (.convert none none (.decodeOne (some [0x41]) true))).1 =
        .converted (.character (.ok 0) (some 0xE4B8)) := by
  refine ⟨((start .unset).performAll
    [.useInThread (some "C.UTF-8"), .convert none none (.decodeOne (some [0xE4, 0xB8]) true),
      .useInThread (some "ja_JP.eucJP")]).2, (Reachable.start .unset).performAll _, ?_, ?_⟩
  · rfl
  · rfl

/-- There a string ends at its first letter. -/
example : (mbsnrtowcs .eucJp (some 2) (some [0x41, 0]) none ⟨[0xE4, 0xB8], .ascii⟩).position =
    none := by cbv

end World

end FormattedText
