import FormattedText.Proofs.Multibyte.Inherited
import FormattedText.Proofs.Multibyte.Pieces

/-!
# Runs of escape sequences

Before a character there may be any number of escape sequences. The decoder takes them one after
another, and each makes it forget the shift that the one before has selected: behind a whole run it
is in the state in which the last sequence alone leaves it (`keeps_bytesOf`). So the run comes to
the character, the failure and the state that its last sequence comes to, and only the bytes that
go before add to the count (`decodeOne_absorbs`).
-/

namespace FormattedText

/-- The escape sequences that select a character set. -/
inductive EscapeSequence where
  /-- `ESC $ B` selects pairs. -/
  | pairs
  /-- `ESC $ @` selects pairs by their older set. -/
  | olderPairs
  /-- `ESC ( B` selects ASCII. -/
  | ascii
  /-- `ESC ( J` selects the Roman set, which is read as ASCII. -/
  | roman
  deriving DecidableEq, Repr

namespace EscapeSequence

/-- The three bytes of a sequence. -/
def bytes : EscapeSequence → List UInt8
  | pairs => [ByteClass.escape, 0x24, 0x42]
  | olderPairs => [ByteClass.escape, 0x24, 0x40]
  | ascii => [ByteClass.escape, 0x28, 0x42]
  | roman => [ByteClass.escape, 0x28, 0x4A]

/-- The shift that a sequence selects. -/
def target : EscapeSequence → Shift
  | pairs | olderPairs => .jis0208
  | ascii | roman => .ascii

/-- The bytes of sequences one after another. -/
def bytesOf (es : List EscapeSequence) : List UInt8 := es.flatMap bytes

theorem length_bytesOf (es : List EscapeSequence) : (bytesOf es).length = 3 * es.length := by
  induction es with
  | nil => rfl
  | cons e es ih =>
    have he : e.bytes.length = 3 := by cases e <;> rfl
    rw [bytesOf, List.flatMap_cons, List.length_append, he, ← bytesOf, ih, List.length_cons]
    omega

/-- The decoder knows no other sequence. -/
theorem escapeTarget?_eq_some_iff {second third : UInt8} {shift : Shift} :
    Encoding.escapeTarget? second third = some shift ↔
      ∃ e : EscapeSequence, e.bytes = [ByteClass.escape, second, third] ∧ e.target = shift := by
  constructor
  · intro h
    rw [Encoding.escapeTarget?] at h
    split at h
    · rename_i hb
      obtain ⟨rfl, rfl | rfl⟩ := hb
      · exact ⟨pairs, rfl, Option.some.inj h⟩
      · exact ⟨olderPairs, rfl, Option.some.inj h⟩
    · split at h
      · rename_i hb
        obtain ⟨rfl, rfl | rfl⟩ := hb
        · exact ⟨ascii, rfl, Option.some.inj h⟩
        · exact ⟨roman, rfl, Option.some.inj h⟩
      · cases h
  · rintro ⟨e, hbytes, rfl⟩
    cases e <;> (cases hbytes; rfl)

end EscapeSequence

namespace Encoding

open EscapeSequence

section Feeding

variable {enc : Encoding} {s t u : ConversionState} {a b : List UInt8}

/-- Bytes are fed in their order, each of them once, and all are kept: no character comes of them,
and none is refused. -/
inductive Keeps (enc : Encoding) : ConversionState → List UInt8 → ConversionState → Prop where
  /-- No byte is fed. -/
  | nil (s : ConversionState) : Keeps enc s [] s
  /-- One byte is kept, and then the others are. -/
  | cons {s t u : ConversionState} {c : UInt8} {rest : List UInt8} (hc : enc.feed s c = .more t)
      (hrest : Keeps enc t rest u) : Keeps enc s (c :: rest) u

/-- Where a source that is fed from the state `s` on comes to an end; `used` bytes of the character
went before. -/
inductive FeedsUntil (enc : Encoding) (s : ConversionState) (used : Nat) :
    List UInt8 → Decoded → Prop where
  /-- A byte behind those that are kept completes a character. What follows is not fed. -/
  | character {t u : ConversionState} {kept : List UInt8} {last : UInt8} {wc : UInt32}
      (hkept : Keeps enc s kept t) (hlast : enc.feed t last = .character wc u)
      (rest : List UInt8) :
      FeedsUntil enc s used (kept ++ last :: rest)
        (.character wc (reportedCount wc (used + kept.length + 1)) u)
  /-- All bytes are kept. -/
  | incomplete {t : ConversionState} {src : List UInt8} (hkept : Keeps enc s src t) :
      FeedsUntil enc s used src (.incomplete t)
  /-- A byte behind those that are kept is refused. What follows is not fed. -/
  | refused {t : ConversionState} {kept : List UInt8} {last : UInt8}
      (hkept : Keeps enc s kept t) (hlast : enc.feed t last = .refused) (rest : List UInt8) :
      FeedsUntil enc s used (kept ++ last :: rest) .invalid

theorem Keeps.append (ha : enc.Keeps s a t) (hb : enc.Keeps t b u) : enc.Keeps s (a ++ b) u := by
  induction ha with
  | nil => exact hb
  | cons hc _ ih => exact .cons hc (ih hb)

theorem Keeps.scan (ha : enc.Keeps s a t) (used : Nat) : enc.scan s used a = .incomplete t := by
  induction ha generalizing used with
  | nil => rfl
  | cons hc _ ih =>
    rw [Encoding.scan, hc]
    exact ih (used + 1)

/-- A byte that is kept comes before all others. -/
theorem FeedsUntil.of_more {c : UInt8} {src : List UInt8} {used : Nat} {d : Decoded}
    (hc : enc.feed s c = .more t) (h : enc.FeedsUntil t (used + 1) src d) :
    enc.FeedsUntil s used (c :: src) d := by
  cases h with
  | @character v u kept last wc hkept hlast rest =>
    rw [show used + 1 + kept.length + 1 = used + (c :: kept).length + 1 by
      rw [List.length_cons]; omega]
    exact .character (.cons hc hkept) hlast rest
  | incomplete hkept => exact .incomplete (.cons hc hkept)
  | refused hkept hlast rest => exact .refused (.cons hc hkept) hlast rest

/-- Feeding a source ends, and no byte is fed twice. -/
theorem scan_feedsUntil (enc : Encoding) (s : ConversionState) (used : Nat) (src : List UInt8) :
    enc.FeedsUntil s used src (enc.scan s used src) := by
  induction src generalizing s used with
  | nil => exact .incomplete (.nil s)
  | cons c src ih =>
    rw [scan]
    cases hc : enc.feed s c with
    | more t => exact (ih t (used + 1)).of_more hc
    | character wc t => exact .character (.nil s) hc src
    | refused => exact .refused (.nil s) hc src

end Feeding

section Runs

variable {s : ConversionState} {rest : List UInt8}

theorem keeps_bytes (hp : s.pending = []) (e : EscapeSequence) :
    jis.Keeps s e.bytes (.shiftedTo e.target) := by
  obtain ⟨pending, shift⟩ := s
  cases hp
  cases e <;> exact .cons rfl (.cons rfl (.cons rfl (.nil _)))

/-- A run of escape sequences leads to the shift of its last one. -/
theorem keeps_bytesOf (hp : s.pending = []) (front : List EscapeSequence) (last : EscapeSequence) :
    jis.Keeps s (bytesOf (front ++ [last])) (.shiftedTo last.target) := by
  induction front generalizing s with
  | nil => exact (keeps_bytes hp last).append (.nil _)
  | cons e front ih => exact (keeps_bytes hp e).append (ih rfl)

theorem decode_run (hp : s.pending = []) (front : List EscapeSequence) (last : EscapeSequence)
    (rest : List UInt8) :
    jis.decode s (bytesOf (front ++ [last]) ++ rest) =
      jis.scan s 0 (bytesOf (front ++ [last]) ++ rest) := by
  refine decode_eq_scan_of_held?_eq_none (held?_of_pending_nil jis hp) fun hnil => ?_
  have hlength := congrArg List.length (List.append_eq_nil_iff.mp hnil).1
  rw [length_bytesOf, List.length_append] at hlength
  cases hlength

/-- Behind a run of escape sequences a source is decoded from the shift of the last one, and the
bytes of the run add to the count. -/
theorem decode_bytesOf (hp : s.pending = []) (front : List EscapeSequence) (last : EscapeSequence)
    (rest : List UInt8) :
    jis.decode s (bytesOf (front ++ [last]) ++ rest) =
      (jis.scan (.shiftedTo last.target) 0 rest).behind (3 * (front.length + 1)) := by
  have hscan := (keeps_bytesOf hp front last).scan 0
  rw [decode_run hp, scan_append_of_incomplete hscan, Nat.add_comm, scan_add, length_bytesOf,
    List.length_append, List.length_singleton]

/-- A run of escape sequences in front of the bytes `rest` is read as its last sequence `last`
alone; `front` are the sequences before it. -/
structure Absorbs (s : ConversionState) (front : List EscapeSequence) (last : EscapeSequence)
    (rest : List UInt8) : Prop where
  /-- The two ways to read come to the same, and the sequences before the last only count. -/
  resumes : CharacterRead.Resumes (3 * front.length) s s
    (jis.decodeOne (some (bytesOf (front ++ [last]) ++ rest)) s)
    (jis.decodeOne (some (last.bytes ++ rest)) s)
  /-- Any sequence of the run may be replaced by another one that selects the same shift. -/
  by_target : ∀ others : List EscapeSequence,
    others.map target = (front ++ [last]).map target →
      jis.decodeOne (some (bytesOf others ++ rest)) s =
        jis.decodeOne (some (bytesOf (front ++ [last]) ++ rest)) s
  /-- The decoder takes the bytes of the run, each of them once. -/
  kept : jis.Keeps s (bytesOf (front ++ [last])) (.shiftedTo last.target)
  /-- It comes to an end in the bytes of the run and those behind it, and takes none twice. -/
  ends : jis.FeedsUntil s 0 (bytesOf (front ++ [last]) ++ rest)
    (jis.decode s (bytesOf (front ++ [last]) ++ rest))

theorem decodeOne_resumes_last (hp : s.pending = []) (front : List EscapeSequence)
    (last : EscapeSequence) (rest : List UInt8) :
    CharacterRead.Resumes (3 * front.length) s s
      (jis.decodeOne (some (bytesOf (front ++ [last]) ++ rest)) s)
      (jis.decodeOne (some (last.bytes ++ rest)) s) := by
  have hrun := decode_bytesOf hp front last rest
  have hlast := decode_bytesOf hp [] last rest
  rw [List.nil_append, bytesOf, List.flatMap_singleton] at hlast
  simp only [decodeOne, hrun, hlast]
  cases jis.scan (.shiftedTo last.target) 0 rest with
  | invalid => exact .invalid
  | incomplete u => exact .incomplete u
  | character wc n u =>
    by_cases hw : wc = 0
    · subst hw
      exact .terminator u
    · simp only [Decoded.behind, reportedCount, hw, ite_false, List.length_nil]
      rw [show 3 * (front.length + 1) + n = 3 * front.length + (3 * (0 + 1) + n) by omega]
      exact .character u hw (by omega)

theorem decodeOne_by_target (hp : s.pending = []) (front others : List EscapeSequence)
    (last : EscapeSequence) (rest : List UInt8)
    (h : others.map target = (front ++ [last]).map target) :
    jis.decodeOne (some (bytesOf others ++ rest)) s =
      jis.decodeOne (some (bytesOf (front ++ [last]) ++ rest)) s := by
  rcases List.eq_nil_or_concat others with rfl | ⟨front', last', rfl⟩
  · rw [List.map_append] at h
    exact absurd h.symm (List.append_ne_nil_of_right_ne_nil _ (List.cons_ne_nil _ _))
  · rw [List.concat_eq_append] at h ⊢
    rw [List.map_append, List.map_append] at h
    obtain ⟨hfront, hlast⟩ := List.append_inj' h rfl
    have htarget : last'.target = last.target := List.singleton_inj.mp hlast
    have hlength : front'.length = front.length := by
      rw [← List.length_map target, hfront, List.length_map]
    simp only [decodeOne, decode_bytesOf hp, htarget, hlength]

/-- Escape sequences absorb one another: between characters a run of them is read as its last
one. -/
theorem decodeOne_absorbs (hp : s.pending = []) (front : List EscapeSequence)
    (last : EscapeSequence) (rest : List UInt8) : Absorbs s front last rest := by
  refine ⟨decodeOne_resumes_last hp front last rest,
    fun others h => decodeOne_by_target hp front others last rest h,
    keeps_bytesOf hp front last, ?_⟩
  rw [decode_run hp]
  exact scan_feedsUntil jis s 0 _

/-- From the shift to pairs, three sequences that end with the Roman set are read as that one. -/
theorem decodeOne_absorbs_roman :
    let s : ConversionState := ⟨[], .jis0208⟩
    s.pending = [] ∧ Absorbs s [.olderPairs, .ascii] .roman [0x41] ∧
      jis.decodeOne (some (bytesOf [.olderPairs, .ascii, .roman] ++ [0x41])) s =
        ⟨.ok 10, some 0x41, .initial⟩ :=
  ⟨rfl, decodeOne_absorbs rfl _ _ _, rfl⟩

end Runs

end Encoding

end FormattedText
