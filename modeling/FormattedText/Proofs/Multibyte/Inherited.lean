import FormattedText.Multibyte.Text
import FormattedText.Proofs.Multibyte.Feeding

/-!
# Decoding from a state of another encoding

The encoding may change between two calls on one conversion state. The bytes that are then
pending were left by a decoder of some encoding (`Inherited`), which need not be the one
that goes on with them. There they may spell a whole character already (`held?`); otherwise
the decoder awaits a byte (`Awaits`): the bytes begin a character of its own encoding too,
or nothing can follow them. `decode_inherited` says all that decoding a character can do
from such a state. It takes no byte beyond the source, and it takes none at all only for
what is held or for a terminator.
-/

namespace FormattedText

open ByteClass

/-- The pending bytes were left by a decoder of some encoding, in some shift. -/
def ConversionState.Inherited (s : ConversionState) : Prop :=
  ∃ (enc : Encoding) (shift : Shift), enc.Resumable ⟨s.pending, shift⟩

namespace ConversionState

theorem inherited_of_pending_nil {s : ConversionState} (h : s.pending = []) : s.Inherited :=
  ⟨.ascii, .ascii, h ▸ .idle fun _ => rfl⟩

theorem inherited_initial : initial.Inherited := inherited_of_pending_nil rfl

/-- A change of the shift alone changes nothing. -/
theorem Inherited.of_pending_eq {s t : ConversionState} (h : s.Inherited)
    (hp : t.pending = s.pending) : t.Inherited := by
  obtain ⟨enc, shift, hs⟩ := h
  exact ⟨enc, shift, hp ▸ hs⟩

end ConversionState

namespace Encoding

open ConversionState

section Pending

variable {enc other : Encoding}

theorem Resumable.inherited {s : ConversionState} (h : enc.Resumable s) : s.Inherited :=
  ⟨enc, s.shift, h⟩

/-- Only one encoding has characters of three bytes or more that begin with a given byte. -/
theorem eq_of_sequenceLength? {lead : UInt8} {n m : Nat}
    (h : enc.sequenceLength? lead = some n) (hn : 3 ≤ n)
    (ho : other.sequenceLength? lead = some m) (hm : 3 ≤ m) : enc = other := by
  have hlong : ∀ {e : Encoding} {k : Nat}, e.sequenceLength? lead = some k → 3 ≤ k →
      e = utf8 ∧ 0xE0 ≤ lead.toNat ∨ e = eucJp ∧ lead.toNat = 0x8F := by
    intro e k he hk
    cases e with
    | ascii | latin1 =>
      simp only [sequenceLength?, Option.ite_none_right_eq_some, Option.some.injEq] at he
      omega
    | utf8 =>
      rw [sequenceLength?_utf8_iff] at he
      exact Or.inl ⟨rfl, by omega⟩
    | eucJp =>
      rw [sequenceLength?_eucJp_iff] at he
      exact Or.inr ⟨rfl, by omega⟩
    | shiftJis =>
      rw [sequenceLength?_shiftJis_iff] at he
      omega
    | jis => cases he
  rcases hlong h hn with ⟨rfl, _⟩ | ⟨rfl, _⟩ <;> rcases hlong ho hm with ⟨rfl, _⟩ | ⟨rfl, _⟩ <;>
    first | rfl | omega

/-- Three bytes at most are pending. -/
theorem length_pending_of_inherited {s : ConversionState} (h : s.Inherited) :
    s.pending.length ≤ 3 := by
  obtain ⟨enc, shift, h⟩ := h
  generalize s.pending = bytes at h
  cases h with
  | idle => exact Nat.zero_le 3
  | character hp =>
    match bytes, hp with
    | lead :: rest, hp =>
      obtain ⟨⟨n, hn, hlt⟩, _⟩ := isPartial_cons.mp hp
      have hn := (sequenceLength?_bounds hn).2
      rw [List.length_cons]
      omega
  | escape => exact Nat.le_add_left 1 2
  | escapeSecond => exact Nat.le_succ 2
  | pair => exact Nat.le_add_left 1 2

/-- Pending bytes that a character of the encoding may begin with do begin one, whatever
encoding has left them: only a second byte has been looked at by another encoding, and
where it matters that encoding is the same. -/
theorem isPartial_of_inherited {s : ConversionState} (h : s.Inherited) {lead : UInt8}
    {rest : List UInt8} (hs : s.pending = lead :: rest) {n : Nat}
    (hn : enc.sequenceLength? lead = some n) (hlt : rest.length + 1 < n) :
    enc.isPartial s.pending = true := by
  rw [hs]
  cases rest with
  | nil => exact isPartial_cons.mpr ⟨⟨n, hn, hlt⟩, rfl⟩
  | cons b rest =>
    obtain ⟨other, shift, h⟩ := h
    rw [hs] at h
    rw [List.length_cons] at hlt
    cases h with
    | character hp =>
      obtain ⟨⟨m, hm, hltm⟩, _⟩ := isPartial_cons.mp hp
      rw [List.length_cons] at hltm
      rw [eq_of_sequenceLength? hn (by omega) hm (by omega)]
      exact hp
    | escapeSecond =>
      have hone : enc.sequenceLength? ByteClass.escape = some 1 ∨
          enc.sequenceLength? ByteClass.escape = none := by
        cases enc <;> decide
      rw [hn] at hone
      rcases hone with heq | heq
      · cases heq
        omega
      · cases heq

end Pending

/-- The decoder awaits a byte: what is pending spells no character yet. -/
inductive Awaits : Encoding → ConversionState → Prop where
  /-- An encoding of single bytes does not look at what is pending. -/
  | single {enc : Encoding} {s : ConversionState} (h : enc.isSingleByte = true) : Awaits enc s
  /-- The pending bytes begin a character of the encoding. -/
  | sequence {enc : Encoding} {s : ConversionState} (he : enc.isStateful = false)
      (hp : s.pending = [] ∨ enc.isPartial s.pending = true) : Awaits enc s
  /-- The encoding with escape sequences goes on where it has stopped. -/
  | resumed {s : ConversionState} (h : jis.Resumable s) : Awaits jis s
  /-- Nothing can follow the pending bytes. -/
  | stuck {enc : Encoding} {s : ConversionState} (h : ∀ b, enc.feed s b = .refused) : Awaits enc s

/-- The effects that a byte can have on a decoder that awaits one. -/
inductive AwaitedStep (enc : Encoding) (s : ConversionState) (b : UInt8) : Feed → Prop where
  /-- The last byte of a character, which is the terminator exactly if the byte is. -/
  | character {wc : UInt32} {t : ConversionState} (hz : wc = 0 ↔ b = 0)
      (ht : t.pending = [] ∨ enc.isSingleByte = true ∧ t = s) :
      AwaitedStep enc s b (.character wc t)
  /-- A byte that is kept, or the last byte of an escape sequence. -/
  | more {t : ConversionState} (hb : b ≠ 0) (ht : enc.Awaits t) (hi : t.Inherited) :
      AwaitedStep enc s b (.more t)
  /-- A byte that cannot stand there. -/
  | refused : AwaitedStep enc s b .refused

section Awaiting

variable {enc : Encoding} {s : ConversionState}

/-- A decoder that has only seen its own encoding awaits a byte. -/
theorem Resumable.awaits (h : enc.Resumable s) : enc.Awaits s := by
  cases he : enc.isStateful with
  | false =>
    obtain ⟨bytes, rfl, hp⟩ := h.eq_of_stateless he
    exact .sequence he hp
  | true =>
    cases enc with
    | jis => exact .resumed h
    | _ => cases he

theorem awaits_of_pending_nil (enc : Encoding) (h : s.pending = []) : enc.Awaits s := by
  cases he : enc.isStateful with
  | false => exact .sequence he (Or.inl h)
  | true => exact (resumable_of_pending_nil h fun hs => by rw [he] at hs; cases hs).awaits

/-- In the encoding with escape sequences. -/
private theorem awaits_jis (h : s.Inherited) (hh : jis.held? s = none) : jis.Awaits s := by
  obtain ⟨pending, shift⟩ := s
  match pending with
  | [] => exact awaits_of_pending_nil jis rfl
  | [lead] =>
    by_cases hl : lead = ByteClass.escape
    · subst hl
      exact .resumed (.escape rfl)
    by_cases hp : shift = .jis0208 ∧ isJisByte lead = true
    · obtain ⟨rfl, hp⟩ := hp
      exact .resumed (.pair rfl hp)
    · refine .stuck fun b => ?_
      have hno : ¬(shift = .jis0208 ∧ isJisByte lead = true ∧ isJisByte b = true) :=
        fun h => hp ⟨h.1, h.2.1⟩
      simp only [feed, feedJis, hl, hno, ite_false]
  | [lead, second] =>
    by_cases hl : lead = ByteClass.escape
    · subst hl
      obtain ⟨enc, other, h⟩ := h
      cases h with
      | character hp =>
        obtain ⟨⟨n, hn, hlt⟩, _⟩ := isPartial_cons.mp hp
        have hone : enc.sequenceLength? ByteClass.escape = some 1 ∨
            enc.sequenceLength? ByteClass.escape = none := by
          cases enc <;> decide
        rw [hn] at hone
        rcases hone with heq | heq
        · cases heq
          rw [List.length_singleton] at hlt
          omega
        · cases heq
      | escapeSecond _ hs => exact .resumed (.escapeSecond rfl hs)
    · exact .stuck fun b => by simp only [feed, feedJis, hl, ite_false]
  | _ :: _ :: _ :: _ => exact .stuck fun b => rfl

/-- In an encoding of longer characters that has no escape sequences. -/
private theorem awaits_sequence (he : enc.isStateful = false)
    (hf : ∀ t b, enc.feed t b = enc.feedSequence t b)
    (hheld : ∀ lead rest n, s.pending = lead :: rest → enc.sequenceLength? lead = some (n + 2) →
      n + 2 ≤ rest.length + 1 → enc.held? s ≠ none)
    (h : s.Inherited) (hh : enc.held? s = none) : enc.Awaits s := by
  match hs : s.pending with
  | [] => exact .sequence he (Or.inl hs)
  | lead :: rest =>
    match hn : enc.sequenceLength? lead with
    | some (n + 2) =>
      by_cases hlt : rest.length + 1 < n + 2
      · exact .sequence he (Or.inr (isPartial_of_inherited h hs hn hlt))
      · exact absurd hh (hheld lead rest n hs hn (Nat.le_of_not_lt hlt))
    | none | some 0 | some 1 => exact .stuck fun b => by simp only [hf, feedSequence, hs, hn]

/-- What an encoding of longer characters without escape sequences has of pending bytes. -/
theorem held?_sequence (he : enc.isStateful = false) (hone : enc.isSingleByte = false)
    {lead : UInt8} {rest : List UInt8} (hs : s.pending = lead :: rest) :
    enc.held? s =
      match enc.sequenceLength? lead with
      | some (n + 2) =>
          if n + 2 ≤ rest.length + 1 then
            some (enc.sequenceValue ((lead :: rest).take (n + 2)), s.holding [])
          else none
      | _ => none := by
  obtain ⟨pending, shift⟩ := s
  cases hs
  cases enc with
  | ascii | latin1 => cases hone
  | jis => cases he
  | _ => rfl

/-- A decoder awaits a byte exactly where the pending bytes do not hold a character. -/
theorem awaits_of_held?_eq_none (h : s.Inherited) (hh : enc.held? s = none) :
    enc.Awaits s := by
  have hheld : enc.isSingleByte = false → enc.isStateful = false →
      ∀ lead rest n, s.pending = lead :: rest → enc.sequenceLength? lead = some (n + 2) →
        n + 2 ≤ rest.length + 1 → enc.held? s ≠ none := by
    intro hone he lead rest n hs hn hle
    rw [held?_sequence he hone hs, hn]
    simp only [hle, ite_true]
    exact Option.some_ne_none _
  cases enc with
  | ascii | latin1 => exact .single rfl
  | jis => exact awaits_jis h hh
  | _ => exact awaits_sequence rfl (fun _ _ => rfl) (hheld rfl rfl) h hh

/-- All that a byte can do to a decoder that awaits one. -/
theorem feed_awaited (h : enc.Awaits s) (b : UInt8) :
    AwaitedStep enc s b (enc.feed s b) := by
  cases h with
  | single h =>
    have hf : enc.feed s b = enc.feedSingle s b := by
      cases enc with
      | ascii | latin1 => rfl
      | _ => cases h
    rw [hf, feedSingle]
    split
    · have hz : b.toUInt32 = 0 → b = 0 := fun hz =>
        Decidable.byContradiction fun hb => toUInt32_ne_zero hb hz
      exact .character ⟨hz, fun hb => hb ▸ rfl⟩ (Or.inr ⟨h, rfl⟩)
    · exact .refused
  | sequence he hp =>
    obtain ⟨bytes, shift⟩ := s
    rw [feed_eq he hp]
    split
    · rename_i hs
      refine .character ⟨fun hz => ?_, fun hb => ?_⟩ (Or.inl rfl)
      · have hz := (sequenceValue_eq_zero_iff he hs).mp hz
        exact (List.append_eq_singleton_iff.mp hz).elim (fun h => (List.cons.inj h.2).1)
          fun h => absurd h.2 (List.cons_ne_nil b [])
      · subst hb
        rw [sequenceValue_eq_zero_iff he hs]
        by_cases hn : bytes = []
        · rw [hn, List.nil_append]
        · rw [(isSequence_concat_zero hn).1] at hs
          cases hs
    split
    · rename_i hp'
      refine .more ?_ (.sequence he (Or.inr hp')) ⟨enc, .ascii, .character hp'⟩
      rintro rfl
      by_cases hn : bytes = []
      · subst hn
        obtain ⟨⟨n, hn, hlt⟩, _⟩ := isPartial_cons.mp hp'
        have hz := (isSequence_cons.mp (isSequence_zero he)).1
        rw [hn] at hz
        cases hz
        omega
      · rw [(isSequence_concat_zero hn).2] at hp'
        cases hp'
    · exact .refused
  | resumed h =>
    have hstep := feed_step h b
    generalize jis.feed s b = f at hstep ⊢
    cases hstep with
    | terminator hb => exact .character (iff_of_true rfl hb) (Or.inl rfl)
    | character hb hw => exact .character (iff_of_false hw hb) (Or.inl rfl)
    | more hb ht => exact .more hb (.resumed ht) ht.inherited
    | refused => exact .refused
  | stuck h =>
    rw [h b]
    exact .refused

/-- Nothing is held where nothing is pending. -/
theorem held?_of_pending_nil (enc : Encoding) (h : s.pending = []) : enc.held? s = none := by
  cases enc <;> simp only [held?, h]

theorem held?_of_isSingleByte (h : enc.isSingleByte = true) (s : ConversionState) :
    enc.held? s = none := by
  cases enc with
  | ascii | latin1 => rfl
  | _ => cases h

/-- Feeding the bytes of a source to a decoder that awaits one: the terminator is met in
none of them but the last, and without the last there is no character. -/
theorem scan_awaited (h : enc.Awaits s) (hi : s.Inherited) (used : Nat) (src : List UInt8) :
    match enc.scan s used src with
    | .incomplete t => 0 ∉ src ∧ t.Inherited
    | .invalid => True
    | .character wc n t => ∃ front b rest, src = front ++ b :: rest ∧ 0 ∉ front ∧
        (∃ u, enc.scan s used front = .incomplete u) ∧ (wc = 0 ↔ b = 0) ∧
        n = reportedCount wc (used + front.length + 1) ∧ enc.held? t = none ∧ t.Inherited := by
  induction src generalizing s used with
  | nil => exact ⟨List.not_mem_nil, hi⟩
  | cons b src ih =>
    have hstep := feed_awaited h b
    rw [scan]
    generalize hfeed : enc.feed s b = f at hstep ⊢
    cases hstep with
    | @character wc t hz ht =>
      refine ⟨[], b, src, rfl, List.not_mem_nil, ⟨s, rfl⟩, hz, rfl, ?_⟩
      rcases ht with ht | ⟨hone, rfl⟩
      · exact ⟨held?_of_pending_nil enc ht, inherited_of_pending_nil ht⟩
      · exact ⟨held?_of_isSingleByte hone t, hi⟩
    | @more t hb ht hti =>
      have hi := ih ht hti (used + 1)
      have h0 : 0 ∉ [b] := fun hm => hb (List.mem_singleton.mp hm).symm
      simp only
      generalize enc.scan t (used + 1) src = d at hi ⊢
      match d with
      | .incomplete u => exact ⟨List.not_mem_append h0 hi.1, hi.2⟩
      | .invalid => trivial
      | .character wc n u =>
        obtain ⟨front, c, rest, rfl, hf, hcut, hz, rfl, hu⟩ := hi
        refine ⟨b :: front, c, rest, rfl, List.not_mem_append h0 hf, ?_, hz, ?_, hu⟩
        · rw [scan, hfeed]
          exact hcut
        rw [List.length_cons]
        congr 1
        omega
    | refused => trivial

end Awaiting

/-- The effects that decoding a character can have on a state that any encoding has left. -/
inductive DecodeStep (enc : Encoding) (s : ConversionState) (src : List UInt8) : Decoded → Prop
  where
  /-- The pending bytes spell a character: it takes no byte of the source. -/
  | held {wc : UInt32} {t : ConversionState} (hh : enc.held? s = some (wc, t)) (hne : src ≠ [])
      (hi : t.Inherited) : DecodeStep enc s src (.character wc 0 t)
  /-- The terminator, which stands in the source. -/
  | terminator {t : ConversionState} (hh : enc.held? s = none) (front rest : List UInt8)
      (hsrc : src = front ++ 0 :: rest) (h0 : 0 ∉ front)
      (hcut : ∃ u, enc.decode s front = .incomplete u) (hi : t.Inherited) :
      DecodeStep enc s src (.character 0 0 t)
  /-- Any other character, with the bytes of the source that it takes. -/
  | character {wc : UInt32} {n : Nat} {t : ConversionState} (hh : enc.held? s = none)
      (front rest : List UInt8) (hsrc : src = front ++ rest) (hn : n = front.length)
      (hne : front ≠ []) (h0 : 0 ∉ front) (hw : wc ≠ 0) (ht : enc.held? t = none)
      (hi : t.Inherited) : DecodeStep enc s src (.character wc n t)
  /-- The source is used up. -/
  | incomplete {t : ConversionState} (h0 : 0 ∉ src) (hi : t.Inherited) :
      DecodeStep enc s src (.incomplete t)
  /-- A byte of the source is refused. -/
  | invalid (hh : enc.held? s = none) : DecodeStep enc s src .invalid

section Decoding

variable {enc : Encoding} {s : ConversionState}

/-- What is left of a held character is nothing, or all that was pending. -/
theorem inherited_of_held? {wc : UInt32} {t : ConversionState} (h : s.Inherited)
    (hh : enc.held? s = some (wc, t)) : t.Inherited := by
  have ht : t.pending = [] ∨ t.pending = s.pending := by
    unfold held? at hh
    split at hh
    · cases hh
    · cases hh
    · cases hh
    · simp only [Option.ite_none_right_eq_some, Option.some.injEq, Prod.mk.injEq] at hh
      exact Or.inr (congrArg ConversionState.pending hh.2.2).symm
    · split at hh
      · simp only [Option.ite_none_right_eq_some, Option.some.injEq, Prod.mk.injEq] at hh
        exact Or.inl (congrArg ConversionState.pending hh.2.2).symm
      · cases hh
  rcases ht with ht | ht
  · exact inherited_of_pending_nil ht
  · exact h.of_pending_eq ht

/-- All that decoding a character can do to a state that any encoding has left. -/
theorem decode_inherited (h : s.Inherited) (enc : Encoding) (src : List UInt8) :
    DecodeStep enc s src (enc.decode s src) := by
  match src, hh : enc.held? s with
  | [], _ => exact .incomplete List.not_mem_nil h
  | b :: rest, some (wc, t) =>
    simp only [decode, hh]
    exact .held hh (List.cons_ne_nil b rest) (inherited_of_held? h hh)
  | b :: rest, none =>
    have hscan := scan_awaited (awaits_of_held?_eq_none h hh) h 0 (b :: rest)
    simp only [decode, hh]
    generalize enc.scan s 0 (b :: rest) = d at hscan ⊢
    cases d with
    | incomplete t => exact .incomplete hscan.1 hscan.2
    | invalid => exact .invalid hh
    | character wc n t =>
      obtain ⟨front, c, more, hsrc, hf, hcut, hz, rfl, ht, hi⟩ := hscan
      by_cases hw : wc = 0
      · rw [hz] at hw
        subst hw
        rw [hz.mpr rfl]
        refine .terminator hh front more hsrc hf ?_ hi
        cases front with
        | nil => exact ⟨s, rfl⟩
        | cons c front => simpa only [decode, hh] using hcut
      · have hc : c ≠ 0 := fun hc => hw (hz.mpr hc)
        have hlen : reportedCount wc (0 + front.length + 1) = (front ++ [c]).length := by
          rw [reportedCount, if_neg hw, List.length_append, List.length_singleton, Nat.zero_add]
        refine .character hh (front ++ [c]) more ?_ hlen (by simp) ?_ hw ht hi
        · rw [hsrc, List.append_cons]
        · exact List.not_mem_append hf fun hm => hc (List.mem_singleton.mp hm).symm

/-- Reading a character leaves an inherited state. -/
theorem decodeOne_inherited (h : s.Inherited) (enc : Encoding) (source : Option (List UInt8)) :
    (enc.decodeOne source s).state.Inherited := by
  match source with
  | none => exact inherited_initial
  | some src =>
    have hstep := decode_inherited h enc src
    rw [decodeOne]
    generalize enc.decode s src = d at hstep ⊢
    cases hstep with
    | held _ _ hi => exact hi
    | terminator _ _ _ _ _ _ hi => exact hi
    | character _ _ _ _ _ _ _ _ _ hi => exact hi
    | incomplete _ hi => exact hi
    | invalid => exact h

/-- A character takes no more bytes than the source has. -/
theorem decodeOne_count_le (h : s.Inherited) (enc : Encoding) {src : List UInt8} {n : Nat}
    (hn : (enc.decodeOne (some src) s).result = .ok n) : n ≤ src.length := by
  have hstep := decode_inherited h enc src
  rw [decodeOne] at hn
  generalize enc.decode s src = d at hstep hn
  cases hstep with
  | held | terminator =>
    cases hn
    exact Nat.zero_le src.length
  | character _ front rest hsrc hlen =>
    cases hn
    rw [hlen, hsrc, List.length_append]
    exact Nat.le_add_right front.length rest.length
  | incomplete | invalid => cases hn

/-- How far decoding a string gets from a state that any encoding has left. -/
inductive DecodeRun (enc : Encoding) (s : ConversionState) (room : Option Nat)
    (src : List UInt8) : Progress UInt8 UInt32 → Prop where
  /-- It stops at the first terminator of the source, or at a character that was held. -/
  | terminated (text : List UInt32) {rest : List UInt8} {t : ConversionState}
      (taken : List UInt8) (hsrc : src = taken ++ rest) (h0 : 0 ∉ taken)
      (hz : enc.held? s ≠ none ∨ 0 ∈ rest) (hi : t.Inherited) :
      DecodeRun enc s room src ⟨text ++ [0], .terminated, rest, t⟩
  /-- The source is used up. -/
  | drained {text : List UInt32} {t : ConversionState} (h0 : 0 ∉ src) (hi : t.Inherited) :
      DecodeRun enc s room src ⟨text, .drained, [], t⟩
  /-- There is no more room. -/
  | full {text : List UInt32} {rest : List UInt8} {t : ConversionState} (taken : List UInt8)
      (hroom : room ≠ none) (hsrc : src = taken ++ rest) (h0 : 0 ∉ taken) (hi : t.Inherited) :
      DecodeRun enc s room src ⟨text, .full, rest, t⟩
  /-- A byte is refused. -/
  | invalid {text : List UInt32} {rest : List UInt8} {t : ConversionState} (hi : t.Inherited) :
      DecodeRun enc s room src ⟨text, .invalid, rest, t⟩

/-- A character that is decoded first comes before all others. -/
theorem DecodeRun.after {t : ConversionState} {room : Option Nat} {front more : List UInt8}
    {p : Progress UInt8 UInt32} (hrun : DecodeRun enc t (roomAfter room 1) more p)
    (ht : enc.held? t = none) (h0 : 0 ∉ front) (wc : UInt32) :
    DecodeRun enc s room (front ++ more) (p.after [wc]) := by
  cases hrun with
  | terminated text taken hsrc h0' hz hi =>
    refine .terminated (wc :: text) (front ++ taken) ?_ (List.not_mem_append h0 h0') ?_ hi
    · rw [hsrc, List.append_assoc]
    · exact Or.inr (hz.resolve_left fun hheld => hheld ht)
  | drained h0' hi => exact .drained (List.not_mem_append h0 h0') hi
  | full taken hroom hsrc h0' hi =>
    refine .full (front ++ taken) ?_ ?_ (List.not_mem_append h0 h0') hi
    · rintro rfl
      exact hroom rfl
    · rw [hsrc, List.append_assoc]
  | invalid hi => exact .invalid hi

/-- All that decoding a string can come to, character by character. -/
theorem decodeAll_inherited (h : s.Inherited) (enc : Encoding) (room : Option Nat)
    (src : List UInt8) : DecodeRun enc s room src (enc.decodeAll room s src) := by
  fun_induction decodeAll enc room s src with
  | case1 room s src hspent =>
    refine .full [] ?_ rfl List.not_mem_nil h
    rintro rfl
    cases hspent
  | case2 room s hspent => exact .drained List.not_mem_nil h
  | case3 room s hspent b rest wc t hd =>
    have hstep := decode_inherited h enc (b :: rest)
    rw [hd] at hstep
    refine .terminated [] [] rfl List.not_mem_nil ?_ ?_
    · cases hstep with
      | held hh => exact Or.inl (by rw [hh]; exact Option.some_ne_none _)
      | terminator _ front more hsrc =>
        exact Or.inr (hsrc ▸ List.mem_append_right front List.mem_cons_self)
      | character _ front _ _ hn hne =>
        exact absurd hn (Nat.ne_of_lt (List.length_pos_iff.mpr hne))
    · cases hstep with
      | held _ _ hi => exact hi
      | terminator _ _ _ _ _ _ hi => exact hi
      | character _ _ _ _ _ _ _ _ _ hi => exact hi
  | case4 room s hspent b rest wc n t hd ih =>
    have hstep := decode_inherited h enc (b :: rest)
    rw [hd] at hstep
    cases hstep with
    | character _ front more hsrc hn _ h0 _ ht hi =>
      rw [drop_of_taken hsrc hn] at ih ⊢
      rw [hsrc]
      exact (ih hi).after ht h0 wc
  | case5 room s hspent b rest t hd =>
    have hstep := decode_inherited h enc (b :: rest)
    rw [hd] at hstep
    cases hstep with
    | incomplete h0 hi => exact .drained h0 hi
  | case6 room s hspent b rest hd => exact .invalid h

/-- Decoding a string leaves an inherited state. -/
theorem decodeString_inherited (h : s.Inherited) (enc : Encoding) (capacity : Option Nat)
    (source : Option (List UInt8)) : (enc.decodeString capacity source s).state.Inherited := by
  match source with
  | none => exact h
  | some src =>
    have hrun := decodeAll_inherited h enc capacity src
    simp only [decodeString]
    generalize enc.decodeAll capacity s src = p at hrun ⊢
    cases hrun with
    | terminated _ _ _ _ _ hi => exact hi
    | drained _ hi => exact hi
    | full _ _ _ _ hi => exact hi
    | invalid => exact inherited_initial

end Decoding

section Encoding

variable {enc : Encoding} {s : ConversionState}

/-- Encoding never touches pending bytes. -/
theorem pending_of_encode {wc : UInt32} {bytes : List UInt8} {t : ConversionState}
    (h : enc.encode s wc = some (bytes, t)) : t.pending = s.pending := by
  cases enc with
  | ascii | latin1 =>
    have h := (Option.ite_none_right_eq_some.mp h).2
    rw [← (Prod.mk.inj (Option.some.inj h)).2]
  | jis =>
    obtain ⟨form, _, h⟩ := Option.map_eq_some_iff.mp h
    rw [← (Prod.mk.inj h).2]
  | _ =>
    obtain ⟨form, _, h⟩ := Option.map_eq_some_iff.mp h
    rw [← (Prod.mk.inj h).2]

/-- Writing a character leaves an inherited state. -/
theorem encodeOne_inherited (h : s.Inherited) (enc : Encoding) (capacity : Option Nat)
    (wc : UInt32) : (enc.encodeOne capacity wc s).state.Inherited := by
  simp only [encodeOne]
  split
  · exact h
  · exact h
  · rename_i he
    split
    · exact h
    · exact h.of_pending_eq (pending_of_encode he)

/-- Encoding a string leaves an inherited state. -/
theorem encodeAll_inherited (h : s.Inherited) (enc : Encoding) (room : Option Nat)
    (wide : List UInt32) : (enc.encodeAll room s wide).state.Inherited := by
  induction wide generalizing room s with
  | nil => exact h
  | cons wc rest ih =>
    rw [encodeAll]
    split
    · exact h
    split
    · exact h
    rename_i he
    have ht := h.of_pending_eq (pending_of_encode he)
    split
    · exact h
    split
    · exact ht
    · exact ih ht _

theorem encodeString_inherited (h : s.Inherited) (enc : Encoding) (capacity : Option Nat)
    (source : Option (List UInt32)) : (enc.encodeString capacity source s).state.Inherited := by
  match source with
  | none => exact h
  | some wide =>
    have hall := encodeAll_inherited h enc capacity wide
    simp only [encodeString]
    split
    · exact inherited_initial
    · exact inherited_initial
    · exact hall
    · exact hall

end Encoding

end Encoding

end FormattedText
