import FormattedText.Proofs.Memory.Assembly
import FormattedText.Proofs.Multibyte.Inherited

/-!
# Decoding in memory

The decoders as they work on a record and an assembler. From the record of a state that any
encoding has left, `decodeChar?` never accesses the buffer, the record or the source out of
range, and it reports what `Encoding.decode` gives (`decodeChar?_record`).
-/

namespace FormattedText

open ByteClass Slice

namespace Encoding

open Assembler

/-- Decodes a character of an encoding of single bytes. -/
def decodeSingle? (enc : Encoding) (source : List UInt8) (r : StateRecord) :
    Option DecodeReport :=
  source[0]?.map fun b =>
    if (enc.sequenceLength? b).isSome then (.ok (b.toUInt32, reportedCount b.toUInt32 1), r)
    else (.error .invalidSequence, r)

/-- Decodes a character of an encoding whose first byte announces the length. -/
def decodeSequence? (enc : Encoding) (source : List UInt8) (r : StateRecord) :
    Option DecodeReport := do
  let a ← resume? r source
  match ← a.lead? with
  | (none, _) => some (.error .incompleteSequence, r)
  | (some lead, a') =>
      match enc.sequenceLength? lead with
      | none => some (.error .invalidSequence, r)
      | some 1 =>
          if a.filled = 0 then some (.ok (lead.toUInt32, reportedCount lead.toUInt32 1), r)
          else some (.error .invalidSequence, r)
      | some need => a'.character? enc need (enc.continues lead) r

/-- Decodes a character of the encoding with escape sequences, after any number of them. -/
def decodeJis? (r : StateRecord) (a : Assembler) : Option DecodeReport :=
  match _ : a.lead? with
  | none => none
  | some (none, _) => some (.error .incompleteSequence, r)
  | some (some lead, a') =>
      if lead = escape then
        match _ : a'.escape? r with
        | none => none
        | some (.error e, _, r') => some (.error e, r')
        | some (.ok _, a'', r') => decodeJis? r' a''
      else if a.filled = 0 ∧ lead = 0 then some (.ok (0, 0), .zeroed)
      else match r.shiftOf with
        | .ascii =>
            if isAscii lead then some (.ok (lead.toUInt32, a'.used), r)
            else some (.error .invalidSequence, r)
        | .jis0208 =>
            if isJisByte lead then a'.character? jis 2 (fun _ b => isJisByte b) r
            else some (.error .invalidSequence, r)
  termination_by (a.source.length, a.filled)
  decreasing_by
    rename_i hlead _ _ hescape
    obtain ⟨hle, hfilled⟩ := source_escape? hescape
    rw [hfilled]
    rcases length_source_lead? hlead rfl with hlt | ⟨heq, hpos⟩
    · exact Prod.Lex.left _ _ (Nat.lt_of_le_of_lt hle hlt)
    · rcases Nat.lt_or_eq_of_le (heq ▸ hle) with hlt | heq'
      · exact Prod.Lex.left _ _ hlt
      · rw [heq']
        exact Prod.Lex.right _ hpos

/-- The record that is kept: a source that does not go on with a character changes nothing. -/
def settle (before : StateRecord) (report : DecodeReport) : DecodeReport :=
  match report.1 with
  | .ok _ | .error .incompleteSequence => report
  | .error e => (.error e, before)

/-- Decodes a character. -/
def decodeChar? (enc : Encoding) (source : List UInt8) (r : StateRecord) :
    Option DecodeReport :=
  (match enc with
    | ascii | latin1 => enc.decodeSingle? source r
    | utf8 | eucJp | shiftJis => enc.decodeSequence? source r
    | jis => (resume? r source).bind (decodeJis? r)).map (settle r)

end Encoding

/-- What is reported of a character that was decoded from a state. -/
def Decoded.report (s : ConversionState) : Decoded → DecodeReport
  | .character wc count t => (.ok (wc, count), t.record)
  | .incomplete t => (.error .incompleteSequence, t.record)
  | .invalid => (.error .invalidSequence, s.record)

namespace Encoding

open Assembler

@[simp] theorem settle_report (s before : ConversionState) (d : Decoded) :
    settle before.record (d.report s) = d.report before := by
  cases d <;> rfl

section Sequences

variable {enc : Encoding}

/-- Completing a character whose first bytes are gathered. -/
theorem character?_scan (he : enc.isStateful = false) (s : ConversionState) {lead : UInt8}
    {tail behind : List UInt8} {n : Nat} (hn : enc.sequenceLength? lead = some n)
    (hp : enc.isPartial (lead :: tail) = true)
    (hb : tail.length + 1 + behind.length = capacity) (source : List UInt8) (used : Nat) :
    (gathered (lead :: tail) behind source used).character? enc n (enc.continues lead) s.record =
      some ((enc.scan (s.holding (lead :: tail)) used source).report s) := by
  obtain ⟨⟨m, hm, hlt⟩, hfollows⟩ := isPartial_cons.mp hp
  obtain rfl : m = n := Option.some.inj (hm.symm.trans hn)
  have hcap : m ≤ capacity := (sequenceLength?_bounds hn).2
  induction source generalizing tail behind used with
  | nil =>
    rw [character?_nil hlt (by rw [List.length_cons]; omega)]
    rfl
  | cons b rest ih =>
    match behind, hb with
    | [], hb =>
      rw [List.length_nil] at hb
      omega
    | old :: behind, hb =>
      have hfeed : enc.feed (s.holding (lead :: tail)) b =
          if enc.isSequence (lead :: (tail ++ [b])) then
            .character (enc.sequenceValue (lead :: (tail ++ [b]))) (s.holding [])
          else if enc.isPartial (lead :: (tail ++ [b])) then
            .more (s.holding (lead :: (tail ++ [b])))
          else .refused := feed_eq he (Or.inr hp) s.shift b
      have hnext : enc.follows lead 1 (tail ++ [b]) = enc.continues lead (tail.length + 1) b := by
        rw [follows_append, hfollows, follows, follows, Bool.true_and, Bool.and_true,
          Nat.add_comm]
      have hlength : (tail ++ [b]).length = tail.length + 1 := by
        rw [List.length_append, List.length_singleton]
      rw [character?_cons hlt, scan, hfeed, List.length_cons]
      cases hc : enc.continues lead (tail.length + 1) b with
      | false =>
        simp only [isSequence, isPartial, hnext, hc, Bool.and_false, Bool.false_eq_true, ite_false]
        rfl
      | true =>
        rw [hc] at hnext
        rw [if_pos rfl, List.cons_append]
        by_cases hfull : m = tail.length + 2
        · have hs : enc.isSequence (lead :: (tail ++ [b])) = true :=
            isSequence_cons.mpr ⟨by rw [hm, hfull, hlength], hnext⟩
          have hv : enc.sequenceValue (lead :: (tail ++ [b])) ≠ 0 := by
            intro hv
            have hz := congrArg List.length ((sequenceValue_eq_zero_iff he hs).mp hv)
            rw [List.length_cons, hlength, List.length_singleton] at hz
            omega
          have htake : (lead :: (tail ++ [b])).take m = lead :: (tail ++ [b]) :=
            List.take_of_length_le (by rw [List.length_cons, hlength]; omega)
          rw [character?_of_le (by rw [List.length_cons, hlength]; omega), htake, if_pos hs]
          simp only [reportedCount, hv, ite_false, Decoded.report]
          rfl
        · have hlt' : (tail ++ [b]).length + 1 < m := by
            omega
          have hp' : enc.isPartial (lead :: (tail ++ [b])) = true :=
            isPartial_cons.mpr ⟨⟨m, hm, hlt'⟩, hnext⟩
          have hs : enc.isSequence (lead :: (tail ++ [b])) = false := by
            rw [isSequence, hm, hnext, Bool.and_true, beq_eq_false_iff_ne]
            intro heq
            have := Option.some.inj heq
            omega
          rw [hs, if_neg Bool.false_ne_true, if_pos hp']
          refine ih hp' ?_ (used + 1) hnext hlt'
          rw [List.length_cons] at hb
          omega

/-- In an encoding of longer characters without escape sequences. -/
theorem decodeSequence?_record (he : enc.isStateful = false) (hone : enc.isSingleByte = false)
    {s : ConversionState} (h : s.Inherited) (b : UInt8) (rest : List UInt8) :
    enc.decodeSequence? (b :: rest) s.record = some ((enc.decode s (b :: rest)).report s) := by
  have hf : ∀ t c, enc.feed t c = enc.feedSequence t c := by
    cases enc with
    | ascii | latin1 => cases hone
    | jis => cases he
    | _ => exact fun _ _ => rfl
  have hlen := length_pending_of_inherited h
  have hresume := resume?_record hlen (b :: rest)
  cases hs : s.pending with
  | nil =>
    have hheld : enc.held? s = none := held?_of_pending_nil enc hs
    have hlead := lead?_gathered_nil 0 b [0, 0, 0] rest 0
    have hbehind :
        List.replicate (capacity - ([] : List UInt8).length) (0 : UInt8) = [0, 0, 0, 0] := rfl
    rw [hs, hbehind] at hresume
    simp only [decodeSequence?, hresume, hlead, Option.bind_eq_bind, Option.bind_some, decode,
      hheld, scan, hf, feedSequence, hs]
    rcases hn : enc.sequenceLength? b with _ | _ | _ | n
    · rfl
    · exact absurd (sequenceLength?_bounds hn).1 (Nat.not_succ_le_zero 0)
    · rfl
    · have hlt : ([] : List UInt8).length + 1 < n + 2 := Nat.succ_lt_succ (Nat.succ_pos n)
      have hp : enc.isPartial [b] = true := isPartial_cons.mpr ⟨⟨n + 2, hn, hlt⟩, rfl⟩
      exact character?_scan he s hn hp rfl rest 1
  | cons lead tail =>
    rw [hs] at hresume
    simp only [decodeSequence?, hresume, lead?_gathered_cons, Option.bind_eq_bind, Option.bind_some,
      decode, held?_sequence he hone hs]
    rcases hn : enc.sequenceLength? lead with _ | _ | _ | n
    · simp only [scan, hf, feedSequence, hs, hn]
      rfl
    · exact absurd (sequenceLength?_bounds hn).1 (Nat.not_succ_le_zero 0)
    · simp only [scan, hf, feedSequence, hs, hn]
      rfl
    · by_cases hle : n + 2 ≤ tail.length + 1
      · simp only [hle, ite_true]
        exact character?_of_le hle enc s.record
      · have hp := isPartial_of_inherited h hs hn (Nat.lt_of_not_le hle)
        rw [hs] at hp hlen
        simp only [hle, ite_false]
        have hbehind : tail.length + 1 +
            (List.replicate (capacity - (lead :: tail).length) (0 : UInt8)).length = capacity := by
          rw [List.length_replicate, List.length_cons, capacity]
          rw [List.length_cons] at hlen
          omega
        have hcomplete := character?_scan he s hn hp hbehind (b :: rest) 0
        have hholding : s.holding (lead :: tail) = s := by rw [← hs]; rfl
        rw [hholding] at hcomplete
        exact hcomplete

end Sequences

section Jis

/-! In the encoding with escape sequences. -/

variable {used : Nat} {behind source : List UInt8}

/-- What is left to do once the first byte of a character is known. -/
theorem decodeJis?_of_lead {r : StateRecord} {a a' : Assembler} {lead : UInt8}
    (h : a.lead? = some (some lead, a')) :
    decodeJis? r a =
      if lead = ByteClass.escape then
        (a'.escape? r).bind fun (result, a'', r') =>
          match result with
          | .error e => some (.error e, r')
          | .ok _ => decodeJis? r' a''
      else if a.filled = 0 ∧ lead = 0 then some (.ok (0, 0), .zeroed)
      else match r.shiftOf with
        | .ascii =>
            if isAscii lead then some (.ok (lead.toUInt32, a'.used), r)
            else some (.error .invalidSequence, r)
        | .jis0208 =>
            if isJisByte lead then a'.character? jis 2 (fun _ b => isJisByte b) r
            else some (.error .invalidSequence, r) := by
  rw [decodeJis?]
  split
  · rename_i hl
    rw [h] at hl
    cases hl
  · rename_i hl
    rw [h] at hl
    cases hl
  · rename_i hl
    rw [h] at hl
    cases hl
    split
    · split <;> rename_i he <;> rw [he] <;> rfl
    · rfl

theorem decodeJis?_nil (r : StateRecord) (behind : List UInt8) (used : Nat) :
    decodeJis? r (gathered [] behind [] used) = some (.error .incompleteSequence, r) := by
  rw [decodeJis?]
  rfl

/-- An escape sequence that is not whole. -/
theorem decodeJis?_escape (r : StateRecord) (tail behind source : List UInt8) (used : Nat) :
    decodeJis? r (gathered (ByteClass.escape :: tail) behind source used) =
      ((gathered (ByteClass.escape :: tail) behind source used).escape? r).bind
        fun (result, a', r') =>
          match result with
          | .error e => some (.error e, r')
          | .ok _ => decodeJis? r' a' := by
  rw [decodeJis?_of_lead (lead?_gathered_cons ByteClass.escape tail behind source used), if_pos rfl]

/-- A byte that does not begin an escape sequence is read under the shift. -/
theorem decodeJis?_shifted {lead : UInt8} (hl : lead ≠ ByteClass.escape) (s : ConversionState)
    (tail behind source : List UInt8) (used : Nat) :
    decodeJis? s.record (gathered (lead :: tail) behind source used) =
      match s.shift with
      | .ascii =>
          if isAscii lead then some (.ok (lead.toUInt32, used), s.record)
          else some (.error .invalidSequence, s.record)
      | .jis0208 =>
          if isJisByte lead then
            (gathered (lead :: tail) behind source used).character? jis 2 (fun _ b => isJisByte b)
              s.record
          else some (.error .invalidSequence, s.record) := by
  rw [decodeJis?_of_lead (lead?_gathered_cons lead tail behind source used), if_neg hl,
    if_neg fun h => absurd h.1 (Nat.succ_ne_zero tail.length), s.shiftOf_record]
  rfl

/-- What the encoding with escape sequences leaves pending. -/
theorem pending_of_resumable_jis {s : ConversionState} (h : jis.Resumable s) :
    s.pending = [] ∨ s.pending = [ByteClass.escape] ∨
      (∃ second, escapeContinues 1 second = true ∧ s.pending = [ByteClass.escape, second]) ∨
      ∃ lead, isJisByte lead = true ∧ s.pending = [lead] ∧ s.shift = .jis0208 := by
  cases h with
  | idle => exact Or.inl rfl
  | @character bytes hp =>
    match bytes, hp with
    | lead :: rest, hp =>
      obtain ⟨⟨n, hn, _⟩, _⟩ := isPartial_cons.mp hp
      cases hn
  | escape => exact Or.inr (Or.inl rfl)
  | @escapeSecond _ second _ hs =>
    refine Or.inr (Or.inr (Or.inl ⟨second, ?_, rfl⟩))
    rcases hs with rfl | rfl <;> rfl
  | @pair lead _ hl => exact Or.inr (Or.inr (Or.inr ⟨lead, hl, rfl, rfl⟩))

/-- The third byte of an escape sequence is a letter or an at sign. -/
theorem escapeContinues_of_escapeTarget? {second third : UInt8} {shift : Shift}
    (h : escapeTarget? second third = some shift) : escapeContinues 2 third = true := by
  unfold escapeTarget? at h
  split at h
  · rename_i ht
    rcases ht.2 with rfl | rfl <;> rfl
  split at h
  · rename_i ht
    rcases ht.2 with rfl | rfl <;> rfl
  · cases h

/-- With bytes of a character gathered, and what stands in the buffer behind them, decoding on a
record reports what `scan` gives. The record may still hold what was pending before. -/
def ScansAlike (before s : ConversionState) (bytes behind source : List UInt8) (used : Nat) :
    Prop :=
  (decodeJis? s.record (gathered bytes behind source used)).map (settle before.record) =
    some ((jis.scan (s.holding bytes) used source).report before)

section Forms

/-! The forms in which a character may be pending, each at the next byte of the source. What is
left to show is told for the form that the byte leads to. -/

variable {before s : ConversionState} {old b second lead : UInt8} {rest : List UInt8}

/-- At the end of the source. -/
theorem scansAlike_nil {bytes : List UInt8} (h : jis.Resumable (s.holding bytes))
    (hs : bytes = [] → s.pending = []) : ScansAlike before s bytes behind [] used := by
  rw [ScansAlike]
  rcases pending_of_resumable_jis h with hp | hp | ⟨second, _, hp⟩ | ⟨lead, hl, hp, hshift⟩ <;>
    rw [ConversionState.holding_pending] at hp <;> subst hp
  · have hholding : s.holding [] = s := by rw [← hs rfl]; rfl
    rw [decodeJis?_nil, hholding]
    rfl
  · rw [decodeJis?_escape, escape?_nil (by simp)]
    rfl
  · rw [decodeJis?_escape, escape?_nil (by simp)]
    rfl
  · rw [ConversionState.holding_shift] at hshift
    rw [decodeJis?_shifted (isJisByte_ne_escape hl), hshift]
    simp only [hl, ite_true]
    rw [character?_nil (by simp) (by simp [capacity])]
    rfl

/-- Between characters in the initial shift: an ASCII character, if the byte is no escape. -/
theorem scansAlike_ascii (hp : s.pending = []) (hshift : s.shift = .ascii)
    (hesc : b ≠ ByteClass.escape) (hzero : b ≠ 0) :
    ScansAlike before s [] (old :: behind) (b :: rest) used := by
  have hholding : s.holding [] = s := by rw [← hp]; rfl
  have hfilled : ¬((gathered [] (old :: behind) (b :: rest) used).filled = 0 ∧ b = 0) :=
    fun h => hzero h.2
  rw [ScansAlike, hholding, scan, decodeJis?_of_lead (lead?_gathered_nil old b behind rest used),
    if_neg hesc, if_neg hfilled, s.shiftOf_record, hshift]
  simp only [feed, feedJis, hp, hesc, hzero, hshift, ite_false]
  cases hascii : isAscii b with
  | false => rfl
  | true =>
    simp only [ite_true, reportedCount, toUInt32_ne_zero hzero, ite_false]
    rfl

/-- Between characters in the other shift: the first byte of a pair, if the byte is no escape. -/
theorem scansAlike_lead (hp : s.pending = []) (hshift : s.shift = .jis0208)
    (hesc : b ≠ ByteClass.escape) (hzero : b ≠ 0)
    (next : jis.Resumable (s.holding [b]) → ScansAlike before s [b] behind rest (used + 1)) :
    ScansAlike before s [] (old :: behind) (b :: rest) used := by
  have hholding : s.holding [] = s := by rw [← hp]; rfl
  have hfilled : ¬((gathered [] (old :: behind) (b :: rest) used).filled = 0 ∧ b = 0) :=
    fun h => hzero h.2
  rw [ScansAlike, hholding, scan, decodeJis?_of_lead (lead?_gathered_nil old b behind rest used),
    if_neg hesc, if_neg hfilled, s.shiftOf_record, hshift]
  simp only [feed, feedJis, hp, hesc, hzero, hshift, ite_false]
  cases hjis : isJisByte b with
  | false => rfl
  | true =>
    have hpair : jis.Resumable (s.holding [b]) := by
      rw [ConversionState.holding, hshift]
      exact .pair rfl hjis
    have hnext := next hpair
    rw [ScansAlike, decodeJis?_shifted hesc, hshift] at hnext
    simp only [hjis, ite_true] at hnext ⊢
    exact hnext

/-- Between characters. -/
theorem scansAlike_idle (hp : s.pending = [])
    (next : jis.Resumable (s.holding [b]) → ScansAlike before s [b] behind rest (used + 1)) :
    ScansAlike before s [] (old :: behind) (b :: rest) used := by
  have hholding : s.holding [] = s := by rw [← hp]; rfl
  by_cases hesc : b = ByteClass.escape
  · subst hesc
    rw [ScansAlike, hholding, scan,
      decodeJis?_of_lead (lead?_gathered_nil old ByteClass.escape behind rest used), if_pos rfl,
      ← decodeJis?_escape]
    simp only [feed, feedJis, hp, ite_true]
    exact next (.escape rfl)
  by_cases hzero : b = 0
  · subst hzero
    rw [ScansAlike, hholding, scan, decodeJis?_of_lead (lead?_gathered_nil old 0 behind rest used),
      if_neg hesc, if_pos ⟨rfl, rfl⟩]
    simp only [feed, feedJis, hp, hesc, ite_false, ite_true]
    rfl
  cases hshift : s.shift with
  | ascii => exact scansAlike_ascii hp hshift hesc hzero
  | jis0208 => exact scansAlike_lead hp hshift hesc hzero next

/-- After the first byte of an escape sequence. -/
theorem scansAlike_escape
    (next : jis.Resumable (s.holding [ByteClass.escape, b]) →
      ScansAlike before s [ByteClass.escape, b] behind rest (used + 1)) :
    ScansAlike before s [ByteClass.escape] (old :: behind) (b :: rest) used := by
  rw [ScansAlike, decodeJis?_escape, escape?_cons (by simp), scan]
  by_cases hb : b = 0x24 ∨ b = 0x28
  · have hc : escapeContinues [ByteClass.escape].length b = true := by
      rcases hb with rfl | rfl <;> rfl
    rw [if_pos hc, List.singleton_append, ← decodeJis?_escape]
    simp only [feed, feedJis, ConversionState.holding_pending, hb, ite_true]
    exact next (.escapeSecond rfl hb)
  · have hc : escapeContinues [ByteClass.escape].length b = false := by
      simpa [escapeContinues] using hb
    simp only [hc, feed, feedJis, ConversionState.holding_pending, hb, ite_false, ite_true]
    rfl

/-- After the second byte of an escape sequence; its third one changes the record. -/
theorem scansAlike_escapeSecond
    (next : ∀ shift, ScansAlike before (.shiftedTo shift) []
      (ByteClass.escape :: second :: b :: behind) rest (used + 1)) :
    ScansAlike before s [ByteClass.escape, second] (old :: behind) (b :: rest) used := by
  rw [ScansAlike, decodeJis?_escape, escape?_cons (by simp), scan]
  simp only [feed, feedJis, ConversionState.holding_pending, ite_true]
  cases ht : escapeTarget? second b with
  | none =>
    split
    · rw [List.cons_append, List.singleton_append, escape?_whole, ht]
      rfl
    · rfl
  | some shift =>
    have hc : escapeContinues [ByteClass.escape, second].length b = true :=
      escapeContinues_of_escapeTarget? ht
    rw [if_pos hc, List.cons_append, List.singleton_append, escape?_whole, ht]
    exact next shift

/-- After the first byte of a pair. -/
theorem scansAlike_pair (hl : isJisByte lead = true) (hshift : s.shift = .jis0208) :
    ScansAlike before s [lead] (old :: behind) (b :: rest) used := by
  have hesc := isJisByte_ne_escape hl
  rw [ScansAlike, decodeJis?_shifted hesc, hshift, scan]
  simp only [hl, ite_true, feed, feedJis, ConversionState.holding_pending,
    ConversionState.holding_shift, hshift, hesc, ite_false, true_and]
  rw [character?_cons (by simp)]
  cases hjis : isJisByte b with
  | false => rfl
  | true =>
    have hv : pairValue lead b ≠ 0 := pairValue_ne_zero (isJisByte_ne_zero hjis)
    rw [if_pos rfl, character?_of_le (by simp)]
    simp only [ite_true, reportedCount, hv, ite_false]
    rfl

end Forms

/-- Decoding from where the encoding has stopped. After the first byte of an escape sequence
the record still holds what was pending before it. -/
theorem decodeJis?_scan {s : ConversionState} (before : ConversionState) {bytes : List UInt8}
    (h : jis.Resumable (s.holding bytes)) (hs : bytes = [] → s.pending = [])
    (hb : bytes.length + behind.length = capacity) :
    ScansAlike before s bytes behind source used := by
  induction source generalizing s bytes behind used with
  | nil => exact scansAlike_nil h hs
  | cons b rest ih =>
    have hcons : ∀ {c : UInt8} {front : List UInt8}, c :: front = [] → s.pending = [] :=
      fun h => absurd h (List.cons_ne_nil _ _)
    rw [capacity] at hb
    rcases pending_of_resumable_jis h with hp | hp | ⟨second, _, hp⟩ | ⟨lead, hl, hp, hshift⟩ <;>
      rw [ConversionState.holding_pending] at hp <;> subst hp <;>
      obtain ⟨old, behind, rfl⟩ := List.exists_cons_of_length_pos (l := behind)
        (by simp only [List.length_cons, List.length_nil] at hb; omega) <;>
      simp only [List.length_cons, List.length_nil] at hb
    · exact scansAlike_idle (hs rfl) fun hnext =>
        ih hnext hcons (by rw [List.length_singleton, capacity]; omega)
    · exact scansAlike_escape fun hnext =>
        ih hnext hcons (by simp only [List.length_cons, List.length_nil, capacity]; omega)
    · refine scansAlike_escapeSecond fun shift => ih (s := .shiftedTo shift) ?_ (fun _ => rfl) ?_
      · exact .idle fun h => absurd h (by decide)
      · simp only [List.length_cons, List.length_nil, capacity]
        omega
    · exact scansAlike_pair hl hshift

/-- What any encoding leaves pending, as the encoding with escape sequences takes it: it goes on
with it, or refuses its first byte, or has that byte for a character under another shift. -/
theorem pending_of_inherited {s : ConversionState} (h : s.Inherited) :
    jis.Resumable s ∨ ∃ lead tail, s.pending = lead :: tail ∧ lead ≠ ByteClass.escape ∧
      (isAscii lead = false ∨ tail = [] ∧ s.shift = .ascii ∧ isAscii lead = true) := by
  obtain ⟨enc, shift, h⟩ := h
  obtain ⟨pending, own⟩ := s
  cases h with
  | idle => exact Or.inl (.idle nofun)
  | character hp =>
    match pending, hp with
    | lead :: tail, hp =>
      have hascii : isAscii lead = false := by
        obtain ⟨⟨n, hn, hlt⟩, _⟩ := isPartial_cons.mp hp
        cases ha : isAscii lead with
        | false => rfl
        | true => cases enc <;> simp [sequenceLength?, ha] at hn <;> omega
      refine Or.inr ⟨lead, tail, rfl, ?_, Or.inl hascii⟩
      rintro rfl
      cases hascii
  | escape => exact Or.inl (.escape rfl)
  | escapeSecond _ hs => exact Or.inl (.escapeSecond rfl hs)
  | @pair lead _ hl =>
    cases own with
    | jis0208 => exact Or.inl (.pair rfl hl)
    | ascii =>
      have hascii : isAscii lead = true := by
        rw [isJisByte_iff] at hl
        rw [isAscii, decide_eq_true_eq, UInt8.lt_iff_toNat_lt]
        exact Nat.lt_of_le_of_lt hl.2 (by decide)
      exact Or.inr ⟨lead, [], rfl, isJisByte_ne_escape hl, Or.inr ⟨rfl, rfl, hascii⟩⟩

theorem decodeJis?_record {s : ConversionState} (h : s.Inherited) (b : UInt8)
    (rest : List UInt8) :
    ((resume? s.record (b :: rest)).bind (decodeJis? s.record)).map (settle s.record) =
      some ((jis.decode s (b :: rest)).report s) := by
  have hlen := length_pending_of_inherited h
  rw [resume?_record hlen, Option.bind_some]
  rcases pending_of_inherited h with hj | ⟨lead, tail, hp, hesc, hascii | ⟨rfl, hshift, hascii⟩⟩
  · have hcapacity : s.pending.length +
        (List.replicate (capacity - s.pending.length) (0 : UInt8)).length = capacity := by
      rw [List.length_replicate, capacity]
      omega
    rw [hj.decode_eq_scan (List.cons_ne_nil b rest)]
    exact decodeJis?_scan s hj id hcapacity
  · have hjis : isJisByte lead = false := by
      cases hl : isJisByte lead with
      | false => rfl
      | true =>
        rw [isJisByte_iff] at hl
        rw [isAscii, decide_eq_false_iff_not, UInt8.lt_iff_toNat_lt] at hascii
        exact absurd (Nat.lt_of_le_of_lt hl.2 (by decide)) hascii
    have hheld : jis.held? s = none := by simp [held?, hp, hascii]
    have hfeed : jis.feed s b = .refused := by
      rcases tail with _ | ⟨second, _ | ⟨third, tail⟩⟩
      · simp [feed, feedJis, hp, hesc, hjis]
      · simp [feed, feedJis, hp, hesc]
      · simp [feed, feedJis, hp]
    rw [hp, decodeJis?_shifted hesc]
    simp only [hascii, hjis, decode, hheld, scan, hfeed, Bool.false_eq_true, ite_false]
    cases s.shift <;> rfl
  · have hheld : jis.held? s = some (lead.toUInt32, s) := by
      simp [held?, hp, hesc, hshift, hascii]
    rw [hp, decodeJis?_shifted hesc, hshift]
    simp only [hascii, decode, hheld, ite_true]
    rfl

end Jis

/-- Decoding a character accesses nothing out of range, and reports what it decodes. -/
theorem decodeChar?_record {s : ConversionState} (h : s.Inherited) (enc : Encoding) (b : UInt8)
    (rest : List UInt8) :
    enc.decodeChar? (b :: rest) s.record = some ((enc.decode s (b :: rest)).report s) := by
  have hsingle : enc.isSingleByte = true → (enc.decodeSingle? (b :: rest) s.record).map
      (settle s.record) = some ((enc.decode s (b :: rest)).report s) := by
    intro hone
    have hfeed : enc.feed s b = enc.feedSingle s b := by
      cases enc with
      | ascii | latin1 => rfl
      | _ => cases hone
    simp only [decodeSingle?, decode, held?_of_isSingleByte hone, scan, hfeed, feedSingle,
      List.getElem?_cons_zero, Option.map_some]
    split <;> rfl
  have hsequence : enc.isStateful = false → enc.isSingleByte = false →
      (enc.decodeSequence? (b :: rest) s.record).map (settle s.record) =
        some ((enc.decode s (b :: rest)).report s) := by
    intro he hone
    rw [decodeSequence?_record he hone h, Option.map_some, settle_report]
  cases enc with
  | ascii | latin1 => exact hsingle rfl
  | jis => exact decodeJis?_record h b rest
  | _ => exact hsequence rfl rfl

/-- Reads one character. -/
def decodeOne? (enc : Encoding) (source : Option (List UInt8)) (r : StateRecord) :
    Option (Except Failure Nat × Option UInt32 × StateRecord) :=
  match source with
  | none => some (.ok (if enc.isStateful then 1 else 0), none, .zeroed)
  | some [] => some (.error .incompleteSequence, none, r)
  | some source => (enc.decodeChar? source r).map fun (result, r') =>
      match result with
      | .ok (wc, count) => (.ok count, some wc, r')
      | .error e => (.error e, none, r')

end Encoding

/-- What is reported of a character that was read. -/
def CharacterRead.report (read : CharacterRead) :
    Except Failure Nat × Option UInt32 × StateRecord :=
  (read.result, read.character, read.state.record)

/-- Reading a character accesses nothing out of range, and reports what it reads. -/
theorem Encoding.decodeOne?_record {s : ConversionState} (h : s.Inherited) (enc : Encoding)
    (source : Option (List UInt8)) :
    enc.decodeOne? source s.record = some (enc.decodeOne source s).report := by
  match source with
  | none | some [] => rfl
  | some (b :: rest) =>
    simp only [decodeOne?, decodeChar?_record h, decodeOne, Option.map_some]
    cases enc.decode s (b :: rest) <;> rfl

end FormattedText
