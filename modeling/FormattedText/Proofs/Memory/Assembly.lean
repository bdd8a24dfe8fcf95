import FormattedText.Multibyte.Character
import FormattedText.Proofs.Memory.Record

/-!
# Gathering the bytes of a character

A decoder gathers the bytes of a character in a buffer of four bytes (`Assembler`): first those
that are pending in a record, then bytes of the source, until the buffer holds as many as the
character needs. The lemmas about `Assembler.gathered` say what each step does to an assembler
that has gathered some bytes, where these leave room for the next one.
-/

namespace FormattedText

open ByteClass Slice

/-- The bytes of one character, as they are gathered. -/
structure Assembler where
  /-- Room for a character. -/
  buffer : List UInt8
  /-- The number of bytes gathered. -/
  filled : Nat
  /-- The bytes of the source that have not been taken. -/
  source : List UInt8
  /-- The number of bytes taken from the source. -/
  used : Nat

/-- What a decoder reports, a character with the number of bytes that it took or a failure, and
the record that it leaves. -/
abbrev DecodeReport := Except Failure (UInt32 × Nat) × StateRecord

namespace Assembler

/-- The number of bytes that a character may take in the buffer. -/
def capacity : Nat := 4

/-- An assembler with the pending bytes of a record. -/
def resume? (r : StateRecord) (source : List UInt8) : Option Assembler := do
  let pending ← r.held?
  let buffer ← overwrite? (List.replicate capacity 0) 0 pending
  some ⟨buffer, pending.length, source, 0⟩

/-- The first byte of the character, taken from the source where nothing is pending. -/
def lead? (a : Assembler) : Option (Option UInt8 × Assembler) :=
  if 0 < a.filled then a.buffer[0]?.map fun lead => (some lead, a)
  else match a.source with
    | [] => some (none, a)
    | b :: rest =>
        (store? a.buffer 0 b).map fun buffer => (some b, ⟨buffer, 1, rest, a.used + 1⟩)

/-- Takes bytes until the character has `need` of them, each of which must be valid at its
position. A source that ends before leaves the bytes gathered pending. -/
def complete? (need : Nat) (valid : Nat → UInt8 → Bool) (r : StateRecord) (a : Assembler) :
    Option (Except Failure (List UInt8) × Assembler × StateRecord) :=
  if a.filled < need then
    match a.source with
    | [] => do
        let bytes ← front? a.buffer a.filled
        let r' ← r.setPending? bytes
        some (.error .incompleteSequence, a, r')
    | b :: rest =>
        if valid a.filled b then do
          let buffer ← store? a.buffer a.filled b
          complete? need valid r ⟨buffer, a.filled + 1, rest, a.used + 1⟩
        else some (.error .invalidSequence, a, r)
  else some (.ok a.buffer, a, r.clearPending)
  termination_by need - a.filled

/-- Starts a new character behind an escape sequence. -/
def restart (a : Assembler) : Assembler := { a with filled := 0 }

/-- Completes a character of `need` bytes. -/
def character? (enc : Encoding) (need : Nat) (valid : Nat → UInt8 → Bool) (r : StateRecord)
    (a : Assembler) : Option DecodeReport := do
  let (result, a', r') ← a.complete? need valid r
  match result with
  | .error e => some (.error e, r')
  | .ok sequence =>
      let bytes ← front? sequence need
      some (.ok (enc.sequenceValue bytes, a'.used), r')

/-- May a byte stand at a position of an escape sequence? -/
def escapeContinues (position : Nat) (b : UInt8) : Bool :=
  if position = 1 then b == 0x24 || b == 0x28 else (0x41 ≤ b && b ≤ 0x5A) || b == 0x40

/-- Completes an escape sequence, and changes the shift. -/
def escape? (r : StateRecord) (a : Assembler) :
    Option (Except Failure Shift × Assembler × StateRecord) := do
  let (result, a', r') ← a.complete? 3 escapeContinues r
  match result with
  | .error e => some (.error e, a', r')
  | .ok sequence =>
      let second ← sequence[1]?
      let third ← sequence[2]?
      match Encoding.escapeTarget? second third with
      | none => some (.error .invalidSequence, a', r')
      | some shift => some (.ok shift, a'.restart, r'.setShift shift)

section Progress

/-! The source gets shorter as bytes are taken. -/

variable {a b : Assembler}

theorem length_source_lead? {lead : Option UInt8} (h : a.lead? = some (lead, b))
    (hl : lead.isSome = true) :
    b.source.length < a.source.length ∨ b.source.length = a.source.length ∧ 0 < a.filled := by
  unfold lead? at h
  split at h
  · rename_i hfilled
    obtain ⟨_, _, h⟩ := Option.map_eq_some_iff.mp h
    rw [← (Prod.mk.inj h).2]
    exact Or.inr ⟨rfl, hfilled⟩
  split at h
  · obtain ⟨rfl, _⟩ := Prod.mk.inj (Option.some.inj h)
    cases hl
  · rename_i hs
    obtain ⟨_, _, h⟩ := Option.map_eq_some_iff.mp h
    rw [← (Prod.mk.inj h).2, hs]
    exact Or.inl (Nat.lt_succ_self _)

theorem length_source_complete? {need : Nat} {valid : Nat → UInt8 → Bool}
    {r r' : StateRecord} {result : Except Failure (List UInt8)}
    (h : a.complete? need valid r = some (result, b, r')) :
    b.source.length ≤ a.source.length := by
  fun_induction complete? need valid r a with
  | case1 a hlt hs =>
    simp only [Option.bind_eq_bind, Option.bind_eq_some_iff, Option.some.injEq,
      Prod.mk.injEq] at h
    obtain ⟨_, _, _, _, _, rfl, _⟩ := h
    exact Nat.le_refl _
  | case2 a hlt c rest hs hv ih =>
    obtain ⟨buffer, _, h⟩ := Option.bind_eq_some_iff.mp h
    rw [hs]
    exact Nat.le_succ_of_le (ih buffer h)
  | case3 a hlt c rest hs hv =>
    obtain ⟨rfl, _⟩ := (Prod.mk.inj (Prod.mk.inj (Option.some.inj h)).2)
    exact Nat.le_refl _
  | case4 a hlt =>
    obtain ⟨rfl, _⟩ := (Prod.mk.inj (Prod.mk.inj (Option.some.inj h)).2)
    exact Nat.le_refl _

theorem source_escape? {r r' : StateRecord} {shift : Shift}
    (h : a.escape? r = some (.ok shift, b, r')) :
    b.source.length ≤ a.source.length ∧ b.filled = 0 := by
  obtain ⟨⟨result, c, q⟩, hc, h⟩ := Option.bind_eq_some_iff.mp h
  match result with
  | .error e => cases h
  | .ok sequence =>
    obtain ⟨second, _, h⟩ := Option.bind_eq_some_iff.mp h
    obtain ⟨third, _, h⟩ := Option.bind_eq_some_iff.mp h
    split at h
    · cases h
    · rw [← (Prod.mk.inj (Prod.mk.inj (Option.some.inj h)).2).1]
      have hle := length_source_complete? hc
      exact ⟨hle, rfl⟩

end Progress

/-- An assembler that has gathered `bytes`; what stands behind them in the buffer is of no
account. -/
def gathered (bytes behind source : List UInt8) (used : Nat) : Assembler :=
  ⟨bytes ++ behind, bytes.length, source, used⟩

section Gathered

variable {need used : Nat} {valid : Nat → UInt8 → Bool} {bytes behind source : List UInt8}

theorem resume?_record {s : ConversionState} (h : s.pending.length ≤ 3) (source : List UInt8) :
    resume? s.record source =
      some (gathered s.pending (List.replicate (capacity - s.pending.length) 0) source 0) := by
  have hle : s.pending.length ≤ (List.replicate capacity (0 : UInt8)).length :=
    Nat.le_succ_of_le h
  simp only [resume?, s.held?_record (Nat.le_succ_of_le h), overwrite?_zero hle,
    List.drop_replicate, Option.bind_eq_bind, Option.bind_some]
  rfl

theorem lead?_gathered_cons (lead : UInt8) (tail behind source : List UInt8) (used : Nat) :
    (gathered (lead :: tail) behind source used).lead? =
      some (some lead, gathered (lead :: tail) behind source used) := rfl

theorem lead?_gathered_nil (old b : UInt8) (behind rest : List UInt8) (used : Nat) :
    (gathered [] (old :: behind) (b :: rest) used).lead? =
      some (some b, gathered [b] behind rest (used + 1)) := by
  have hs := store?_append [] behind old b
  rw [List.nil_append, List.length_nil] at hs
  simp only [lead?, gathered, List.length_nil, Nat.lt_irrefl, ite_false, List.nil_append, hs,
    Option.map_some]
  rfl

theorem complete?_of_le (h : need ≤ bytes.length) (r : StateRecord) :
    (gathered bytes behind source used).complete? need valid r =
      some (.ok (bytes ++ behind), gathered bytes behind source used, r.clearPending) := by
  rw [complete?]
  exact if_neg (Nat.not_lt.mpr h)

theorem complete?_nil (h : bytes.length < need) (hb : bytes.length ≤ capacity)
    (s : ConversionState) :
    (gathered bytes behind [] used).complete? need valid s.record =
      some (.error .incompleteSequence, gathered bytes behind [] used,
        (s.holding bytes).record) := by
  rw [complete?]
  simp only [gathered, h, ite_true, front?_append, s.setPending?_record hb, Option.bind_eq_bind,
    Option.bind_some]

theorem complete?_cons (h : bytes.length < need) (old b : UInt8) (behind rest : List UInt8)
    (r : StateRecord) :
    (gathered bytes (old :: behind) (b :: rest) used).complete? need valid r =
      if valid bytes.length b then
        (gathered (bytes ++ [b]) behind rest (used + 1)).complete? need valid r
      else
        some (.error .invalidSequence, gathered bytes (old :: behind) (b :: rest) used, r) := by
  rw [complete?]
  simp only [gathered, h, ite_true, store?_append, Option.bind_eq_bind, Option.bind_some,
    List.length_append, List.length_singleton, List.append_assoc, List.singleton_append]

theorem character?_of_le (h : need ≤ bytes.length) (enc : Encoding) (r : StateRecord) :
    (gathered bytes behind source used).character? enc need valid r =
      some (.ok (enc.sequenceValue (bytes.take need), used), r.clearPending) := by
  simp only [character?, complete?_of_le h, front?_append_of_le h, Option.bind_eq_bind,
    Option.bind_some]
  rfl

theorem character?_nil (h : bytes.length < need) (hb : bytes.length ≤ capacity)
    (enc : Encoding) (s : ConversionState) :
    (gathered bytes behind [] used).character? enc need valid s.record =
      some (.error .incompleteSequence, (s.holding bytes).record) := by
  simp only [character?, complete?_nil h hb, Option.bind_eq_bind, Option.bind_some]

theorem character?_cons (h : bytes.length < need) (enc : Encoding) (old b : UInt8)
    (behind rest : List UInt8) (r : StateRecord) :
    (gathered bytes (old :: behind) (b :: rest) used).character? enc need valid r =
      if valid bytes.length b then
        (gathered (bytes ++ [b]) behind rest (used + 1)).character? enc need valid r
      else some (.error .invalidSequence, r) := by
  simp only [character?, complete?_cons h]
  split <;> rfl

theorem escape?_nil (h : bytes.length < 3) (s : ConversionState) :
    (gathered bytes behind [] used).escape? s.record =
      some (.error .incompleteSequence, gathered bytes behind [] used,
        (s.holding bytes).record) := by
  simp only [escape?, complete?_nil h (Nat.le_succ_of_le (Nat.le_of_lt h)), Option.bind_eq_bind,
    Option.bind_some]

theorem escape?_cons (h : bytes.length < 3) (old b : UInt8) (behind rest : List UInt8)
    (r : StateRecord) :
    (gathered bytes (old :: behind) (b :: rest) used).escape? r =
      if escapeContinues bytes.length b then
        (gathered (bytes ++ [b]) behind rest (used + 1)).escape? r
      else
        some (.error .invalidSequence, gathered bytes (old :: behind) (b :: rest) used, r) := by
  simp only [escape?, complete?_cons h]
  split <;> rfl

theorem escape?_whole (first second third : UInt8) (behind source : List UInt8) (used : Nat)
    (r : StateRecord) :
    (gathered [first, second, third] behind source used).escape? r =
      match Encoding.escapeTarget? second third with
      | none => some (.error .invalidSequence,
          gathered [first, second, third] behind source used, r.clearPending)
      | some shift => some (.ok shift,
          gathered [] (first :: second :: third :: behind) source used,
          r.clearPending.setShift shift) := by
  have hc : (gathered [first, second, third] behind source used).complete? 3 escapeContinues r =
      some (.ok (first :: second :: third :: behind),
        gathered [first, second, third] behind source used, r.clearPending) :=
    complete?_of_le (Nat.le_refl 3) r
  simp only [escape?, hc, Option.bind_eq_bind, Option.bind_some]
  rfl

end Gathered

end Assembler

end FormattedText
