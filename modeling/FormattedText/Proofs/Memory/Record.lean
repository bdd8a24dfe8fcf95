import FormattedText.Multibyte.State

/-!
# Conversion states in memory

Callers keep a conversion state as eight bytes (`StateRecord`), and the codecs work on these
bytes, on buffers of a fixed size, and on the caller's slices. Here every access to them is
checked: it answers `none` where an index is out of range (`Slice.front?`, `Slice.overwrite?`
and the like), and so does an operation that makes such an access. `ConversionState.record`
is the record of a state. The lemmas say that an operation on the record of a state that has
few enough bytes pending stays in range, and gives the record of the state that the operation
on states gives.
-/

namespace FormattedText

namespace Slice

variable {α : Type}

/-- The first `n` elements. -/
def front? (xs : List α) (n : Nat) : Option (List α) :=
  if n ≤ xs.length then some (xs.take n) else none

/-- The elements behind the first `n`. -/
def back? (xs : List α) (n : Nat) : Option (List α) :=
  if n ≤ xs.length then some (xs.drop n) else none

/-- The elements from `start` on replaced by `new`, as many as these are. -/
def overwrite? (xs : List α) (start : Nat) (new : List α) : Option (List α) :=
  if start + new.length ≤ xs.length then
    some (xs.take start ++ new ++ xs.drop (start + new.length))
  else none

/-- One element replaced. -/
def store? (xs : List α) (i : Nat) (a : α) : Option (List α) := overwrite? xs i [a]

theorem front?_append_of_le {n : Nat} {xs : List α} (h : n ≤ xs.length) (ys : List α) :
    front? (xs ++ ys) n = some (xs.take n) := by
  have hle : n ≤ (xs ++ ys).length := by
    rw [List.length_append]
    omega
  rw [front?, if_pos hle, List.take_append_of_le_length h]

@[simp] theorem front?_append (xs ys : List α) : front? (xs ++ ys) xs.length = some xs := by
  rw [front?_append_of_le (Nat.le_refl _), List.take_length]

@[simp] theorem back?_append (xs ys : List α) : back? (xs ++ ys) xs.length = some ys := by
  simp [back?]

@[simp] theorem back?_length (xs : List α) : back? xs xs.length = some [] := by
  simp [back?]

theorem overwrite?_append (front rest : List α) {old new : List α}
    (h : old.length = new.length) :
    overwrite? (front ++ (old ++ rest)) front.length new = some (front ++ (new ++ rest)) := by
  have hdrop : (front ++ (old ++ rest)).drop (front.length + new.length) = rest := by
    rw [← h, ← List.append_assoc, ← List.length_append, List.drop_left]
  have hle : front.length + new.length ≤ (front ++ (old ++ rest)).length := by
    simp only [List.length_append, h]
    omega
  rw [overwrite?, if_pos hle, hdrop, List.take_left, List.append_assoc]

theorem overwrite?_zero {xs new : List α} (h : new.length ≤ xs.length) :
    overwrite? xs 0 new = some (new ++ xs.drop new.length) := by
  simp [overwrite?, h]

@[simp] theorem store?_append (front rest : List α) (a b : α) :
    store? (front ++ a :: rest) front.length b = some (front ++ b :: rest) := by
  have h : [a].length = [b].length := rfl
  exact overwrite?_append front rest h

end Slice

open Slice

/-- A conversion state as callers keep it: eight bytes, of which the last two are not used. -/
structure StateRecord where
  /-- The number of bytes pending. -/
  count : UInt8
  /-- The number of the shift. -/
  shift : UInt8
  /-- Room for pending bytes. -/
  pending : List UInt8
  /-- The unused bytes. -/
  reserved : List UInt8
  deriving DecidableEq, Repr

namespace StateRecord

/-- The record that is all zero. -/
def zeroed : StateRecord := ⟨0, 0, List.replicate ConversionState.pendingCapacity 0, [0, 0]⟩

/-- The eight bytes of a record. -/
def bytes (r : StateRecord) : List UInt8 := r.count :: r.shift :: (r.pending ++ r.reserved)

/-- Is nothing pending and no shift in effect? Only the first two bytes tell. -/
def isInitial (r : StateRecord) : Bool := r.count == 0 && r.shift == 0

/-- The bytes that are pending. -/
def held? (r : StateRecord) : Option (List UInt8) := front? r.pending r.count.toNat

/-- The record with other bytes pending. -/
def setPending? (r : StateRecord) (bytes : List UInt8) : Option StateRecord :=
  (overwrite? (List.replicate ConversionState.pendingCapacity 0) 0 bytes).map fun pending =>
    { r with count := UInt8.ofNat bytes.length, pending := pending }

/-- The record with nothing pending. -/
def clearPending (r : StateRecord) : StateRecord :=
  { r with count := 0, pending := List.replicate ConversionState.pendingCapacity 0 }

/-- The shift of a record. -/
def shiftOf (r : StateRecord) : Shift := if r.shift = Shift.jis0208.code then .jis0208 else .ascii

/-- The record with another shift. -/
def setShift (r : StateRecord) (shift : Shift) : StateRecord := { r with shift := shift.code }

/-- The record of a state that a conversion may have left. -/
structure WellFormed (r : StateRecord) : Prop where
  /-- There is room for four pending bytes. -/
  length_pending : r.pending.length = ConversionState.pendingCapacity
  /-- Three bytes at most are pending. -/
  count_le : r.count.toNat ≤ 3
  /-- The room behind them is zero. -/
  padding : ∀ b ∈ r.pending.drop r.count.toNat, b = 0
  /-- The shift is one of two. -/
  shift_eq : r.shift = 0 ∨ r.shift = 1
  /-- The unused bytes are zero. -/
  reserved_eq : r.reserved = [0, 0]

/-- A well-formed record is that of the initial state exactly if it is all zero. -/
theorem WellFormed.isInitial_iff {r : StateRecord} (h : r.WellFormed) :
    r.isInitial = true ↔ r.bytes = List.replicate 8 0 := by
  constructor
  · intro hi
    obtain ⟨hcount, hshift⟩ := Bool.and_eq_true_iff.mp hi
    have hcount := eq_of_beq hcount
    have hshift := eq_of_beq hshift
    have hpending : r.pending = List.replicate 4 0 := by
      have hpadding := h.padding
      rw [hcount] at hpadding
      exact List.eq_replicate_iff.mpr ⟨h.length_pending, hpadding⟩
    rw [bytes, hcount, hshift, hpending, h.reserved_eq]
    rfl
  · intro hb
    obtain ⟨hcount, hb⟩ := List.cons.inj hb
    obtain ⟨hshift, -⟩ := List.cons.inj hb
    rw [isInitial, hcount, hshift]
    rfl

end StateRecord

namespace ConversionState

open StateRecord

/-- The record of a state. -/
def record (s : ConversionState) : StateRecord :=
  ⟨UInt8.ofNat s.pending.length, s.shift.code,
    s.pending ++ List.replicate (pendingCapacity - s.pending.length) 0, [0, 0]⟩

@[simp] theorem record_initial : initial.record = zeroed := rfl

/-- The bytes of a record are the image of the state. -/
theorem bytes_record (s : ConversionState) : s.record.bytes = s.image := rfl

section Record

variable (s : ConversionState)

private theorem toNat_count (h : s.pending.length ≤ pendingCapacity) :
    s.record.count.toNat = s.pending.length := by
  have hlt : s.pending.length < 256 := Nat.lt_of_le_of_lt h (by decide)
  rw [record, UInt8.toNat_ofNat', Nat.mod_eq_of_lt hlt]

theorem isInitial_record (h : s.pending.length ≤ pendingCapacity) :
    s.record.isInitial = s.isInitial := by
  have hcount : (s.record.count == 0) = s.pending.isEmpty := by
    rw [Bool.eq_iff_iff, beq_iff_eq, List.isEmpty_iff, ← List.length_eq_zero_iff,
      ← s.toNat_count h, ← UInt8.toNat_inj]
    rfl
  have hshift : (s.record.shift == 0) = (s.shift == .ascii) := by
    rw [record]
    cases s.shift <;> rfl
  rw [StateRecord.isInitial, hcount, hshift, ConversionState.isInitial]

theorem held?_record (h : s.pending.length ≤ pendingCapacity) :
    s.record.held? = some s.pending := by
  rw [held?, s.toNat_count h]
  exact front?_append s.pending _

theorem setPending?_record {bytes : List UInt8} (h : bytes.length ≤ pendingCapacity) :
    s.record.setPending? bytes = some (s.holding bytes).record := by
  have hle : bytes.length ≤ (List.replicate pendingCapacity (0 : UInt8)).length := by
    rwa [List.length_replicate]
  rw [setPending?, overwrite?_zero hle, List.drop_replicate]
  rfl

@[simp] theorem clearPending_record : s.record.clearPending = (s.holding []).record := rfl

@[simp] theorem shiftOf_record : s.record.shiftOf = s.shift := by
  obtain ⟨pending, shift⟩ := s
  cases shift <;> rfl

@[simp] theorem setShift_record (shift : Shift) :
    s.record.setShift shift = { s with shift := shift }.record := rfl

theorem wellFormed_record (h : s.pending.length ≤ 3) : s.record.WellFormed := by
  have hcap : s.pending.length ≤ pendingCapacity := Nat.le_succ_of_le h
  refine ⟨?_, ?_, ?_, ?_, rfl⟩
  · simp only [record, List.length_append, List.length_replicate]
    omega
  · rwa [s.toNat_count hcap]
  · rw [s.toNat_count hcap, record, List.drop_left]
    exact fun b hb => List.eq_of_mem_replicate hb
  · rw [record]
    cases s.shift
    · exact Or.inl rfl
    · exact Or.inr rfl

end Record

end ConversionState

end FormattedText
