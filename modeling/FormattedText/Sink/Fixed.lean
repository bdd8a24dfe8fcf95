import FormattedText.Sink.Basic

/-!
# Fixed buffers

A buffer of a given capacity. It keeps the first bytes that it is given, all but
one of its capacity, and drops the others; finishing writes a zero byte behind
them. A buffer without capacity is never written. `stored_append` says what is
kept, and the capacity never changes.
-/

namespace FormattedText

/-- A buffer of fixed capacity. -/
structure FixedBuffer where
  /-- All bytes of the buffer. -/
  storage : List UInt8
  /-- The number of content bytes at its start. -/
  length : Nat
  /-- There is room for a zero byte behind the content. -/
  length_le : length ≤ storage.length - 1
  deriving DecidableEq, Repr

namespace FixedBuffer

/-- A buffer without content over the given bytes. -/
def ofStorage (storage : List UInt8) : FixedBuffer := ⟨storage, 0, Nat.zero_le _⟩

/-- The number of bytes of the buffer. -/
def capacity (b : FixedBuffer) : Nat := b.storage.length

/-- The content. -/
def stored (b : FixedBuffer) : List UInt8 := b.storage.take b.length

/-- Is there no room for another byte? -/
def isFull (b : FixedBuffer) : Bool := decide (b.capacity ≤ b.length + 1)

/-- The bytes of a chunk that there is room for. -/
def kept (b : FixedBuffer) (bytes : List UInt8) : List UInt8 :=
  bytes.take (b.capacity - 1 - b.length)

/-- Appends as many bytes as there is room for. -/
def append (b : FixedBuffer) (bytes : List UInt8) : FixedBuffer where
  storage := b.storage.take b.length ++ b.kept bytes ++
    b.storage.drop (b.length + (b.kept bytes).length)
  length := b.length + (b.kept bytes).length
  length_le := by
    have h := b.length_le
    simp only [kept, capacity, List.length_append, List.length_take, List.length_drop]
    omega

/-- Writes the zero byte behind the content. -/
def terminate (b : FixedBuffer) : FixedBuffer where
  storage := b.storage.set b.length 0
  length := b.length
  length_le := by simpa only [List.length_set] using b.length_le

instance : Sink FixedBuffer where
  write b bytes := ⟨b.append bytes, none⟩
  finish b := ⟨b.terminate, none⟩

theorem length_stored (b : FixedBuffer) : b.stored.length = b.length := by
  have h := b.length_le
  simp only [stored, List.length_take]
  omega

@[simp] theorem stored_ofStorage (storage : List UInt8) : (ofStorage storage).stored = [] := rfl

@[simp] theorem capacity_ofStorage (storage : List UInt8) :
    (ofStorage storage).capacity = storage.length := rfl

@[simp] theorem capacity_append (b : FixedBuffer) (bytes : List UInt8) :
    (b.append bytes).capacity = b.capacity := by
  have h := b.length_le
  simp only [capacity, append, kept, List.length_append, List.length_take, List.length_drop]
  omega

@[simp] theorem capacity_terminate (b : FixedBuffer) : b.terminate.capacity = b.capacity := by
  simp only [capacity, terminate, List.length_set]

/-- What is dropped of a chunk is what does not fit behind the content. -/
theorem stored_append (b : FixedBuffer) (bytes : List UInt8) :
    (b.append bytes).stored = (b.stored ++ bytes).take (b.capacity - 1) := by
  have h := b.length_stored
  have hl : b.length ≤ b.capacity - 1 := b.length_le
  have hs : (b.stored ++ b.kept bytes).length = b.length + (b.kept bytes).length := by
    simp only [List.length_append, h]
  calc (b.append bytes).stored
      = (b.stored ++ b.kept bytes).take (b.length + (b.kept bytes).length) := by
        simp only [stored, append]
        exact List.take_append_of_le_length (Nat.le_of_eq hs.symm)
    _ = b.stored ++ b.kept bytes := by rw [← hs, List.take_length]
    _ = (b.stored ++ bytes).take (b.capacity - 1) := by
        rw [List.take_append, h, List.take_of_length_le (by omega), kept]

/-- The zero byte stands behind the content. -/
@[simp] theorem stored_terminate (b : FixedBuffer) : b.terminate.stored = b.stored := by
  simp only [stored, terminate]
  rw [List.take_set_of_le (Nat.le_refl _)]

end FixedBuffer

end FormattedText
