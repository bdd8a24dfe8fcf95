import FormattedText.Proofs.Sink.Agreement
import FormattedText.Proofs.Sink.Erasure

/-!
# Dropped bytes and full buffers

A fixed buffer drops bytes without a failure, and does not count them. An account beside the
buffer does (`FixedBuffer.Watched`): it takes down the bytes of each chunk that the buffer is
given, and those for which it has no room. The account changes nothing (`Watched.forgets`), and
after any steps what was dropped is what was given from the capacity for content on
(`Watched.accounts_faithful`).

That a buffer is full says that there is no room for another byte, not that a byte was dropped.
The two differ when the content has come to an end just where the room has, and only then
(`SinkStep.isFull_sinkAfter`).
-/

namespace FormattedText

namespace FixedBuffer

variable {capacity : Nat} {b : FixedBuffer} {bytes : List UInt8}

/-- What is left of a chunk behind the bytes that are kept. -/
def lost (b : FixedBuffer) (chunk : List UInt8) : List UInt8 := chunk.drop (b.kept chunk).length

/-- Of what comes behind the bytes, all is lost but what still fits. -/
theorem Shows.lost_eq (h : b.Shows capacity bytes) (chunk : List UInt8) :
    b.lost chunk = chunk.drop (capacity - 1 - bytes.length) := by
  have hroom : b.capacity - 1 - b.length = capacity - 1 - bytes.length := by
    rw [h.1, h.length_eq]
    omega
  have hkept : b.kept chunk = chunk.take (capacity - 1 - bytes.length) := by rw [kept, hroom]
  calc b.lost chunk
    _ = (b.kept chunk ++ chunk.drop (capacity - 1 - bytes.length)).drop (b.kept chunk).length := by
      rw [hkept, List.take_append_drop, lost, hkept]
    _ = chunk.drop (capacity - 1 - bytes.length) := List.drop_left

/-- A buffer is full if its content has reached the place of the zero byte. -/
theorem isFull_iff (b : FixedBuffer) : b.isFull = true ↔ b.capacity - 1 ≤ b.length := by
  rw [isFull, decide_eq_true_iff]
  omega

theorem Shows.isFull_iff (h : b.Shows capacity bytes) :
    b.isFull = true ↔ capacity - 1 ≤ bytes.length := by
  rw [FixedBuffer.isFull_iff, h.1, h.length_eq]
  omega

/-- A buffer is full if nothing that comes will be kept. -/
theorem isFull_iff_kept (b : FixedBuffer) : b.isFull = true ↔ ∀ chunk, b.kept chunk = [] := by
  rw [isFull_iff, ← Nat.sub_eq_zero_iff_le]
  refine ⟨fun hroom chunk => ?_, fun hkept => ?_⟩
  · rw [kept, hroom, List.take_zero]
  · -- A chunk of one byte finds out.
    have hbyte := congrArg List.length (hkept [0])
    rw [kept, List.length_take, List.length_singleton, List.length_nil] at hbyte
    omega

/-- A fixed buffer and an account of what it was given. -/
structure Watched where
  /-- The buffer. -/
  buffer : FixedBuffer
  /-- The bytes of all chunks. -/
  given : List UInt8
  /-- The bytes among them that were dropped. -/
  dropped : List UInt8
  deriving DecidableEq, Repr

namespace Watched

/-- A buffer without content that was given nothing. -/
def ofStorage (storage : List UInt8) : Watched := ⟨.ofStorage storage, [], []⟩

/-- Takes down a chunk, and what of it is lost. -/
def append (w : Watched) (chunk : List UInt8) : Watched :=
  ⟨w.buffer.append chunk, w.given ++ chunk, w.dropped ++ w.buffer.lost chunk⟩

instance : Sink Watched where
  write w chunk := ⟨w.append chunk, none⟩
  finish w := ⟨{ w with buffer := w.buffer.terminate }, none⟩

/-- The buffer does not depend on the account. -/
theorem forgets : Sink.Forgets buffer where
  write _ _ := rfl
  finish _ := rfl

/-- The buffer was given the bytes, shows those that fit and has dropped the others. -/
structure Accounts (capacity : Nat) (w : Watched) (bytes : List UInt8) : Prop where
  /-- The first bytes are kept. -/
  shows : w.buffer.Shows capacity bytes
  /-- All bytes are taken down. -/
  given : w.given = bytes
  /-- The bytes that do not fit are dropped. -/
  dropped : w.dropped = bytes.drop (capacity - 1)

theorem accounts_ofStorage (storage : List UInt8) :
    (ofStorage storage).Accounts storage.length [] :=
  ⟨⟨rfl, List.take_nil.symm⟩, rfl, List.drop_nil.symm⟩

/-- The account is right after each operation. -/
theorem accounts_faithful (capacity : Nat) :
    Sink.Faithful (Accounts capacity) (Accounts capacity) where
  write := by
    rintro w bytes ⟨hshows, hgiven, hdropped⟩ chunk
    refine ⟨rfl, ((faithful capacity).write hshows chunk).2, congrArg (· ++ chunk) hgiven, ?_⟩
    calc w.dropped ++ w.buffer.lost chunk
      _ = bytes.drop (capacity - 1) ++ chunk.drop (capacity - 1 - bytes.length) := by
        rw [hdropped, hshows.lost_eq]
      _ = (bytes ++ chunk).drop (capacity - 1) := List.drop_append.symm
  finish := by
    rintro w bytes ⟨hshows, hgiven, hdropped⟩
    exact ⟨rfl, ((faithful capacity).finish hshows).2, hgiven, hdropped⟩
  view_of_finished := id

end Watched

end FixedBuffer

namespace SinkStep

/-- What a full buffer tells of dropped bytes. After any steps a buffer has stored the beginning of
what it was given and has dropped the rest, so it has dropped bytes if it was given more than it
has room for beside the zero byte. It is full as soon as it was given as much as that, and then
keeps nothing that comes. So a buffer that has dropped bytes is full, and a full buffer has
dropped bytes unless it was given just what it has room for. -/
theorem isFull_sinkAfter (storage : List UInt8) (steps : List SinkStep) :
    let buffer := sinkAfter (FixedBuffer.ofStorage storage) steps
    let watched := sinkAfter (FixedBuffer.Watched.ofStorage storage) steps
    let room := storage.length - 1
    watched.buffer = buffer ∧ watched.given = steps.flatMap bytes ∧
      watched.given = buffer.stored ++ watched.dropped ∧
      (watched.dropped ≠ [] ↔ room < watched.given.length) ∧
      (buffer.isFull = true ↔ room ≤ watched.given.length) ∧
      (buffer.isFull = true ↔ ∀ chunk, buffer.kept chunk = []) ∧
      ((buffer.isFull = true ↔ watched.dropped ≠ []) ↔ watched.given.length ≠ room) := by
  intro buffer watched room
  have hbuffer : watched.buffer = buffer :=
    (FixedBuffer.Watched.forgets.sinkAfter (.ofStorage storage) steps).symm
  have haccounts : watched.Accounts storage.length ([] ++ steps.flatMap bytes) :=
    sinkAfter_faithful (FixedBuffer.Watched.accounts_faithful storage.length) steps
      (FixedBuffer.Watched.accounts_ofStorage storage)
  obtain ⟨hshows, hgiven, hdropped⟩ := haccounts
  rw [← hgiven] at hshows hdropped
  rw [hbuffer] at hshows
  have hloss : watched.dropped ≠ [] ↔ room < watched.given.length := by
    rw [hdropped, ne_eq, List.drop_eq_nil_iff, Nat.not_le]
  have hfull : buffer.isFull = true ↔ room ≤ watched.given.length := hshows.isFull_iff
  refine ⟨hbuffer, hgiven, ?_, hloss, hfull, buffer.isFull_iff_kept, ?_⟩
  · rw [hshows.2, hdropped, List.take_append_drop]
  · rw [hloss, hfull]
    omega

/-- Three bytes that fill a buffer of four: it is full, and nothing was dropped. -/
theorem isFull_without_loss :
    let steps : List SinkStep := [.write [97, 98, 99], .finish]
    let buffer := sinkAfter (FixedBuffer.ofStorage [170, 170, 170, 170]) steps
    let watched := sinkAfter (FixedBuffer.Watched.ofStorage [170, 170, 170, 170]) steps
    buffer.storage = [97, 98, 99, 0] ∧ watched.dropped = [] ∧
      ¬ (buffer.isFull = true ↔ watched.dropped ≠ []) ∧
      ¬ (buffer.isFull = true ↔ 4 - 1 < watched.given.length) := by
  decide

end SinkStep

end FormattedText
