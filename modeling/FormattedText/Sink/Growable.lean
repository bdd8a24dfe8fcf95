import FormattedText.Sink.Basic

/-!
# Growing buffers

A buffer that keeps all it is given. Finishing puts a zero byte behind the
content, which belongs to the storage and not to the content, and goes away when
more is written.
-/

namespace FormattedText

/-- A buffer that grows. -/
structure GrowableBuffer where
  /-- The content. -/
  buffer : Array UInt8
  /-- Does a zero byte follow the content? -/
  terminated : Bool
  deriving DecidableEq, Repr

namespace GrowableBuffer

/-- The empty buffer. -/
def empty : GrowableBuffer := ⟨#[], false⟩

/-- The content, byte by byte. -/
def content (b : GrowableBuffer) : List UInt8 := b.buffer.toList

/-- The content and the zero byte behind it, if there is one. -/
def storage (b : GrowableBuffer) : List UInt8 := b.content ++ if b.terminated then [0] else []

/-- Appends bytes. -/
def append (b : GrowableBuffer) (bytes : List UInt8) : GrowableBuffer :=
  ⟨b.buffer.append bytes.toArray, false⟩

@[simp] theorem content_append (b : GrowableBuffer) (bytes : List UInt8) :
    (b.append bytes).content = b.content ++ bytes := by simp [append, content]

/-- An empty buffer with memory set aside for `capacity` bytes, where `reserves` tells
how many bytes can be set aside. -/
def withCapacity (reserves : Nat → Bool) (capacity : Nat) : Except Failure GrowableBuffer :=
  if reserves capacity then .ok empty else .error (.outputFailed .noMemory)

instance : Sink GrowableBuffer where
  write b bytes := ⟨b.append bytes, none⟩
  finish b := ⟨{ b with terminated := true }, none⟩

end GrowableBuffer

end FormattedText
