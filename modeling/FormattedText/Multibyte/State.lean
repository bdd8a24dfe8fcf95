/-!
# Conversion states

What a conversion carries from one call to the next: the bytes of a character
that has only begun to arrive, and the shift that a stateful encoding is in.
`ConversionState.image` lays a state out in the eight bytes by which callers
with C conventions keep it; the initial state is the one whose image is all
zero.
-/

namespace FormattedText

/-- The character set that an encoding with escape sequences is shifted to. -/
inductive Shift where
  /-- Bytes are ASCII characters. -/
  | ascii
  /-- Bytes come in pairs, each a JIS X 0208 character. -/
  | jis0208
  deriving DecidableEq, Repr, Inhabited

/-- The number of a shift in the image of a state. -/
def Shift.code : Shift → UInt8
  | .ascii => 0
  | .jis0208 => 1

/-- Partial progress through multibyte text. -/
structure ConversionState where
  /-- The bytes of an unfinished character, or of an unfinished escape sequence. -/
  pending : List UInt8
  /-- The shift that the text is in. -/
  shift : Shift
  deriving DecidableEq, Repr, Inhabited

namespace ConversionState

/-- Between characters and not shifted, as at the start of a text. -/
def initial : ConversionState := ⟨[], .ascii⟩

/-- Is nothing pending and no shift in effect? -/
def isInitial (s : ConversionState) : Bool := s.pending.isEmpty && s.shift == .ascii

/-- The state with `bytes` pending instead. -/
def holding (s : ConversionState) (bytes : List UInt8) : ConversionState :=
  { s with pending := bytes }

/-- The state with another shift and nothing pending. -/
def shiftedTo (shift : Shift) : ConversionState := ⟨[], shift⟩

/-- The bytes that are kept for pending input in the image. -/
def pendingCapacity : Nat := 4

/-- The eight bytes of a state: the number of pending bytes, the shift, the
pending bytes filled up with zeros, and two reserved bytes that are zero. -/
def image (s : ConversionState) : List UInt8 :=
  UInt8.ofNat s.pending.length :: s.shift.code ::
    (s.pending ++ List.replicate (pendingCapacity - s.pending.length) 0 ++ [0, 0])

@[simp] theorem isInitial_initial : initial.isInitial = true := rfl

theorem isInitial_iff {s : ConversionState} : s.isInitial = true ↔ s = initial := by
  obtain ⟨pending, shift⟩ := s
  cases pending <;> cases shift <;> simp [isInitial, initial]

@[simp] theorem holding_pending (s : ConversionState) (bytes : List UInt8) :
    (s.holding bytes).pending = bytes := rfl

@[simp] theorem holding_shift (s : ConversionState) (bytes : List UInt8) :
    (s.holding bytes).shift = s.shift := rfl

end ConversionState

end FormattedText
