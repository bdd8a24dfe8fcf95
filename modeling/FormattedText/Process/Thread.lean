import FormattedText.Errno
import FormattedText.Encoding
import FormattedText.Multibyte.State

/-!
# Threads

What belongs to one thread: its error number, an encoding of its own if it has
chosen one, and the implicit conversion states. Each function that may be called
without a state has an implicit one to itself, named by a `Slot`, so calls of
different functions never mix their states.
-/

namespace FormattedText

/-- The function that an implicit conversion state belongs to. -/
inductive Slot where
  | decode
  | encode
  | mbtowc
  | mblen
  | mbrlen
  | mbrtowc
  | wctomb
  | wcrtomb
  | mbsrtowcs
  | wcsrtombs
  deriving DecidableEq, Repr, Inhabited

/-- The state of a thread. -/
structure Thread where
  /-- The number of the last error. -/
  errno : Errno
  /-- The encoding that the thread uses instead of that of the process. -/
  override : Option Encoding
  /-- The implicit conversion states. -/
  implicit : Slot → ConversionState

namespace Thread

/-- A thread that has not done anything yet. -/
def fresh : Thread := ⟨.success, none, fun _ => .initial⟩

/-- The thread with one implicit state replaced. -/
def setImplicit (t : Thread) (slot : Slot) (s : ConversionState) : Thread :=
  { t with implicit := fun other => if other = slot then s else t.implicit other }

@[simp] theorem implicit_setImplicit_self (t : Thread) (slot : Slot) (s : ConversionState) :
    (t.setImplicit slot s).implicit slot = s := by simp [setImplicit]

theorem implicit_setImplicit_ne (t : Thread) {slot other : Slot} (s : ConversionState)
    (h : other ≠ slot) : (t.setImplicit slot s).implicit other = t.implicit other := by
  simp [setImplicit, h]

end Thread

end FormattedText
