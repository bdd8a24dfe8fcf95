/-!
# Error numbers

An error number identifies why an operation failed. The names below are the
numbers this library publishes itself; a transport may report any other one,
and `Errno.message` has a general text for those.
-/

namespace FormattedText

/-- The number of an error condition; zero means that there was none. -/
structure Errno where
  /-- The numeric value. -/
  code : Int
  deriving DecidableEq, Repr, Inhabited

namespace Errno

/-- No error. -/
def success : Errno := ⟨0⟩

/-- A call was interrupted before it did anything and may be made again. -/
def interrupted : Errno := ⟨4⟩

/-- A device could not take or give data. -/
def inputOutput : Errno := ⟨5⟩

/-- A destination is too small for what must go into it whole. -/
def tooBig : Errno := ⟨7⟩

/-- A descriptor is not open. -/
def badDescriptor : Errno := ⟨9⟩

/-- Nothing can be done now, but may be later. -/
def tryAgain : Errno := ⟨11⟩

/-- There is not enough memory. -/
def noMemory : Errno := ⟨12⟩

/-- An argument has no meaning for the call. -/
def invalidArgument : Errno := ⟨22⟩

/-- A device is full. -/
def noSpace : Errno := ⟨28⟩

/-- Nobody reads the other end of a pipe. -/
def brokenPipe : Errno := ⟨32⟩

/-- A result does not fit its type. -/
def overflow : Errno := ⟨75⟩

/-- Bytes or a code point form no character. -/
def illegalSequence : Errno := ⟨84⟩

/-- The texts of the error numbers that have one of their own. -/
def texts : List (Errno × String) :=
  [(success, "Success"),
   (interrupted, "Interrupted system call"),
   (inputOutput, "Input/output error"),
   (tooBig, "Argument list too long"),
   (badDescriptor, "Bad file descriptor"),
   (tryAgain, "Resource temporarily unavailable"),
   (noMemory, "Cannot allocate memory"),
   (invalidArgument, "Invalid argument"),
   (noSpace, "No space left on device"),
   (brokenPipe, "Broken pipe"),
   (overflow, "Value too large for defined data type"),
   (illegalSequence, "Invalid or incomplete multibyte or wide character")]

/-- The text that describes an error number to a reader. -/
def message (e : Errno) : String := (texts.lookup e).getD "Unknown error"

end Errno

end FormattedText
