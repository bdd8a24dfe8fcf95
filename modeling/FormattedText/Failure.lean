import FormattedText.Errno

/-!
# Failures

Every way in which a conversion or a formatted write can fail, as a cause with
the data that belongs to it. `Failure.message` words a cause for a reader and
`Failure.errno` gives the error number that a caller with C conventions sees.
-/

namespace FormattedText

/-- Why a conversion or a formatted write failed. -/
inductive Failure where
  /-- The source ends inside a character; more bytes may complete it. -/
  | incompleteSequence
  /-- The bytes or the code point form no character of the encoding. -/
  | invalidSequence
  /-- The sink could not take the bytes. -/
  | outputFailed (errno : Errno)
  /-- The format string ends inside the directive that starts at `offset`. -/
  | malformedDirective (offset : Nat)
  /-- The destination is shorter than the `needed` bytes of one character. -/
  | insufficientSpace (needed : Nat)
  /-- The argument at `index` is missing or does not suit its directive. -/
  | argumentMismatch (index : Nat)
  /-- A length exceeds the largest value that can be reported. -/
  | overflow
  deriving DecidableEq, Repr, Inhabited

namespace Failure

/-- The failure in words. -/
def message : Failure → String
  | incompleteSequence => "incomplete multibyte sequence"
  | invalidSequence => "invalid or unrepresentable character"
  | outputFailed errno => "output sink failed: " ++ errno.message
  | malformedDirective offset =>
      "malformed conversion directive at byte " ++ toString offset
  | insufficientSpace needed =>
      "destination too small, " ++ toString needed ++ " bytes required"
  | argumentMismatch index =>
      "argument " ++ toString index ++ " missing or incompatible with its directive"
  | overflow => "output length overflow"

/-- The error number that stands for the failure. -/
def errno : Failure → Errno
  | incompleteSequence | invalidSequence => .illegalSequence
  | outputFailed errno => errno
  | malformedDirective _ | argumentMismatch _ => .invalidArgument
  | insufficientSpace _ => .tooBig
  | overflow => .overflow

end Failure

end FormattedText
