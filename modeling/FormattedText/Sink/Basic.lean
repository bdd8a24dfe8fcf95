import FormattedText.Failure

/-!
# Sinks

A sink takes the bytes of a formatted write, chunk by chunk, and is told when
the write is finished. A sink may drop bytes without a failure; only a sink that
cannot take them fails.
-/

namespace FormattedText

/-- A sink after an operation, and the failure if there was one. -/
structure Effect (σ : Type) where
  /-- The sink afterwards. -/
  sink : σ
  /-- The failure, if the operation failed. -/
  failure : Option Failure

/-- What can take the bytes of a formatted write. -/
class Sink (σ : Type) where
  /-- Takes a chunk of bytes. -/
  write : σ → List UInt8 → Effect σ
  /-- Ends a formatted write. -/
  finish : σ → Effect σ

end FormattedText
