import FormattedText.Delivery
import FormattedText.Sink.Descriptor
import FormattedText.Sink.Fixed
import FormattedText.Sink.Growable

/-!
# Printing

The formatted writes into each kind of sink: into a bounded buffer, into memory
that grows, and to a transport.
-/

namespace FormattedText

/-- Prints into a buffer; what does not fit is dropped and still counted. -/
def printToBuffer (options : FormatOptions) (storage format : List UInt8)
    (args : List Argument) : Delivered FixedBuffer :=
  formatInto (FixedBuffer.ofStorage storage) options format args

/-- Prints into memory that grows. -/
def printToMemory (options : FormatOptions) (format : List UInt8) (args : List Argument) :
    Delivered GrowableBuffer :=
  formatInto GrowableBuffer.empty options format args

/-- The text that printing gives, if it succeeds. -/
def printed (options : FormatOptions) (format : List UInt8) (args : List Argument) :
    Except Failure (List UInt8) :=
  let d := printToMemory options format args
  d.result.map fun _ => d.sink.content

/-- Prints to a transport. -/
def printToTransport (options : FormatOptions) (transport : Transport)
    (format : List UInt8) (args : List Argument) : Delivered Descriptor :=
  formatInto (Descriptor.ofTransport transport) options format args

end FormattedText
