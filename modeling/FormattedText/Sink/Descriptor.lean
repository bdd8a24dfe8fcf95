import FormattedText.Sink.Basic
import FormattedText.Sink.Transport

/-!
# Buffered output to a transport

Bytes are staged and offered to the transport when the stage would overflow or
the write is finished. An offer that is taken in part is continued and an
interrupted one repeated; an offer of which nothing is taken, and any other
error, fails. Staged bytes that meet a failure are lost.
-/

namespace FormattedText

/-- Buffered output to a transport. -/
structure Descriptor where
  /-- Where the bytes go. -/
  transport : Transport
  /-- Bytes not offered yet. -/
  staged : List UInt8
  /-- The number of bytes that the transport has taken. -/
  flushed : Nat
  deriving DecidableEq, Repr

namespace Descriptor

/-- Output to a transport, with nothing staged. -/
def ofTransport (transport : Transport) : Descriptor := ⟨transport, [], 0⟩

/-- The size of the stage. -/
def stageLength : Nat := 1024

/-- Offers bytes until the transport has taken them all or fails, under a script of
outcomes. Nothing is offered where there are no bytes. -/
def offerAll (d : Descriptor) (bytes : List UInt8) : List Outcome → Effect Descriptor
  | [] =>
      if bytes.isEmpty then ⟨d, none⟩
      else ⟨{ d with
        transport := d.transport.taking [] bytes bytes.length
        flushed := d.flushed + bytes.length }, none⟩
  | outcome :: rest =>
      if bytes.isEmpty then ⟨d, none⟩
      else match outcome with
        | .accepts n =>
            let taken := min n bytes.length
            let d' := { d with
              transport := d.transport.taking rest bytes taken
              flushed := d.flushed + taken }
            if n = 0 then ⟨d', some (.outputFailed .inputOutput)⟩
            else d'.offerAll (bytes.drop taken) rest
        | .fails error =>
            let d' := { d with transport := d.transport.taking rest bytes 0 }
            if error.errno = .interrupted then d'.offerAll bytes rest
            else ⟨d', some (.outputFailed error.errno)⟩

/-- Offers bytes until the transport has taken them all or fails. -/
def writeAll (d : Descriptor) (bytes : List UInt8) : Effect Descriptor :=
  d.offerAll bytes d.transport.script

/-- Offers the staged bytes; afterwards nothing is staged. -/
def flushStaged (d : Descriptor) : Effect Descriptor :=
  ({ d with staged := [] }).writeAll d.staged

/-- Stages bytes that fit the stage, and offers others at once. -/
def stage (d : Descriptor) (bytes : List UInt8) : Effect Descriptor :=
  if stageLength ≤ bytes.length then d.writeAll bytes
  else ⟨{ d with staged := d.staged ++ bytes }, none⟩

/-- Takes a chunk of bytes. What is staged is offered first if the stage is too small
for both. -/
def write (d : Descriptor) (bytes : List UInt8) : Effect Descriptor :=
  if stageLength < d.staged.length + bytes.length then
    match d.flushStaged with
    | ⟨d', none⟩ => d'.stage bytes
    | failed => failed
  else d.stage bytes

instance : Sink Descriptor where
  write := write
  finish := flushStaged

end Descriptor

end FormattedText
