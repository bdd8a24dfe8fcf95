import FormattedText.Benchmark.Statistics
import FormattedText.Benchmark.Workload
import FormattedText.Main
import FormattedText.Session.World
import FormattedText.Sink.Step
import FormattedText.Proofs.Multibyte.RoundTrip
import FormattedText.Proofs.Multibyte.Schedule
import FormattedText.Proofs.Multibyte.Pieces
import FormattedText.Proofs.Sink.Agreement
import FormattedText.Proofs.Multibyte.Blocks
import FormattedText.Proofs.Sink.Offering
import FormattedText.Proofs.Sink.Reliable
import FormattedText.Proofs.Sink.Transmission
import FormattedText.Proofs.Session.Isolation
import FormattedText.Proofs.Session.Reachable
import FormattedText.Proofs.Session.Kept
import FormattedText.Proofs.Session.Terminator
import FormattedText.Proofs.Session.Afresh
import FormattedText.Proofs.Multibyte.Counting
import FormattedText.Proofs.Format.Expansion
import FormattedText.Proofs.Format.Composition
import FormattedText.Proofs.Field.WideText
import FormattedText.Proofs.Format.Readable
import FormattedText.Proofs.Session.LocaleName
import FormattedText.Proofs.Field.Within
import FormattedText.Proofs.Format.Measured
import FormattedText.Proofs.Sink.Termination
import FormattedText.Proofs.Format.Unencodable
import FormattedText.Proofs.Format.WideCharacter
import FormattedText.Proofs.Format.Stars
import FormattedText.Proofs.Format.Width
import FormattedText.Proofs.Format.Integer
import FormattedText.Proofs.Format.Floating
import FormattedText.Proofs.Format.Writers
import FormattedText.Proofs.Directive.Acceptance
import FormattedText.Proofs.Multibyte.Stopping
import FormattedText.Proofs.Multibyte.Escapes
import FormattedText.Proofs.Session.ErrorNumber
import FormattedText.Proofs.Session.SourcePointer
import FormattedText.Proofs.Format.Cursor
import FormattedText.Proofs.Locale.Parts
import FormattedText.Proofs.Benchmark.SampleText
import FormattedText.Proofs.Conformance.Independence
import FormattedText.Proofs.Sink.Erasure
import FormattedText.Proofs.Sink.Truncation
