import FormattedText.Failure
import FormattedText.Directive.Grammar

/-!
# Segments of a format string

A format string ends at its first zero byte. It is a sequence of segments:
runs of literal bytes, percent signs written as directives, and all other
directives. `Format.items` lists the segments with the offset after each; it
ends with the first segment that cannot be read.
-/

namespace FormattedText

/-- The percent sign, which begins a directive. -/
def percentByte : UInt8 := asciiByte '%'

/-- A segment of a format string. -/
inductive Segment where
  /-- Bytes that stand for themselves. -/
  | literal (bytes : List UInt8)
  /-- A directive that stands for a percent sign. -/
  | percent
  /-- Any other directive. -/
  | directive (d : Directive)
  deriving DecidableEq, Repr

/-- The segment of a directive. -/
def Segment.ofDirective (d : Directive) : Segment :=
  if d.conversion = percentByte then .percent else .directive d

/-- The failure that a directive at `offset` causes when it cannot be read. -/
def DirectiveError.failure (offset : Nat) : DirectiveError → Failure
  | truncated => .malformedDirective offset
  | tooLarge => .overflow

/-- What stands at one place of a format string. -/
structure FormatItem where
  /-- The segment, or why it cannot be read. -/
  content : Except Failure Segment
  /-- The offset of what follows. -/
  stop : Nat

namespace Format

/-- The bytes of a format string: those before the first zero byte. -/
def text (format : List UInt8) : List UInt8 := format.takeWhile (· ≠ 0)

/-- The segments of `rest`, which begins at `offset` of the format string. -/
def itemsFrom (offset : Nat) (rest : List UInt8) : List FormatItem :=
  match rest with
  | [] => []
  | b :: more =>
      if b = percentByte then
        match _h : Directive.parse more with
        | .error e => [⟨.error (e.failure offset), offset + rest.length⟩]
        | .ok (d, after) =>
            let stop := offset + (rest.length - after.length)
            ⟨.ok (.ofDirective d), stop⟩ :: itemsFrom stop after
      else
        let run := b :: more.takeWhile (· ≠ percentByte)
        let stop := offset + run.length
        ⟨.ok (.literal run), stop⟩ :: itemsFrom stop (more.dropWhile (· ≠ percentByte))
  termination_by rest.length
  decreasing_by
    · exact Nat.lt_succ_of_lt (Directive.length_lt_of_parse _h)
    · exact Nat.lt_succ_of_le (List.dropWhile_sublist _).length_le

/-- The segments of a format string. -/
def items (format : List UInt8) : List FormatItem := itemsFrom 0 (text format)

/-- All segments of a format string, or the failure that ends them. -/
def parse (format : List UInt8) : Except Failure (List Segment) :=
  (items format).mapM (·.content)

end Format

/-- Reads the directive whose percent sign stands at `offset` of a format, with the
offset of what follows. Neither the sign nor a zero byte is looked for. -/
def Directive.parseAt (format : List UInt8) (offset : Nat) :
    Except Failure (Directive × Nat) :=
  match Directive.parse (format.drop (offset + 1)) with
  | .error e => .error (e.failure offset)
  | .ok (d, after) => .ok (d, format.length - after.length)

end FormattedText
