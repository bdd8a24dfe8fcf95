/-!
# Directives

A directive of a format string: its flags, field width, precision, length
modifier and conversion character. The width and the precision may each be
taken from an argument; `Directive.minWidth` and `Directive.precision?` are their
values as far as the directive itself gives them.
-/

namespace FormattedText

/-- The byte of an ASCII character. -/
def asciiByte (c : Char) : UInt8 := UInt8.ofNat c.toNat

/-- A flag of a directive. -/
inductive Flag where
  /-- `-`: the padding follows the text. -/
  | leftJustify
  /-- `+`: a number that is not negative has a plus sign. -/
  | forceSign
  /-- A space: a number that is not negative has a space for a sign. -/
  | spaceSign
  /-- `#`: the alternative form. -/
  | alternate
  /-- `0`: zeros pad a number after its sign. -/
  | zeroPad
  /-- An apostrophe: digits in groups. No locale here groups digits, so nothing changes. -/
  | grouping
  deriving DecidableEq, Repr

/-- The flags that are set. -/
structure Flags where
  /-- Is `-` set? -/
  leftJustify : Bool
  /-- Is `+` set? -/
  forceSign : Bool
  /-- Is the space set? -/
  spaceSign : Bool
  /-- Is `#` set? -/
  alternate : Bool
  /-- Is `0` set? -/
  zeroPad : Bool
  /-- Is the apostrophe set? -/
  grouping : Bool
  deriving DecidableEq, Repr

/-- All flags, in the order in which they are written. -/
def Flag.all : List Flag := [leftJustify, forceSign, spaceSign, alternate, zeroPad, grouping]

/-- The byte that sets a flag. -/
def Flag.byte : Flag → UInt8
  | leftJustify => asciiByte '-'
  | forceSign => asciiByte '+'
  | spaceSign => asciiByte ' '
  | alternate => asciiByte '#'
  | zeroPad => asciiByte '0'
  | grouping => asciiByte '\''

namespace Flags

/-- No flags. -/
def none : Flags := ⟨false, false, false, false, false, false⟩

/-- Sets a flag; setting it again changes nothing. -/
def set (flags : Flags) : Flag → Flags
  | .leftJustify => { flags with leftJustify := true }
  | .forceSign => { flags with forceSign := true }
  | .spaceSign => { flags with spaceSign := true }
  | .alternate => { flags with alternate := true }
  | .zeroPad => { flags with zeroPad := true }
  | .grouping => { flags with grouping := true }

/-- Is a flag set? -/
def has (flags : Flags) : Flag → Bool
  | .leftJustify => flags.leftJustify
  | .forceSign => flags.forceSign
  | .spaceSign => flags.spaceSign
  | .alternate => flags.alternate
  | .zeroPad => flags.zeroPad
  | .grouping => flags.grouping

end Flags

/-- A width or a precision. -/
inductive Measure where
  /-- None is given. -/
  | absent
  /-- A number is given. -/
  | fixed (n : Nat)
  /-- `*`: the next argument gives it. -/
  | fromArgument
  deriving DecidableEq, Repr

/-- The number, if one is given. -/
def Measure.value? : Measure → Option Nat
  | .fixed n => some n
  | _ => none

/-- The type that a length modifier gives an integer. -/
inductive Length where
  /-- No modifier: `int`. -/
  | plain
  /-- `hh`: `char`. -/
  | char
  /-- `h`: `short`. -/
  | short
  /-- `l`: `long`, and wide characters. -/
  | long
  /-- `ll` or `q`: `long long`. -/
  | longLong
  /-- `j`: the widest integer. -/
  | intMax
  /-- `z`: a size. -/
  | size
  /-- `t`: a difference of pointers. -/
  | difference
  /-- `L`: a `long double`. -/
  | longDouble
  deriving DecidableEq, Repr

namespace Length

/-- The number of bits of the integers of the length. -/
def bits : Length → Nat
  | char => 8
  | short => 16
  | plain => 32
  | _ => 64

/-- Reduces an integer to the signed type of the length. -/
def narrowSigned (length : Length) (n : Int) : Int := n.bmod (Nat.pow 2 length.bits)

/-- Reduces an integer to the unsigned type of the length. -/
def narrowUnsigned (length : Length) (n : Int) : Nat := (n % Int.pow 2 length.bits).toNat

end Length

/-- A directive of a format string. -/
structure Directive where
  /-- The flags that are set. -/
  flags : Flags
  /-- The least width of the field. -/
  width : Measure
  /-- The precision. -/
  precision : Measure
  /-- The length modifier. -/
  length : Length
  /-- The conversion character. -/
  conversion : UInt8
  deriving DecidableEq, Repr

namespace Directive

/-- The least width of the field; a width that an argument has still to give
counts as none. -/
def minWidth (d : Directive) : Nat := d.width.value?.getD 0

/-- The precision, if the directive gives one. -/
def precision? (d : Directive) : Option Nat := d.precision.value?

/-- Does padding stand before the text? -/
def padsLeft (d : Directive) : Bool := !d.flags.leftJustify && decide (0 < d.minWidth)

/-- The greatest width, precision and length of output. -/
def maxMeasure : Nat := Nat.pow 2 31 - 1

end Directive

end FormattedText
