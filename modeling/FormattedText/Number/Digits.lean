/-!
# Digits of natural numbers

The digits of a number in a base, most significant first, and their ASCII
bytes. A number has as many digits as it needs, and zero has one.
-/

namespace FormattedText

namespace Digits

/-- The ASCII byte of a digit below 36, letters in lower case. -/
def byte (d : Nat) : UInt8 := UInt8.ofNat (if d < 10 then 0x30 + d else 0x57 + d)

/-- The digits of `n` put before `tail`, most significant first. -/
def pushDigits (base n : Nat) (tail : List Nat) : List Nat :=
  if _h : n < base ∨ base < 2 then n :: tail
  else pushDigits base (n / base) (n % base :: tail)
  termination_by n
  decreasing_by exact Nat.div_lt_self (by omega) (by omega)

/-- The digits of `n` in a base of at least two, most significant first. -/
def inBase (base n : Nat) : List Nat := pushDigits base n []

/-- The number that digits write in a base. -/
def value (base : Nat) (digits : List Nat) : Nat :=
  digits.foldl (fun n d => n * base + d) 0

/-- The ASCII bytes of the digits of `n`. -/
def text (base n : Nat) : List UInt8 := (inBase base n).map byte

/-- ASCII bytes as characters. -/
def chars (bytes : List UInt8) : List Char := bytes.map fun b => Char.ofNat b.toNat

/-- The number of decimal digits of `n`. -/
def decimalLength (n : Nat) : Nat := (inBase 10 n).length

/-- Puts zeros before `text` until it is at least `length` bytes long. -/
def zeroExtend (length : Nat) (text : List UInt8) : List UInt8 :=
  List.replicate (length - text.length) 0x30 ++ text

end Digits

end FormattedText
