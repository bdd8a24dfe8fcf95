import FormattedText.Json.Basic
import FormattedText.Json.Spelling
import FormattedText.Number.Nearest

/-!
# Reading JSON values

What a spelling is worth. A plain number that fits 64 bits is an exact integer.
Any other one is a floating-point number: as many of its leading digits as fit 64
bits are rounded, and the power of ten that is left is applied in steps which are
rounded too; a number past the greatest finite one is refused. Escapes must form
characters, the last one of several members with one key counts, and nesting is
bounded.
-/

namespace FormattedText

namespace Json

/-- The value of a decimal digit. -/
def digitValue (c : Char) : Nat := c.toNat - '0'.toNat

/-- The number that decimal digits write. -/
def digitsValue (ds : List Char) : Nat := ds.foldl (fun n d => n * 10 + digitValue d) 0

/-- Appends digits to a number while it stays below 2^64: the number, and how many
digits were left out. -/
def appendDigits (n : Nat) : List Char → Nat × Nat
  | [] => (n, 0)
  | d :: ds =>
      if n * 10 + digitValue d < Nat.pow 2 64 then appendDigits (n * 10 + digitValue d) ds
      else (n, ds.length + 1)

namespace Number

/-- The greatest power of ten that one step applies. -/
def greatestStep : Nat := 308

/-- Multiplies by a power of ten in one step, or not at all where the product is
not finite. -/
def scaleUp? (v : Binary64) (places : Nat) : Option Binary64 :=
  if v.isZero then some v
  else if greatestStep < places then none
  else (some (v.times (.ofNat (Nat.pow 10 places)))).filter Binary64.isFinite

/-- Divides by a power of ten, in steps where it is great. -/
def scaleDown (v : Binary64) (places : Nat) : Binary64 :=
  if places ≤ greatestStep then v.dividedBy (.ofNat (Nat.pow 10 places))
  else if v.isZero then v
  else scaleDown (v.dividedBy (.ofNat (Nat.pow 10 greatestStep))) (places - greatestStep)
  termination_by places
  decreasing_by simp only [greatestStep] at *; omega

/-- Applies a power of ten. -/
def scale? (v : Binary64) (exponent : Int) : Option Binary64 :=
  if 0 ≤ exponent then scaleUp? v exponent.toNat else some (scaleDown v exponent.natAbs)

/-- The exact integer that a spelling writes, if it is plain and fits 64 bits; a
negative zero is not an integer. -/
def plainInteger? (n : Numeral) : Option Int :=
  let value := digitsValue n.whole
  if !n.isPlain then none
  else if n.negative then
    (if 0 < value ∧ value ≤ Nat.pow 2 63 then some (-(value : Int)) else none)
  else if value < Nat.pow 2 64 then some value else none

/-- The floating-point number that a spelling writes. -/
def rounded? (n : Numeral) : Option Binary64 :=
  let (whole, wholeLeft) := appendDigits 0 n.whole
  let (significand, fractionLeft) := appendDigits whole n.fraction
  let written : Int :=
    if n.exponentNegative then -(digitsValue n.exponent : Int) else digitsValue n.exponent
  let exponent : Int := written + wholeLeft - ((n.fraction.length - fractionLeft : Nat) : Int)
  (scale? (.ofNat significand) exponent).map (·.withSign n.negative)

/-- The number that a spelling writes. -/
def ofNumeral? (n : Numeral) : Option Number :=
  match plainInteger? n with
  | some value => some (.integer value)
  | none => (rounded? n).map .float

end Number

/-- Is the code unit the first of a pair? -/
def isHighSurrogate (unit : Nat) : Bool := 0xD800 ≤ unit && unit ≤ 0xDBFF

/-- Is the code unit the second of a pair? -/
def isLowSurrogate (unit : Nat) : Bool := 0xDC00 ≤ unit && unit ≤ 0xDFFF

/-- The character of a pair of code units. -/
def pairedChar (high low : Nat) : Char :=
  Char.ofNat (0x10000 + (high - 0xD800) * 0x400 + (low - 0xDC00))

/-- The characters that the parts of a string spell. A code unit of a pair must not
stand alone. -/
def chars? : List StringPart → Option (List Char)
  | [] => some []
  | .char c :: rest => (chars? rest).map (c :: ·)
  | .code high :: .code low :: rest =>
      if isHighSurrogate high then
        if isLowSurrogate low then (chars? rest).map (pairedChar high low :: ·) else none
      else if isLowSurrogate high then none
      else (chars? (.code low :: rest)).map (Char.ofNat high :: ·)
  | .code unit :: rest =>
      if isHighSurrogate unit || isLowSurrogate unit then none
      else (chars? rest).map (Char.ofNat unit :: ·)
  termination_by parts => parts.length

/-- The text that the parts of a string spell. -/
def textOf? (parts : List StringPart) : Option String := (chars? parts).map String.ofList

/-- Puts a member where its key belongs; it takes the place of one with its key. -/
def insertMember (key : String) (value : Json) : List (String × Json) → List (String × Json)
  | [] => [(key, value)]
  | (other, present) :: rest =>
      if key = other then (key, value) :: rest
      else if key < other then (key, value) :: (other, present) :: rest
      else (other, present) :: insertMember key value rest

/-- Members sorted by their keys, the last of several with one key. -/
def sortMembers (members : List (String × Json)) : List (String × Json) :=
  members.foldl (fun sorted m => insertMember m.1 m.2 sorted) []

namespace Spelling

mutual

/-- The value of a spelling with arrays and objects at most `depth` deep. -/
def value? (depth : Nat) : Spelling → Option Json
  | .null => some .null
  | .bool b => some (.bool b)
  | .number n => (Number.ofNumeral? n).map .number
  | .string parts => (textOf? parts).map .string
  | .array elements =>
      if depth = 0 then none else (values? (depth - 1) elements).map .array
  | .object members =>
      if depth = 0 then none
      else (memberValues? (depth - 1) members).map fun ms => .object (sortMembers ms)

/-- The values of spellings in order. -/
def values? (depth : Nat) : List Spelling → Option (List Json)
  | [] => some []
  | s :: rest => do some ((← value? depth s) :: (← values? depth rest))

/-- The keys and the values of members in order. -/
def memberValues? (depth : Nat) : List (List StringPart × Spelling) → Option (List (String × Json))
  | [] => some []
  | (key, s) :: rest => do
      some ((← textOf? key, ← value? depth s) :: (← memberValues? depth rest))

end

/-- The text of a string. -/
def text? : Spelling → Option String
  | .string parts => textOf? parts
  | _ => none

/-- The value of an integer of 64 bits with a sign. -/
def int64? : Spelling → Option Int
  | .number n =>
      (Number.plainInteger? n).filter fun value => -Int.pow 2 63 ≤ value ∧ value < Int.pow 2 63
  | _ => none

/-- Reads a value that may be `null`. -/
def orNull? {α : Type} (read : Spelling → Option α) : Spelling → Option (Option α)
  | .null => some none
  | s => (read s).map some

/-- The members with one of the given names. Every key must be text, and no name
may occur twice. -/
def namedMembers? (names : List String) :
    List (List StringPart × Spelling) → Option (List (String × Spelling))
  | [] => some []
  | (key, s) :: rest => do
      let name ← textOf? key
      let others ← namedMembers? names rest
      if !names.contains name then some others
      else if others.any (·.1 == name) then none
      else some ((name, s) :: others)

/-- The fields of a record, each present or not: an object gives them by their
names, and an array gives the first ones in order. -/
def fields? (names : List String) : Spelling → Option (List (Option Spelling))
  | .object members =>
      (namedMembers? names members).map fun named => names.map fun name => named.lookup name
  | .array elements =>
      if elements.length ≤ names.length then
        some ((List.range names.length).map fun i => elements[i]?)
      else none
  | _ => none

end Spelling

end Json

end FormattedText
