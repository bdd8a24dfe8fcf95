import FormattedText.Json.Basic
import FormattedText.Number.Shortest

/-!
# Printing JSON values

A value as text: `Json.compact` without any blanks, and `Json.pretty` with one
element or member to a line and two blanks for each level. Floating-point
numbers have the shortest digits that read back, and always a point or an
exponent; strings escape quotation marks, backslashes and control characters,
and nothing else.
-/

namespace FormattedText

namespace Json

/-- The least position of the point, counted from the first digit, that is shown
without an exponent. -/
def leastPointPosition : Int := -4

/-- The greatest position of the point that is shown without an exponent. -/
def greatestPointPosition : Int := 16

/-- Digits and the exponent of the last one as text. An exponent has no more digits
than it needs. -/
def decimalText (s : Decimal.Scientific) : String :=
  let digits := toString s.digits
  let point : Int := digits.length + s.exponent
  let zeros (n : Nat) : String := String.ofList (List.replicate n '0')
  let front (n : Nat) : String := String.ofList (digits.toList.take n)
  let back (n : Nat) : String := String.ofList (digits.toList.drop n)
  if point < leastPointPosition ∨ greatestPointPosition < point then
    front 1 ++ (if digits.length = 1 then "" else "." ++ back 1) ++
      String.ofList (Digits.chars (Decimal.exponentText Decimal.exponentMarker (point - 1) 1))
  else if point ≤ 0 then "0." ++ zeros point.natAbs ++ digits
  else if 0 ≤ s.exponent then digits ++ zeros s.exponent.toNat ++ ".0"
  else front point.toNat ++ "." ++ back point.toNat

/-- A finite floating-point number as text. -/
def floatText (v : Binary64) : String :=
  (if v.isNegative then "-" else "") ++ decimalText (Shortest.digits v)

/-- A number as text. -/
def Number.text : Number → String
  | .integer n => toString n
  | .float v => floatText v

/-- A hexadecimal digit in lower case. -/
def hexDigit (d : Nat) : Char := Char.ofNat (Digits.byte d).toNat

/-- The escape of a character in a string, if it needs one. -/
def escape? : Char → Option (List Char)
  | '"' => some ['\\', '"']
  | '\\' => some ['\\', '\\']
  | '\x08' => some ['\\', 'b']
  | '\x0c' => some ['\\', 'f']
  | '\n' => some ['\\', 'n']
  | '\r' => some ['\\', 'r']
  | '\t' => some ['\\', 't']
  | c =>
      if c.toNat < 0x20 then
        some ['\\', 'u', '0', '0', hexDigit (c.toNat / 16), hexDigit (c.toNat % 16)]
      else none

/-- A string in quotation marks. -/
def quoted (s : String) : String :=
  "\"" ++ String.ofList (s.toList.flatMap fun c => (escape? c).getD [c]) ++ "\""

mutual

/-- A value without blanks. -/
def compact : Json → String
  | .null => "null"
  | .bool b => if b then "true" else "false"
  | .number n => n.text
  | .string s => quoted s
  | .array elements => "[" ++ String.intercalate "," (compactElements elements) ++ "]"
  | .object members => "\x7b" ++ String.intercalate "," (compactMembers members) ++ "\x7d"

/-- Elements without blanks. -/
def compactElements : List Json → List String
  | [] => []
  | j :: rest => j.compact :: compactElements rest

/-- Members without blanks. -/
def compactMembers : List (String × Json) → List String
  | [] => []
  | (key, j) :: rest => (quoted key ++ ":" ++ j.compact) :: compactMembers rest

end

/-- The beginning of a line at a level. -/
def newLine (level : Nat) : String := "\n" ++ String.ofList (List.replicate (2 * level) ' ')

/-- Items between brackets, one to a line; without items nothing stands between. -/
def bracketed (opening closing : String) (level : Nat) (items : List String) : String :=
  if items.isEmpty then opening ++ closing
  else
    opening ++ newLine (level + 1) ++ String.intercalate ("," ++ newLine (level + 1)) items ++
      newLine level ++ closing

mutual

/-- A value that stands at a level, one element or member to a line. -/
def prettyAt (level : Nat) : Json → String
  | .array elements => bracketed "[" "]" level (prettyElements (level + 1) elements)
  | .object members => bracketed "\x7b" "\x7d" level (prettyMembers (level + 1) members)
  | .null => "null"
  | .bool b => if b then "true" else "false"
  | .number n => n.text
  | .string s => quoted s

/-- Elements that stand at a level. -/
def prettyElements (level : Nat) : List Json → List String
  | [] => []
  | j :: rest => prettyAt level j :: prettyElements level rest

/-- Members that stand at a level. -/
def prettyMembers (level : Nat) : List (String × Json) → List String
  | [] => []
  | (key, j) :: rest => (quoted key ++ ": " ++ prettyAt level j) :: prettyMembers level rest

end

/-- A value with one element or member to a line. -/
def pretty (j : Json) : String := prettyAt 0 j

end Json

end FormattedText
