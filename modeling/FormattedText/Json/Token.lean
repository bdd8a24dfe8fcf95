/-!
# JSON tokens

A text cut into the tokens that JSON is made of. Numbers and strings keep their
spelling: what a number is worth and whether the escapes of a string form
characters is decided where the token is used. Blanks stand between tokens only.
-/

namespace FormattedText

namespace Json

/-- The spelling of a number. -/
structure Numeral where
  /-- Is there a minus sign? -/
  negative : Bool
  /-- The digits before the point. -/
  whole : List Char
  /-- The digits after the point. -/
  fraction : List Char
  /-- Does a point or an exponent follow the whole digits? -/
  isPlain : Bool
  /-- Does the exponent have a minus sign? -/
  exponentNegative : Bool
  /-- The digits of the exponent. -/
  exponent : List Char
  deriving DecidableEq, Repr, Inhabited

/-- A part of the spelling of a string. -/
inductive StringPart where
  /-- A character, by itself or by an escape of two characters. -/
  | char (c : Char)
  /-- A code unit, by its four hexadecimal digits. -/
  | code (unit : Nat)
  deriving DecidableEq, Repr

/-- A token. -/
inductive Token where
  | openArray
  | closeArray
  | openObject
  | closeObject
  | comma
  | colon
  | null
  | bool (b : Bool)
  | number (numeral : Numeral)
  | string (parts : List StringPart)
  deriving DecidableEq, Repr

/-- What was read from the front of a text, with the text after it. -/
structure Scanned (α : Type) (text : List Char) where
  /-- What was read. -/
  value : α
  /-- The text after it. -/
  rest : List Char
  /-- The text after it is not longer. -/
  fits : rest.length ≤ text.length

namespace Scanned

variable {α β : Type} {text : List Char}

/-- Reads nothing. -/
def nothing (a : α) : Scanned α text := ⟨a, text, Nat.le_refl _⟩

/-- Changes what was read. -/
def map (f : α → β) (s : Scanned α text) : Scanned β text := ⟨f s.value, s.rest, s.fits⟩

/-- What was read after a first character. -/
def past {c : Char} (s : Scanned α text) : Scanned α (c :: text) :=
  ⟨s.value, s.rest, Nat.le_succ_of_le s.fits⟩

/-- Goes on reading behind what was read. -/
def andThen? (s : Scanned α text) (next : (rest : List Char) → α → Option (Scanned β rest)) :
    Option (Scanned β text) :=
  (next s.rest s.value).map fun t => ⟨t.value, t.rest, Nat.le_trans t.fits s.fits⟩

end Scanned

namespace Token

/-- Is the character a blank between tokens? -/
def isBlank (c : Char) : Bool := c == ' ' || c == '\n' || c == '\t' || c == '\r'

/-- Reads the digits at the front of a text. -/
def digits (text : List Char) : Scanned (List Char) text :=
  ⟨text.takeWhile Char.isDigit, text.dropWhile Char.isDigit,
    (List.dropWhile_sublist Char.isDigit).length_le⟩

/-- Reads digits, of which there must be one. -/
def someDigits? (text : List Char) : Option (Scanned (List Char) text) :=
  if (digits text).value.isEmpty then none else some (digits text)

/-- Reads a given word. -/
def word? {α : Type} (a : α) : List Char → (text : List Char) → Option (Scanned α text)
  | [], _ => some (.nothing a)
  | c :: word, d :: text => if c = d then (word? a word text).map .past else none
  | _ :: _, [] => none

/-- Reads the sign of an exponent: is it a minus sign? -/
def exponentSign : (text : List Char) → Scanned Bool text
  | '-' :: _ => (Scanned.nothing true).past
  | '+' :: _ => (Scanned.nothing false).past
  | _ => .nothing false

/-- Reads the exponent of a number, if there is one. -/
def exponent? (n : Numeral) : (text : List Char) → Option (Scanned Numeral text)
  | c :: text =>
      if c = 'e' ∨ c = 'E' then
        ((exponentSign text).andThen? fun rest negative =>
          (someDigits? rest).map (.map fun ds =>
            { n with isPlain := false, exponentNegative := negative, exponent := ds })).map .past
      else some (.nothing n)
  | [] => some (.nothing n)

/-- Reads the fraction and the exponent of a number, as far as there are any. -/
def fraction? (n : Numeral) : (text : List Char) → Option (Scanned Numeral text)
  | '.' :: text =>
      ((someDigits? text).bind (·.andThen? fun rest ds =>
        exponent? { n with isPlain := false, fraction := ds } rest)).map .past
  | text => exponent? n text

/-- Reads a number behind its whole digits. A zero at the front stands alone. -/
def numeral? {text : List Char} (negative : Bool) (whole : Scanned (List Char) text) :
    Option (Scanned Numeral text) :=
  whole.andThen? fun rest ds =>
    if ds.head? = some '0' ∧ ds.length ≠ 1 then none
    else fraction? ⟨negative, ds, [], true, false, []⟩ rest

/-- The value of a hexadecimal digit. -/
def hexValue? (c : Char) : Option Nat :=
  if c.isDigit then some (c.toNat - '0'.toNat)
  else if 'a' ≤ c ∧ c ≤ 'f' then some (c.toNat - 'a'.toNat + 10)
  else if 'A' ≤ c ∧ c ≤ 'F' then some (c.toNat - 'A'.toNat + 10)
  else none

/-- The character that a letter stands for behind a backslash. -/
def escaped? : Char → Option Char
  | '"' => some '"'
  | '\\' => some '\\'
  | '/' => some '/'
  | 'b' => some '\x08'
  | 'f' => some '\x0c'
  | 'n' => some '\n'
  | 'r' => some '\r'
  | 't' => some '\t'
  | _ => none

/-- Reads an escape behind its backslash. -/
def escape? : (text : List Char) → Option (Scanned StringPart text)
  | 'u' :: a :: b :: c :: d :: _ => do
      let unit := (((← hexValue? a) * 16 + (← hexValue? b)) * 16 + (← hexValue? c)) * 16
        + (← hexValue? d)
      some (Scanned.nothing (.code unit)).past.past.past.past.past
  | c :: _ => (escaped? c).map fun e => (Scanned.nothing (.char e)).past
  | [] => none

/-- Reads a string behind its first quotation mark. Control characters must be
written as escapes. -/
def string? : (text : List Char) → Option (Scanned (List StringPart) text)
  | [] => none
  | c :: text =>
      if c = '"' then some (Scanned.nothing []).past
      else if c = '\\' then
        match escape? text with
        | none => none
        | some e =>
            (string? e.rest).map fun s =>
              ⟨e.value :: s.value, s.rest, Nat.le_succ_of_le (Nat.le_trans s.fits e.fits)⟩
      else if c.toNat < 0x20 then none
      else (string? text).map fun s => (s.map (StringPart.char c :: ·)).past
  termination_by text => text.length
  decreasing_by
    · exact Nat.lt_succ_of_le e.fits
    · simp

/-- Reads a token that begins with the character `c`. -/
def beginning? (c : Char) (text : List Char) : Option (Scanned Token text) :=
  match c with
  | '[' => some (.nothing openArray)
  | ']' => some (.nothing closeArray)
  | '\x7b' => some (.nothing openObject)
  | '\x7d' => some (.nothing closeObject)
  | ',' => some (.nothing comma)
  | ':' => some (.nothing colon)
  | 'n' => word? null ['u', 'l', 'l'] text
  | 't' => word? (bool true) ['r', 'u', 'e'] text
  | 'f' => word? (bool false) ['a', 'l', 's', 'e'] text
  | '"' => (string? text).map (.map string)
  | '-' => ((someDigits? text).bind (numeral? true)).map (.map number)
  | _ =>
      if c.isDigit then (numeral? false ((digits text).map (c :: ·))).map (.map number)
      else none

/-- The tokens of a text, or `none` where it is not made of tokens. -/
def ofChars? : List Char → Option (List Token)
  | [] => some []
  | c :: text =>
      if isBlank c then ofChars? text
      else
        match beginning? c text with
        | none => none
        | some s => (ofChars? s.rest).map (s.value :: ·)
  termination_by text => text.length
  decreasing_by
    · simp
    · exact Nat.lt_succ_of_le s.fits

end Token

end Json

end FormattedText
