import FormattedText.Json.Token

/-!
# JSON as it is spelled

The structure that the tokens of a text spell, before its parts are evaluated:
objects keep all their members in the order of the text, a key that occurs twice
included. `Spelling.ofTokens?` reads token by token, with the arrays and objects
that are still open on a stack.
-/

namespace FormattedText

namespace Json

/-- A value as a text spells it. -/
inductive Spelling where
  | null
  | bool (b : Bool)
  | number (numeral : Numeral)
  | string (parts : List StringPart)
  | array (elements : List Spelling)
  | object (members : List (List StringPart × Spelling))
  deriving Repr, Inhabited

namespace Spelling

/-- Members of an object that have been read, the latest first. -/
abbrev Members := List (List StringPart × Spelling)

/-- An array or an object that is still open while a value of it is read. -/
inductive Open where
  /-- An array, with the elements before, the latest first. -/
  | array (before : List Spelling)
  /-- An object, with the members before and the key of the value. -/
  | object (before : Members) (key : List StringPart)

/-- What the next token has to be. -/
inductive Expecting where
  /-- The beginning of a value. -/
  | value
  /-- The beginning of the first element of an array, or the end of the array. -/
  | firstElement
  /-- The first key of an object, or the end of the object. -/
  | firstKey
  /-- A key behind a comma. -/
  | key (before : Members)
  /-- The colon behind a key. -/
  | colon (before : Members) (key : List StringPart)
  /-- What may stand behind a value: a comma or the end of what it stands in. -/
  | after (value : Spelling)

/-- A reading in progress: what comes next, and what is open around it. -/
abbrev Reading := Expecting × List Open

/-- Reads the first token of a value. -/
def beginValue? (around : List Open) : Token → Option Reading
  | .null => some (.after .null, around)
  | .bool b => some (.after (.bool b), around)
  | .number n => some (.after (.number n), around)
  | .string s => some (.after (.string s), around)
  | .openArray => some (.firstElement, .array [] :: around)
  | .openObject => some (.firstKey, around)
  | _ => none

/-- Reads a token behind a value. -/
def continue? (value : Spelling) : List Open → Token → Option Reading
  | .array before :: around, .comma => some (.value, .array (value :: before) :: around)
  | .array before :: around, .closeArray =>
      some (.after (.array (value :: before).reverse), around)
  | .object before key :: around, .comma => some (.key ((key, value) :: before), around)
  | .object before key :: around, .closeObject =>
      some (.after (.object ((key, value) :: before).reverse), around)
  | _, _ => none

/-- Reads one token. -/
def step? : Reading → Token → Option Reading
  | (.value, around), t => beginValue? around t
  | (.firstElement, .array _ :: around), .closeArray => some (.after (.array []), around)
  | (.firstElement, around), t => beginValue? around t
  | (.firstKey, around), .closeObject => some (.after (.object []), around)
  | (.firstKey, around), .string key => some (.colon [] key, around)
  | (.key before, around), .string key => some (.colon before key, around)
  | (.colon before key, around), .colon => some (.value, .object before key :: around)
  | (.after value, around), t => continue? value around t
  | _, _ => none

/-- The value that tokens spell, or `none` where they spell no single value. -/
def ofTokens? (tokens : List Token) : Option Spelling :=
  match tokens.foldlM step? (.value, []) with
  | some (.after value, []) => some value
  | _ => none

/-- The value that a text spells. -/
def ofText? (text : String) : Option Spelling := (Token.ofChars? text.toList).bind ofTokens?

end Spelling

end Json

end FormattedText
