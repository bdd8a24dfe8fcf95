import FormattedText.Encoding

/-!
# Locales

A locale is a name and the encoding that the name selects. A name is `C`,
`POSIX`, or a language, optionally followed by `.` and a charset and by `@` and
a modifier. `Locale.parse` accepts exactly these names; the modifier never
counts, and the language counts only where no charset is given.
-/

namespace FormattedText

/-- Why a locale name was refused. -/
inductive LocaleError where
  /-- The name has no characters. -/
  | empty
  /-- The language part is missing or holds a character that it must not hold. -/
  | invalidName (name : String)
  /-- The charset part names no known charset. -/
  | unknownCharset (name : String)
  deriving DecidableEq, Repr

namespace LocaleError

/-- The refusal in words. -/
def message : LocaleError → String
  | empty => "empty locale name"
  | invalidName name => "malformed locale name '" ++ name ++ "'"
  | unknownCharset name => "unknown charset in locale name '" ++ name ++ "'"

end LocaleError

/-- A locale: the name it was asked for by, and its encoding. -/
structure Locale where
  /-- The name, as it was given. -/
  name : String
  /-- The encoding of multibyte text in this locale. -/
  encoding : Encoding
  deriving DecidableEq, Repr

namespace Locale

/-- The C locale. -/
def c : Locale := ⟨"C", .ascii⟩

/-- Splits at the first `mark`, which belongs to neither part; there is no second
part where there is no mark. -/
def splitAtMark (mark : Char) (s : List Char) : List Char × Option (List Char) :=
  match s.dropWhile (· ≠ mark) with
  | [] => (s, none)
  | _ :: rest => (s.takeWhile (· ≠ mark), some rest)

/-- May `c` stand in the language part of a name? -/
def isLanguageChar (c : Char) : Bool := c.isAlphanum || c == '_'

/-- The encoding of a language that is given without a charset. -/
def languageEncoding (language : List Char) : Encoding :=
  if language = "C".toList ∨ language = "POSIX".toList then .ascii else .latin1

/-- Reads a locale name. -/
def parse (name : String) : Except LocaleError Locale :=
  let stem := (splitAtMark '@' name.toList).1
  let (language, charset?) := splitAtMark '.' stem
  if name.isEmpty then .error .empty
  else if name = "C" ∨ name = "POSIX" then .ok ⟨name, .ascii⟩
  else if language.isEmpty || !language.all isLanguageChar then .error (.invalidName name)
  else match charset? with
    | none => .ok ⟨name, languageEncoding language⟩
    | some charset =>
      match Encoding.ofCharset? charset with
      | some encoding => .ok ⟨name, encoding⟩
      | none => .error (.unknownCharset name)

/-- The environment variables that choose a locale, the most specific first. -/
structure Environment where
  /-- `LC_ALL`: overrides every category. -/
  all : Option String
  /-- `LC_CTYPE`: the category of character handling. -/
  ctype : Option String
  /-- `LANG`: the general choice. -/
  lang : Option String
  deriving DecidableEq, Repr

namespace Environment

/-- The environment in which no locale is chosen. -/
def unset : Environment := ⟨none, none, none⟩

/-- The name that the environment asks for: the first variable that is set and
not empty. -/
def request? (env : Environment) : Option String :=
  [env.all, env.ctype, env.lang].findSome? fun value =>
    value.filter fun name => !name.isEmpty

end Environment

/-- The locale that the environment asks for. Where it asks for none, or for a
name that is refused, this is the C locale: a refused name never passes the
choice on to a less specific variable. -/
def ofEnvironment (env : Environment) : Locale :=
  match env.request? with
  | none => c
  | some name =>
    match parse name with
    | .ok locale => locale
    | .error _ => c

end Locale

end FormattedText
