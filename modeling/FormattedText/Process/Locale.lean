import FormattedText.Locale
import FormattedText.Process.Thread

/-!
# The locale of a process

A process has one encoding, the name that was installed for it, and the
environment variables that a locale may be taken from. `Process.setLocale`
queries or installs a locale; only the category of character handling carries
data, and every other category knows the C locale alone.
-/

namespace FormattedText

/-- What all threads of a process share. -/
structure Process where
  /-- The encoding of the installed locale. -/
  encoding : Encoding
  /-- The name that is reported for the installed locale. -/
  localeName : String
  /-- The environment variables that choose a locale. -/
  environment : Locale.Environment
  deriving DecidableEq, Repr

/-- A category of locale data. -/
inductive Category where
  | ctype
  | numeric
  | time
  | collate
  | monetary
  | messages
  | all
  deriving DecidableEq, Repr

namespace Category

/-- The category of a number. -/
def ofCode? (code : Int) : Option Category :=
  if 0 ≤ code then [ctype, numeric, time, collate, monetary, messages, all][code.toNat]?
  else none

/-- Does the category include character handling? -/
def governsCharacters : Category → Bool
  | ctype | all => true
  | _ => false

end Category

namespace Process

/-- A process as it starts: in the C locale. -/
def start (environment : Locale.Environment) : Process := ⟨.ascii, "C", environment⟩

/-- Uses a locale's encoding without changing the name that is reported. -/
def useEncoding (p : Process) (locale : Locale) : Process :=
  { p with encoding := locale.encoding }

/-- Installs a locale: its encoding and its name together. -/
def install (p : Process) (locale : Locale) : Process :=
  { p with encoding := locale.encoding, localeName := locale.name }

/-- The bytes of a name. -/
def bytesOfName (name : String) : List UInt8 := name.toUTF8.data.toList

/-- Can a name be reported? It is handed out as a string that ends at its first zero byte, so
it must hold none. -/
def isReportable (name : String) : Bool := !(bytesOfName name).contains 0

/-- The locale that a request names; the empty name asks the environment. A locale whose name
cannot be reported is refused. -/
def requested? (p : Process) (name : String) : Option Locale :=
  let locale? := if name.isEmpty then some (Locale.ofEnvironment p.environment)
    else match Locale.parse name with
      | .ok locale => some locale
      | .error _ => none
  locale?.filter fun locale => isReportable locale.name

/-- The bytes of a name as text; a name ends at its first zero byte. -/
def nameOfBytes? (bytes : List UInt8) : Option String :=
  String.fromUTF8? (ByteArray.mk (bytes.takeWhile (· ≠ 0)).toArray)

/-- Queries the locale of a category (`name` absent) or installs another one. The
answer is the name in effect, or `none` where the request is refused. -/
def setLocale (p : Process) (category : Int) (name : Option (List UInt8)) :
    Option String × Process :=
  match Category.ofCode? category with
  | none => (none, p)
  | some category =>
      match category.governsCharacters, name with
      | true, none => (some p.localeName, p)
      | false, none => (some Locale.c.name, p)
      | true, some bytes =>
          match (nameOfBytes? bytes).bind p.requested? with
          | none => (none, p)
          | some locale => (some locale.name, p.install locale)
      | false, some bytes =>
          match nameOfBytes? bytes with
          | some name =>
              if name ∈ ["", "C", "POSIX"] then (some Locale.c.name, p) else (none, p)
          | none => (none, p)

/-- The encoding that a thread converts in. -/
def encodingFor (p : Process) (t : Thread) : Encoding := t.override.getD p.encoding

end Process

end FormattedText
