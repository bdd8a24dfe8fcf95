import FormattedText.Json.Printer
import FormattedText.Json.Reading

/-!
# Fixtures

A fixture set is a JSON document: a list of cases, each of which names an
operation, gives it inputs and tells what is expected of it. Both levels are
records, so members that are not known do not count, and the expectations may be
missing. An expected output that is not a string stands for its compact text.
-/

namespace FormattedText

namespace Conformance

/-- A case: an operation with its inputs, and what is expected of it. -/
structure Case where
  /-- The name of the case. -/
  name : String
  /-- The name of the operation. -/
  function : String
  /-- The inputs; which ones there must be depends on the operation. -/
  inputs : Json
  /-- The output that is expected. -/
  expectedOutput : String
  /-- The number that is expected to be returned; without one it is not checked. -/
  expectedReturn : Option Int
  /-- The name of the failure that is expected; without one there must be none. -/
  expectedError : Option String
  deriving Repr, Inhabited

/-- The cases of a family of operations. -/
structure FixtureSet where
  /-- The version of the form of the document. -/
  version : String
  /-- The name of the family. -/
  family : String
  /-- The cases, in order. -/
  cases : List Case
  deriving Repr, Inhabited

/-- How deep the arrays and objects of a document may be nested. -/
def nestingBound : Nat := 127

/-- How deep those of a value in a case may be: the document, the list of the cases
and the case itself stand around it. -/
def valueNesting : Nat := nestingBound - 3

/-- The text that a value stands for as an expected output. -/
def outputText : Json → String
  | .string s => s
  | j => j.compact

namespace Case

/-- The names of the fields, in order. -/
def fieldNames : List String :=
  ["name", "function", "inputs", "expected_output", "expected_return", "expected_error"]

/-- Reads a field that may be missing or `null`. -/
def optional? {α : Type} (read : Json.Spelling → Option α) (s : Option Json.Spelling) :
    Option (Option α) :=
  match s with
  | none => some none
  | some s => s.orNull? read

/-- Reads a case. -/
def ofSpelling? (s : Json.Spelling) : Option Case :=
  match s.fields? fieldNames with
  | some [some name, some function, some inputs, some output, returned, error] => do
      some
        { name := ← name.text?
          function := ← function.text?
          inputs := ← inputs.value? valueNesting
          expectedOutput := outputText (← output.value? valueNesting)
          expectedReturn := ← optional? Json.Spelling.int64? returned
          expectedError := ← optional? Json.Spelling.text? error }
  | _ => none

/-- A case as a JSON value. -/
def toJson (c : Case) : Json :=
  .object
    [("name", .string c.name), ("function", .string c.function), ("inputs", c.inputs),
     ("expected_output", .string c.expectedOutput),
     ("expected_return", Json.ofOption Json.integer c.expectedReturn),
     ("expected_error", Json.ofOption Json.string c.expectedError)]

end Case

namespace FixtureSet

/-- The names of the fields, in order. -/
def fieldNames : List String := ["version", "family", "cases"]

/-- Reads the cases of a set. -/
def casesOf? : Json.Spelling → Option (List Case)
  | .array cases => cases.mapM Case.ofSpelling?
  | _ => none

/-- Reads a set. -/
def ofSpelling? (s : Json.Spelling) : Option FixtureSet :=
  match s.fields? fieldNames with
  | some [some version, some family, some cases] => do
      some ⟨← version.text?, ← family.text?, ← casesOf? cases⟩
  | _ => none

/-- Reads the text of a set. -/
def ofText? (text : String) : Option FixtureSet := (Json.Spelling.ofText? text).bind ofSpelling?

/-- A set as a JSON value. -/
def toJson (set : FixtureSet) : Json :=
  .object
    [("version", .string set.version), ("family", .string set.family),
     ("cases", .array (set.cases.map Case.toJson))]

end FixtureSet

end Conformance

end FormattedText
