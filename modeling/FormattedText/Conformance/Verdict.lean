import FormattedText.Conformance.Fixture
import FormattedText.Conformance.Operation

/-!
# Verdicts

What was observed of a case against what the case expects. A verdict passes when
nothing differs; otherwise it tells every difference, or the obstacle that kept
the case from being carried out.
-/

namespace FormattedText

namespace Conformance

/-- A difference between what was expected and what was observed. -/
inductive Mismatch where
  /-- The outputs differ. -/
  | output (expected observed : String)
  /-- The returned numbers differ. -/
  | returned (expected observed : Option Int)
  /-- The failures differ. -/
  | error (expected observed : Option String)
  deriving DecidableEq, Repr

/-- A value that may be absent, in words. -/
def optionText {α : Type} (text : α → String) : Option α → String
  | none => "None"
  | some a => "Some(" ++ text a ++ ")"

/-- A difference in words, between two values in words. -/
def differenceText (what expected observed : String) : String :=
  what ++ ": expected " ++ expected ++ ", got " ++ observed

/-- The difference in words. -/
def Mismatch.message : Mismatch → String
  | output expected observed =>
      differenceText "output" (Quoted.text expected) (Quoted.text observed)
  | returned expected observed =>
      differenceText "return" (optionText toString expected) (optionText toString observed)
  | error expected observed =>
      differenceText "error" (optionText Quoted.text expected) (optionText Quoted.text observed)

/-- Why a case did not pass. -/
inductive Problem where
  /-- It was carried out and something differs. -/
  | mismatches (all : List Mismatch)
  /-- It could not be carried out. -/
  | obstacle (o : Obstacle)
  deriving DecidableEq, Repr

/-- The problem in words. -/
def Problem.message : Problem → String
  | mismatches all => String.intercalate "; " (all.map Mismatch.message)
  | obstacle o => o.message

/-- The verdict on a case. -/
structure Verdict where
  /-- The family of the case. -/
  family : String
  /-- The name of the operation. -/
  symbol : String
  /-- The name of the case. -/
  caseName : String
  /-- The output that was expected. -/
  expected : String
  /-- The output that was observed; empty where there was an obstacle. -/
  actual : String
  /-- Why the case did not pass, if it did not. -/
  problem : Option Problem
  deriving DecidableEq, Repr

namespace Observation

/-- The number that was returned, if there was no failure. -/
def returned? (o : Observation) : Option Int :=
  match o.result with
  | .ok n => some n
  | .error _ => none

/-- The name of the failure, if there was one. -/
def error? (o : Observation) : Option String :=
  match o.result with
  | .ok _ => none
  | .error e => some (failureName e)

end Observation

namespace Case

/-- All differences between what a case expects and what was observed. -/
def mismatches (c : Case) (o : Observation) : List Mismatch :=
  (if o.output = c.expectedOutput then [] else [.output c.expectedOutput o.output]) ++
  (if c.expectedReturn = none ∨ o.returned? = c.expectedReturn then []
    else [.returned c.expectedReturn o.returned?]) ++
  (if o.error? = c.expectedError then [] else [.error c.expectedError o.error?])

/-- The verdict on a case of a family. -/
def verdict (c : Case) (family : String) (observed : Except Obstacle Observation) : Verdict :=
  match observed with
  | .error o => ⟨family, c.function, c.name, c.expectedOutput, "", some (.obstacle o)⟩
  | .ok o =>
      let all := c.mismatches o
      ⟨family, c.function, c.name, c.expectedOutput, o.output,
        if all.isEmpty then none else some (.mismatches all)⟩

end Case

namespace Verdict

/-- Did the case pass? -/
def passed (v : Verdict) : Bool := v.problem.isNone

/-- The name of the case among all families and operations. -/
def traceId (v : Verdict) : String := v.family ++ "::" ++ v.symbol ++ "::" ++ v.caseName

/-- A verdict as a JSON value. -/
def toJson (v : Verdict) : Json :=
  .object
    ([("trace_id", .string v.traceId), ("family", .string v.family),
      ("symbol", .string v.symbol), ("case_name", .string v.caseName),
      ("passed", .bool v.passed), ("expected", .string v.expected),
      ("actual", .string v.actual)] ++
     (v.problem.map fun p => ("diff", Json.string p.message)).toList)

end Verdict

end Conformance

end FormattedText
