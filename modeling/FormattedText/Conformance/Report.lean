import FormattedText.Conformance.Verdict

/-!
# Reports

The verdicts of a run with a title and the documents that they come from, as
Markdown or as a JSON document.
-/

namespace FormattedText

namespace Conformance

/-- A report on a run. -/
structure Report where
  /-- The title. -/
  title : String
  /-- The documents that were read. -/
  sources : List String
  /-- The verdicts, in order. -/
  verdicts : List Verdict
  deriving DecidableEq, Repr

namespace Report

/-- The number of verdicts. -/
def total (r : Report) : Nat := r.verdicts.length

/-- The number of cases that passed. -/
def passed (r : Report) : Nat := r.verdicts.countP Verdict.passed

/-- The number of cases that did not pass. -/
def failed (r : Report) : Nat := r.total - r.passed

/-- Did all cases pass? -/
def allPassed (r : Report) : Bool := r.failed == 0

/-- The verdicts on the cases that did not pass, each with the problem. -/
def failures (r : Report) : List (Verdict × Problem) :=
  r.verdicts.filterMap fun v => v.problem.map fun p => (v, p)

theorem failed_add_passed (r : Report) : r.failed + r.passed = r.total := by
  have h := List.countP_le_length (p := Verdict.passed) (l := r.verdicts)
  simp only [failed, passed, total] at *
  omega

/-- A line of Markdown. -/
def line (parts : List String) : String := String.join parts ++ "\n"

/-- A text set as code in Markdown. -/
def code (s : String) : String := "`" ++ s ++ "`"

/-- The row of a verdict in the table of a Markdown report. -/
def row (v : Verdict) : String :=
  line ["| ", code v.traceId, " | ", v.family, " | ", v.symbol, " | ", v.caseName, " | ",
    if v.passed then "PASS" else "FAIL", " |"]

/-- The items of a Markdown report on what did not pass. -/
def failureItems (r : Report) : List String :=
  r.failures.map fun (v, p) => line ["- ", code v.traceId, ": ", p.message]

/-- The report in Markdown: the totals, a table of all verdicts, and the problems if
there are any. -/
def markdown (r : Report) : String :=
  String.join
    ([line ["# ", r.title], line []] ++
     (r.sources.map fun s => line ["- Fixture: ", code s]) ++
     [line ["- Total: ", toString r.total], line ["- Passed: ", toString r.passed],
      line ["- Failed: ", toString r.failed], line [],
      line ["| Trace | Family | Symbol | Case | Status |"],
      line ["|-------|--------|--------|------|--------|"]] ++
     r.verdicts.map row ++
     (if r.failures.isEmpty then []
      else [line [], line ["## Failures"], line []] ++ r.failureItems))

/-- The report as a JSON value. -/
def toJson (r : Report) : Json :=
  .object
    [("title", .string r.title), ("sources", .array (r.sources.map .string)),
     ("summary", .object
       [("total", Json.integer r.total), ("passed", Json.integer r.passed),
        ("failed", Json.integer r.failed),
        ("results", .array (r.verdicts.map Verdict.toJson))])]

/-- The report as a JSON document. -/
def json (r : Report) : String := r.toJson.pretty

end Report

end Conformance

end FormattedText
