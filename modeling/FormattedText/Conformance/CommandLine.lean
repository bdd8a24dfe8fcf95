import FormattedText.Conformance.Files
import FormattedText.Conformance.Invocation
import FormattedText.Conformance.Report
import FormattedText.Conformance.Run

/-!
# The command line

`verify` runs all fixture sets of a directory and tells how many of their cases
passed; it can be limited to one operation and can write a report. Nothing is
run when one of the documents cannot be read. The status of a run is zero exactly
when all cases passed and the report, if one was asked for, was written; a case
that is broken off ends the program. Help and version are shown without a look at
any file.
-/

namespace FormattedText

namespace Conformance

/-- What the command line shows when it is done. -/
structure Conclusion where
  /-- The standard output. -/
  output : String
  /-- The standard error. -/
  complaints : String
  /-- The exit status. -/
  status : Nat
  deriving DecidableEq, Repr

namespace Conclusion

/-- A text that was asked for. -/
def shown (text : String) : Conclusion := ⟨text, "", 0⟩

/-- Nothing was asked for: the help text goes to the standard error. -/
def unasked : Conclusion := ⟨"", HelpTopic.text .program, 2⟩

/-- The command line was not understood. -/
def misused : Conclusion :=
  ⟨"", "usage: verify --fixture DIRECTORY [--report FILE] [--function NAME]\n", 2⟩

/-- A file could not be read, was no fixture set, or could not be written; the output
until then remains. -/
def failed (output complaints : String) : Conclusion := ⟨output, complaints ++ "Error\n", 1⟩

/-- There are no documents in the directory. -/
def empty (directory : String) : Conclusion :=
  ⟨"", "Error: " ++ Quoted.text ("no fixture sets in " ++ directory) ++ "\n", 1⟩

/-- A case was broken off; the output until then remains. -/
def brokenOff (output : String) : Conclusion := ⟨output, "panicked\n", 101⟩

end Conclusion

/-- The title of the reports. -/
def reportTitle : String := "nlstdio conformance"

/-- A fixture set with the path of its document. -/
abbrev Document := String × FixtureSet

/-- The paths of the documents in a directory, in the order of their names. -/
def documentPaths (directory : String) (names : List String) : List String :=
  ((names.filter (Path.hasExtension "json")).mergeSort (fun a b => decide (a ≤ b))).map
    (Path.join directory)

/-- The line that tells how many cases of a document passed. -/
def summaryLine (document : Document) (verdicts : List Verdict) : String :=
  document.2.family ++ ": " ++ toString (verdicts.countP Verdict.passed) ++ "/" ++
    toString verdicts.length ++ " passed (" ++ document.1 ++ ")\n"

/-- The line that tells how many cases passed in all. -/
def totalLine (r : Report) : String :=
  "total " ++ toString r.total ++ " passed " ++ toString r.passed ++ " failed " ++
    toString r.failed ++ "\n"

/-- The line that tells of a case that did not pass. -/
def failureLine (v : Verdict) (p : Problem) : String :=
  "FAIL " ++ v.traceId ++ ": " ++ p.message ++ "\n"

/-- The report on documents, each with its verdicts. -/
def reportOn (results : List (Document × List Verdict)) : Report :=
  ⟨reportTitle, results.map (·.1.1), results.flatMap (·.2)⟩

/-- The lines that tell how many cases of each document passed. -/
def summaryLines (results : List (Document × List Verdict)) : String :=
  String.join (results.map fun (d, vs) => summaryLine d vs)

/-- The conclusion of a run before a report is written. -/
def conclusionOf (results : List (Document × List Verdict)) : Conclusion :=
  let r := reportOn results
  ⟨summaryLines results ++ totalLine r,
    String.join (r.failures.map fun (v, p) => failureLine v p),
    if r.allPassed then 0 else 1⟩

/-- The text of a report for a file: JSON where the path says so, and otherwise
Markdown. -/
def reportText (path : String) (r : Report) : String :=
  if Path.hasExtension "json" path then r.json else r.markdown

/-- Runs documents in order up to the first that is broken off, and tells whether there
is none; `places` tells for each case of each document where its texts stand. -/
def runDocuments (host : Host) (only : Option String) (places : Nat → Nat → Placement) :
    List Document → List (Document × List Verdict) × Bool
  | [] => ([], true)
  | d :: rest =>
      match d.2.verdicts only host (places 0) with
      | none => ([], false)
      | some verdicts =>
          let (results, complete) := runDocuments host only (fun i => places (i + 1)) rest
          ((d, verdicts) :: results, complete)

section Running

variable {m : Type → Type} [Monad m] (host : Host) (places : Nat → Nat → Placement)

/-- Reads documents; all of them must be fixture sets. -/
def readDocuments (files : FileAccess m) : List String → m (Option (List Document))
  | [] => return some []
  | path :: rest => do
      match (← files.read path).bind FixtureSet.ofText? with
      | none => return none
      | some set => return (← readDocuments files rest).map ((path, set) :: ·)

/-- Writes a report, if one is asked for, and adds to the conclusion what came of it. -/
def writeReport (files : FileAccess m) (report : Option String) (r : Report)
    (conclusion : Conclusion) : m Conclusion :=
  match report with
  | none => return conclusion
  | some path => do
      if ← files.write path (reportText path r) then
        return { conclusion with
          output := conclusion.output ++ "report written to " ++ path ++ "\n" }
      else return .failed conclusion.output conclusion.complaints

/-- Runs the fixture sets. -/
def Request.perform (request : Request) (files : FileAccess m) : m Conclusion := do
  match ← files.list request.directory with
  | none => return .failed "" ""
  | some names =>
      match ← readDocuments files (documentPaths request.directory names) with
      | none => return .failed "" ""
      | some [] => return .empty request.directory
      | some documents =>
          match runDocuments host request.function places documents with
          | (results, true) =>
              writeReport files request.report (reportOn results) (conclusionOf results)
          | (results, false) => return .brokenOff (summaryLines results)

/-- Carries out what is asked for. -/
def Invocation.perform (invocation : Invocation) (files : FileAccess m) : m Conclusion :=
  match invocation with
  | .verify request => request.perform host places files
  | .help topic => return .shown topic.text
  | .version => return .shown versionLine
  | .bare => return .unasked

/-- Carries out what the arguments of the command line ask for. -/
def performArguments (arguments : List String) (files : FileAccess m) : m Conclusion :=
  match Invocation.ofArguments? arguments with
  | none => return .misused
  | some invocation => invocation.perform host places files

end Running

end Conformance

end FormattedText
