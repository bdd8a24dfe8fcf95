import FormattedText.Conformance.Verdict
import FormattedText.Process.Locale

/-!
# Running cases

The cases of a set are carried out by a thread, one after another. A case that
names a locale uses its encoding; when the case is over the thread has no
encoding of its own any more, so that the cases do not influence one another. A
case that is broken off ends the run without any verdict, and the thread is left
as the case used it.
-/

namespace FormattedText

namespace Conformance

namespace Case

/-- The locale that a case names, if it names one. -/
def localeName? (c : Case) : Option String := (c.inputs.member? "locale").bind Json.string?

/-- What is observed of a case in an encoding, with its texts where they stand. -/
def observe (c : Case) (host : Host) (place : Placement) (enc : Encoding) :
    Option (Except Obstacle Observation) :=
  match Operation.names.lookup c.function with
  | none => some (.error (.unsupported c.function))
  | some op => op.observe host place enc c.inputs

/-- Carries out a case in a thread of a process. A case whose locale is refused is
not begun, and leaves the thread as it was. -/
def execute (c : Case) (host : Host) (place : Placement) (p : Process) (t : Thread) :
    Option (Except Obstacle Observation) × Thread :=
  match c.localeName?.mapM Locale.parse with
  | .error e => (some (.error (.locale e)), t)
  | .ok locale =>
      let inside := { t with override := locale.map (·.encoding) }
      match c.observe host place (p.encodingFor inside) with
      | none => (none, inside)
      | some observed => (some observed, { inside with override := none })

/-- Is the case one of the operation that was asked for? -/
def isSelected (only : Option String) (c : Case) : Bool :=
  match only with
  | none => true
  | some function => c.function == function

end Case

/-- Carries out cases of a family in order; `places` tells for each where its texts
stand. -/
def runCases (host : Host) (p : Process) (family : String) (places : Nat → Placement)
    (t : Thread) : List Case → Option (List Verdict) × Thread
  | [] => (some [], t)
  | c :: rest =>
      match c.execute host (places 0) p t with
      | (none, t') => (none, t')
      | (some observed, t') =>
          let (verdicts, last) := runCases host p family (fun i => places (i + 1)) t' rest
          (verdicts.map (c.verdict family observed :: ·), last)

namespace FixtureSet

/-- Carries out the cases of a set, or only those of one operation. -/
def run (set : FixtureSet) (only : Option String) (host : Host) (places : Nat → Placement)
    (p : Process) (t : Thread) : Option (List Verdict) × Thread :=
  runCases host p set.family places t (set.cases.filter (Case.isSelected only))

/-- The verdicts on the cases of a set in a new thread of the C locale. -/
def verdicts (set : FixtureSet) (only : Option String) (host : Host)
    (places : Nat → Placement) : Option (List Verdict) :=
  (set.run only host places (.start .unset) .fresh).1

end FixtureSet

end Conformance

end FormattedText
