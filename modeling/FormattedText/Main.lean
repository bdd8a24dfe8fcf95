import FormattedText.Conformance.CommandLine

/-!
# The program

The command line on the files of the machine.
-/

namespace FormattedText

/-- The result of an action, if it did not fail. -/
def succeeded? {α : Type} (action : IO α) : IO (Option α) :=
  try some <$> action catch _ => return none

/-- The files of the machine. -/
def machineFiles : Conformance.FileAccess IO where
  list path := succeeded? do
    let entries ← ((← IO.currentDir) / path).readDir
    return (entries.map (·.fileName)).toList
  read path := succeeded? (IO.FS.readFile path)
  write path text := Option.isSome <$> succeeded? (IO.FS.writeFile path text)

/-- The machine as the operations see it. -/
def machine : Conformance.Host :=
  .ample fun _ _ => "they do not have the shape that the operation needs"

/-- Where the texts of cases are taken to stand, as their places are not known: somewhere. -/
def somewhere (_document _case _argument : Nat) : UInt64 := 1

end FormattedText

/-- Carries out the command line. -/
def main (arguments : List String) : IO UInt32 := do
  let conclusion ← FormattedText.Conformance.performArguments FormattedText.machine
    FormattedText.somewhere arguments FormattedText.machineFiles
  IO.print conclusion.output
  IO.eprint conclusion.complaints
  return UInt32.ofNat conclusion.status
