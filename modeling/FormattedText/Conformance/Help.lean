/-!
# Help texts

What the command line tells about itself: its commands and options, and its
version.
-/

namespace FormattedText

namespace Conformance

/-- What a help text is about. -/
inductive HelpTopic where
  /-- The command line as a whole. -/
  | program
  /-- The command that runs fixture sets. -/
  | verify
  /-- The command that shows help. -/
  | help
  deriving DecidableEq, Repr

namespace HelpTopic

/-- The topic of a command, by the name of the command. -/
def ofCommand? : String → Option HelpTopic
  | "verify" => some verify
  | "help" => some help
  | _ => none

/-- The lines of the help text. -/
def lines : HelpTopic → List String
  | program =>
      ["Fixture-driven conformance checks for the nlstdio core",
       "",
       "Usage: nlstdio-harness <COMMAND>",
       "",
       "Commands:",
       "  verify  Run every fixture set in a directory against the core",
       "  help    Print this message or the help of the given subcommand(s)",
       "",
       "Options:",
       "  -h, --help     Print help",
       "  -V, --version  Print version"]
  | verify =>
      ["Run every fixture set in a directory against the core",
       "",
       "Usage: nlstdio-harness verify [OPTIONS] --fixture <FIXTURE>",
       "",
       "Options:",
       "      --fixture <FIXTURE>    Directory holding `*.json` fixture sets",
       "      --report <REPORT>      Write a report here (`.json` for JSON, markdown otherwise)",
       "      --function <FUNCTION>  Only run cases for this function",
       "  -h, --help                 Print help"]
  | help =>
      ["Print this message or the help of the given subcommand(s)",
       "",
       "Usage: nlstdio-harness help [COMMAND]...",
       "",
       "Arguments:",
       "  [COMMAND]...  Print help for the subcommand(s)"]

/-- The help text. -/
def text (topic : HelpTopic) : String := String.join (topic.lines.map (· ++ "\n"))

end HelpTopic

/-- The line that tells the version. -/
def versionLine : String := "nlstdio-harness 0.1.0\n"

end Conformance

end FormattedText
