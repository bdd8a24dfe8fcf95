import FormattedText.Conformance.Help

/-!
# Invocations

What the arguments of the command line ask for: to run the fixture sets of a
directory, or to be told how the command line is used. Arguments are read from
the left, and the first that cannot be understood refuses them all; a request for
help or for the version ends the reading, so what follows it is not looked at.
-/

namespace FormattedText

namespace Conformance

/-- Which fixture sets are to be run, and what to do with the results. -/
structure Request where
  /-- The directory of the fixture sets. -/
  directory : String
  /-- Where to write a report. -/
  report : Option String
  /-- The operation that the run is limited to. -/
  function : Option String
  deriving DecidableEq, Repr

/-- What is asked for on the command line. -/
inductive Invocation where
  /-- To run fixture sets. -/
  | verify (request : Request)
  /-- To show a help text. -/
  | help (topic : HelpTopic)
  /-- To tell the version. -/
  | version
  /-- Nothing at all. -/
  | bare
  deriving DecidableEq, Repr

namespace Invocation

/-- The options as far as they have been read. -/
structure Options where
  /-- The directory of the fixture sets. -/
  fixture : Option String
  /-- Where to write a report. -/
  report : Option String
  /-- The operation that the run is limited to. -/
  function : Option String

namespace Options

/-- No option has been read. -/
def empty : Options := ⟨none, none, none⟩

/-- Sets an option by its name. No option may be given twice, and a path must not be
empty. -/
def set? (o : Options) (name value : String) : Option Options :=
  match name with
  | "--fixture" =>
      if o.fixture.isSome || value.isEmpty then none else some { o with fixture := some value }
  | "--report" =>
      if o.report.isSome || value.isEmpty then none else some { o with report := some value }
  | "--function" =>
      if o.function.isSome then none else some { o with function := some value }
  | _ => none

/-- The request that the options make; the directory must be among them. -/
def request? (o : Options) : Option Request :=
  o.fixture.map fun directory => ⟨directory, o.report, o.function⟩

end Options

/-- Splits an argument at its first equals sign. -/
def splitValue (argument : String) : String × Option String :=
  match argument.toList.span (· ≠ '=') with
  | (_, []) => (argument, none)
  | (name, _ :: value) => (String.ofList name, some (String.ofList value))

/-- Does an argument look like an option? -/
def isOption (argument : String) : Bool := argument.startsWith "-" && argument.length ≠ 1

/-- Does an argument ask for help? Of one-letter options written together only the first
one matters. -/
def asksForHelp (argument : String) : Bool :=
  argument == "--help" || argument.startsWith "-h"

/-- Does an argument ask for the version? -/
def asksForVersion (argument : String) : Bool :=
  argument == "--version" || argument.startsWith "-V"

/-- Reads the arguments after `verify`, given the options before them. A value stands
behind an equals sign or in the next argument, and two hyphens end the options. -/
def ofOptions? (o : Options) : List String → Option Invocation
  | [] | ["--"] => o.request?.map verify
  | argument :: rest =>
      if asksForHelp argument then some (help .verify)
      else
        match splitValue argument, rest with
        | (name, some value), rest => (o.set? name value).bind fun o' => ofOptions? o' rest
        | (name, none), value :: rest =>
            if isOption value then none
            else (o.set? name value).bind fun o' => ofOptions? o' rest
        | (_, none), [] => none

/-- Reads the arguments of the command line. -/
def ofArguments? : List String → Option Invocation
  | [] | ["--"] => some bare
  | "verify" :: rest => ofOptions? .empty rest
  | ["help"] => some (help .program)
  | ["help", command] => (HelpTopic.ofCommand? command).map help
  | argument :: _ =>
      if asksForHelp argument then some (help .program)
      else if asksForVersion argument then some version
      else none

end Invocation

end Conformance

end FormattedText
