import FormattedText.Process.Locale
import FormattedText.Session.Conversion

/-!
# Sessions

A session is a list of calls that a thread makes one after another. The calls
share the process, the thread, and the conversion states that the caller keeps
by name; a call may also start another thread, which runs calls of its own on
the same process with a state of its own. `World.perform` is the effect of one
call and `World.performAll` that of a list.
-/

namespace FormattedText

/-- All that a thread's calls can see and change. -/
structure World where
  /-- What all threads share. -/
  process : Process
  /-- The thread that makes the calls. -/
  thread : Thread
  /-- The conversion states that the caller keeps, by name. -/
  states : List (String × ConversionState)

/-- How an error number is set. -/
inductive ErrnoAccess where
  /-- By a call of the library. -/
  | direct
  /-- Through the address of the thread's error number. -/
  | byAddress
  deriving DecidableEq, Repr

/-- A call of a session. -/
inductive Call where
  /-- Converts text, in the current encoding unless another one is given, on the
  named state if one is named. -/
  | convert (encoding : Option Encoding) (state : Option String) (conversion : Conversion)
  /-- Asks whether a state is initial, and for its pending bytes. -/
  | inspect (state : Option String)
  /-- Asks whether a state is initial, by the C call. -/
  | mbsinit (state : Option String)
  /-- Makes a named state initial. -/
  | reset (state : Option String)
  /-- Shows an implicit state, and then makes it initial if asked to. -/
  | implicit (slot : Slot) (reset : Bool)
  /-- Uses a locale's encoding in the whole process. -/
  | useGlobally (name : String)
  /-- Uses a locale's encoding in this thread, or no longer one of its own. -/
  | useInThread (name : Option String)
  /-- Asks for the encodings in effect. -/
  | encodings
  /-- Replaces the environment variables that choose a locale. -/
  | setEnvironment (environment : Locale.Environment)
  /-- Sets the error number. -/
  | setErrno (errno : Errno) (access : ErrnoAccess)
  /-- Queries or installs the locale of a category. -/
  | setLocale (category : Int) (name : Option (List UInt8))
  /-- Asks for the greatest length of a character. -/
  | maxCharacterLength
  /-- Runs calls in a new thread. -/
  | thread (calls : List Call)

/-- What a call gives back. -/
inductive Reply where
  /-- The answer of a conversion. -/
  | converted (answer : Answer)
  /-- Whether a state is initial, and the number of its pending bytes. -/
  | inspected (isInitial : Bool) (pending : Option Nat)
  /-- Whether a state is initial, as a C call returns it. -/
  | isInitial (value : Bool)
  /-- Nothing. -/
  | done
  /-- An implicit state. -/
  | state (s : ConversionState)
  /-- The encodings in effect, of the thread and of the process. -/
  | encodings (current process : Encoding)
  /-- The encodings in effect, and the one that the thread used for itself before. -/
  | overridden (current process : Encoding) (previous : Option Encoding)
  /-- A locale name was refused. -/
  | refused (error : LocaleError)
  /-- The locale that the environment asks for. -/
  | locale (locale : Locale)
  /-- The error number. -/
  | errno (value : Errno)
  /-- The name in effect, if the request was not refused, and the current encoding. -/
  | localeName (name : Option String) (current : Encoding)
  /-- A number. -/
  | number (n : Nat)
  /-- The replies of another thread's calls, each with the error number after the
  call and the state that it named. -/
  | thread (replies : List (Reply × Errno × Option ConversionState))

/-- A reply with what can be observed after its call: the thread's error number,
and the state that the call named. -/
abbrev Report := Reply × Errno × Option ConversionState

/-- The named state that a call works on. -/
def Call.stateName? : Call → Option String
  | .convert _ state _ | .inspect state | .mbsinit state | .reset state => state
  | _ => none

namespace World

/-- A world in which nothing has happened yet. -/
def start (environment : Locale.Environment) : World := ⟨.start environment, .fresh, []⟩

/-- The state kept under a name; an unknown name stands for an initial state. -/
def named (w : World) (name : String) : ConversionState :=
  (w.states.lookup name).getD .initial

/-- Keeps a state under a name. -/
def setNamed (w : World) (name : String) (s : ConversionState) : World :=
  { w with states := (name, s) :: w.states.filter (·.1 ≠ name) }

/-- Replaces an implicit state of the thread. -/
def setImplicit (w : World) (slot : Slot) (s : ConversionState) : World :=
  { w with thread := w.thread.setImplicit slot s }

/-- The encoding that the thread converts in. -/
def currentEncoding (w : World) : Encoding := w.process.encodingFor w.thread

/-- Publishes an error number, if there is one to publish. -/
def publish (w : World) (errno : Option Errno) : World :=
  match errno with
  | none => w
  | some e => { w with thread := { w.thread with errno := e } }

/-- The state that a call of some usage runs on. -/
def load (w : World) (usage : StateUsage) (name : Option String) : ConversionState :=
  match usage, name with
  | .either _, some name => w.named name
  | .either slot, none | .implicit slot, _ => w.thread.implicit slot
  | .fresh, _ => .initial

/-- Puts the state of a call back where it came from. -/
def save (w : World) (usage : StateUsage) (name : Option String) (s : ConversionState) :
    World :=
  match usage, name with
  | .either _, some name => w.setNamed name s
  | .either slot, none | .implicit slot, _ => w.setImplicit slot s
  | .fresh, _ => w

/-- The effect of a conversion. -/
def convert (w : World) (encoding : Option Encoding) (name : Option String)
    (conversion : Conversion) : Answer × World :=
  let enc := encoding.getD w.currentEncoding
  let (answer, s) := conversion.run enc (w.load conversion.usage name)
  (answer, (w.save conversion.usage name s).publish (answer.returned?.bind Returned.errno?))

/-- The encodings in effect, as a reply. -/
def encodings (w : World) : Reply := .encodings w.currentEncoding w.process.encoding

mutual

/-- The effect of one call. -/
def perform (w : World) : Call → Reply × World
  | .convert encoding name conversion =>
      let (answer, w') := w.convert encoding name conversion
      (.converted answer, w')
  | .inspect name =>
      let s := name.map w.named
      (.inspected (Calls.mbsinit s) (s.map (·.pending.length)), w)
  | .mbsinit name => (.isInitial (Calls.mbsinit (name.map w.named)), w)
  | .reset none => (.done, w)
  | .reset (some name) => (.done, w.setNamed name .initial)
  | .implicit slot reset =>
      (.state (w.thread.implicit slot), if reset then w.setImplicit slot .initial else w)
  | .useGlobally name =>
      match Locale.parse name with
      | .error e => (.refused e, w)
      | .ok locale =>
          let w' := { w with process := w.process.useEncoding locale }
          (w'.encodings, w')
  | .useInThread name =>
      match name.mapM Locale.parse with
      | .error e => (.refused e, w)
      | .ok locale =>
          let w' := { w with thread := { w.thread with override := locale.map (·.encoding) } }
          (.overridden w'.currentEncoding w'.process.encoding w.thread.override, w')
  | .encodings => (w.encodings, w)
  | .setEnvironment environment =>
      (.locale (Locale.ofEnvironment environment),
        { w with process := { w.process with environment := environment } })
  | .setErrno e _ => (.errno e, { w with thread := { w.thread with errno := e } })
  | .setLocale category name =>
      let (reported, process) := w.process.setLocale category name
      let w' := { w with process := process }
      (.localeName reported w'.currentEncoding, w')
  | .maxCharacterLength => (.number w.currentEncoding.maxCharacterLength, w)
  | .thread calls =>
      let (reports, inner) := performAll ⟨w.process, .fresh, []⟩ calls
      (.thread reports, { w with process := inner.process })

/-- The effect of a list of calls, one after another. -/
def performAll (w : World) : List Call → List Report × World
  | [] => ([], w)
  | call :: rest =>
      let (reply, w') := perform w call
      let report := (reply, w'.thread.errno, call.stateName?.map w'.named)
      let (reports, last) := performAll w' rest
      (report :: reports, last)

end

end World

end FormattedText
