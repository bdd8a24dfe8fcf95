import FormattedText.Conformance.Run
import FormattedText.Proofs.Multibyte.Counting
import FormattedText.Proofs.Session.Frame

/-!
# Cases as sessions

What a case does is a session: the thread uses the encoding of the case, an operation is carried
out on a conversion state that is made for it, and the thread gives the encoding up, unless the
operation was broken off. A script is such a list of calls, and tells what their replies show
(`Script`).

In every world the script of a case shows what the case observes, and keeps the process and what
the thread has besides its encoding (`Case.meets_script`). The scripts of many cases, one after
another, show the verdicts of a run and leave the thread as it does (`Case.performEach_eq`). No
operation works on a state of the thread, so this holds whatever calls were made before.
-/

namespace FormattedText

namespace Conformance

/-- The name of the conversion state that is made for a case. -/
def ownState : String := "own"

/-- What is observed of decoding a string, by its answer. -/
def decoded? : Answer → Option Observation
  | .decoded result destination cursor =>
      some ⟨conversionOutput "chars" (fun wc => Json.integer wc.toNat) none 0
        ⟨result, destination.getD [], cursor, .initial⟩, result⟩
  | _ => none

/-- What is observed of encoding a string, by its answer. -/
def encoded? : Answer → Option Observation
  | .encoded result destination cursor =>
      some ⟨conversionOutput "bytes" (fun b => Json.integer b.toNat) none 0
        ⟨result, destination.getD [], cursor, .initial⟩, result⟩
  | _ => none

/-- What is observed of reading a character, by the reply. -/
def characterRead? : Reply → Option CharacterRead
  | .converted (.character result character) => some ⟨result, character, .initial⟩
  | _ => none

/-- Calls of a session, and what is observed by their replies, unless it was broken off. -/
structure Script where
  /-- The calls. -/
  calls : List Call
  /-- What is observed, by the replies. -/
  shown? : List Reply → Option (Except Obstacle Observation)

namespace Script

/-- Nothing is called where there is an obstacle. -/
def obstructed (o : Obstacle) : Script := ⟨[], fun _ => some (.error o)⟩

/-- Nothing is called, and nothing observed. -/
def brokenOff : Script := ⟨[], fun _ => none⟩

/-- A formatted write asks for the encoding in effect, and for no state. -/
def printing (observe : Encoding → Observation) : Script where
  calls := [.encodings]
  shown? replies :=
    match replies with
    | [.encodings current _] => some (.ok (observe current))
    | _ => none

/-- One conversion on the state of the case. -/
def converting (conversion : Conversion) (shown? : Answer → Option Observation) : Script where
  calls := [.convert none (some ownState) conversion]
  shown? replies :=
    match replies with
    | [.converted answer] => (shown? answer).map .ok
    | _ => none

/-- The characters are read from the pieces one after another, on the state of the case. -/
def reading (pieces : List (Option (List UInt8))) : Script where
  calls := pieces.map fun piece => .convert none (some ownState) (.decodeOne piece true)
  shown? replies := (replies.mapM characterRead?).map fun reads => .ok (readsObservation reads)

/-- The script where there is memory for a buffer; it shows something where the machine carries
the operation to its end. -/
def within (buffer : Option Nat) (host : Host) (endures : Encoding → Bool) (script : Script) :
    Script :=
  if buffer.all host.reserves then
    { calls := .encodings :: script.calls
      shown? := fun replies =>
        match replies with
        | .encodings current _ :: rest => if endures current then script.shown? rest else none
        | _ => none }
  else brokenOff

/-- The script in a locale: the thread uses its encoding from then on, and the state of the case
is initial at the beginning. -/
def inLocale (name : Option String) (script : Script) : Script where
  calls := .useInThread name :: .reset (some ownState) :: script.calls
  shown? replies := script.shown? (replies.drop 2)

/-- Made in a world the calls show the observation, keep the process, and lead to the thread. -/
structure Meets (script : Script) (w : World) (observed : Option (Except Obstacle Observation))
    (t : Thread) : Prop where
  /-- The replies show what is observed. -/
  shown : script.shown? ((w.performAll script.calls).1.map (·.1)) = observed
  /-- The process stays as it was. -/
  process : (w.performAll script.calls).2.process = w.process
  /-- The thread that is left. -/
  thread : (w.performAll script.calls).2.thread = t

end Script

/-- The script of an operation. -/
def Operation.script (op : Operation) (host : Host) (place : Placement) (inputs : Json) : Script :=
  match op with
  | .printToBuffer _ | .printToMemory _ =>
      match op.trial (host.complaint op inputs) inputs with
      | .error o => .obstructed o
      | .ok trial =>
          .within trial.buffer host (host.endures op · inputs) (.printing (trial.observe place))
  | .decodeString =>
      match conversionInputs? "bytes" "max_chars" byte? inputs with
      | none => .obstructed (.badInputs (host.complaint op inputs))
      | some (bytes, room) =>
          .within (room.map (4 * ·)) host (host.endures op · inputs)
            (.converting (.decodeString (some bytes) (room.map fun n => List.replicate n 0))
              decoded?)
  | .encodeString =>
      match conversionInputs? "wide" "max_bytes" wide? inputs with
      | none => .obstructed (.badInputs (host.complaint op inputs))
      | some (wide, room) =>
          .within (room.map (1 * ·)) host (host.endures op · inputs)
            (.converting (.encodeString (some wide) (room.map fun n => List.replicate n 0))
              encoded?)
  | .decodeOne =>
      match chunks? inputs with
      | none => .obstructed (.badInputs (host.complaint op inputs))
      | some pieces => .within none host (host.endures op · inputs) (.reading pieces)

namespace Case

/-- Is the case begun? It is not where its locale is refused. -/
def isBegun (c : Case) : Bool := (c.localeName?.mapM Locale.parse).isOk

/-- The thread while a case is carried out in it. -/
def during (c : Case) (t : Thread) : Thread :=
  match c.localeName?.mapM Locale.parse with
  | .error _ => t
  | .ok locale => { t with override := locale.map (·.encoding) }

/-- The script of a case. Where its locale is refused nothing else is called. -/
def script (c : Case) (host : Host) (place : Placement) : Script :=
  match c.localeName?.mapM Locale.parse with
  | .error _ =>
      { calls := [.useInThread c.localeName?]
        shown? := fun replies =>
          match replies with
          | [.refused e] => some (.error (.locale e))
          | _ => none }
  | .ok _ =>
      .inLocale c.localeName? (match Operation.names.lookup c.function with
        | none => .obstructed (.unsupported c.function)
        | some op => op.script host place c.inputs)

/-- The calls at the end of a case that was not broken off. -/
def leave (c : Case) : List Call := if c.isBegun then [.useInThread none] else []

/-- Carries out the scripts of cases of a family in order, up to one that is broken off. -/
def performEach (host : Host) (family : String) (places : Nat → Placement) (w : World) :
    List Case → Option (List Verdict) × World
  | [] => (some [], w)
  | c :: rest =>
      let (reports, w') := w.performAll (c.script host (places 0)).calls
      match (c.script host (places 0)).shown? (reports.map (·.1)) with
      | none => (none, w')
      | some observed =>
          let (verdicts, last) :=
            performEach host family (fun i => places (i + 1)) (w'.performAll c.leave).2 rest
          (verdicts.map (c.verdict family observed :: ·), last)

end Case

section Conversions

variable {α β : Type}

/-- The destination after a conversion shows what the conversion stored. -/
theorem conversionOutput_store (name : String) (element : β → Json) (room : Option Nat) (zero : β)
    (t : StringConversion α β) (s : ConversionState) (h : room = none → t.stored = []) :
    conversionOutput name element none zero
        ⟨t.result, (Conversion.store t.stored (room.map fun n => List.replicate n zero)).getD [],
          t.cursor, s⟩ =
      conversionOutput name element room zero t := by
  cases room with
  | none => simp only [conversionOutput, overlay, h rfl, Conversion.store, Option.map_none,
      Option.getD_none, List.drop_nil, List.append_nil, List.replicate_zero]
  | some n => simp only [conversionOutput, overlay, Conversion.store, Option.map_some,
      Option.getD_none, Option.getD_some, List.replicate_zero, List.drop_nil, List.append_nil]

theorem map_length_replicate (room : Option Nat) (zero : β) :
    (room.map fun n => List.replicate n zero).map List.length = room := by
  cases room with
  | none => rfl
  | some n => rw [Option.map_some, Option.map_some, List.length_replicate]

/-- The states after reads of characters are not shown. -/
theorem readsObservation_forget (reads : List CharacterRead) :
    readsObservation (reads.map fun r => { r with state := .initial }) =
      readsObservation reads := by
  rw [readsObservation, List.map_map, List.getLast?_map, Option.map_map]
  rfl

end Conversions

/-- A conversion on the state of the case runs on it and replaces it. -/
theorem perform_own (w : World) (conversion : Conversion) (slot : Slot)
    (husage : conversion.usage = .either slot)
    (hreturned : ∀ s, (conversion.run w.currentEncoding s).1.returned? = none) :
    w.perform (.convert none (some ownState) conversion) =
      (.converted (conversion.run w.currentEncoding (w.named ownState)).1,
        w.setNamed ownState (conversion.run w.currentEncoding (w.named ownState)).2) := by
  rw [World.perform_convert, World.convert]
  simp only [husage, World.load, World.save, hreturned, Option.getD_none, Option.bind_none,
    World.publish]

namespace Script

variable (w : World)

theorem meets_obstructed (o : Obstacle) :
    (obstructed o).Meets w (some (.error o)) w.thread := ⟨rfl, rfl, rfl⟩

theorem meets_printing (observe : Encoding → Observation) :
    (printing observe).Meets w (some (.ok (observe w.currentEncoding))) w.thread :=
  ⟨rfl, rfl, rfl⟩

theorem meets_converting {conversion : Conversion} {shown? : Answer → Option Observation}
    {observed : Observation} (slot : Slot) (husage : conversion.usage = .either slot)
    (hreturned : ∀ s, (conversion.run w.currentEncoding s).1.returned? = none)
    (h : shown? (conversion.run w.currentEncoding (w.named ownState)).1 = some observed) :
    (converting conversion shown?).Meets w (some (.ok observed)) w.thread := by
  have hperform := perform_own w conversion slot husage hreturned
  constructor
  · simp only [converting, World.performAll_cons, hperform, World.performAll, List.map_cons,
      List.map_nil, h, Option.map_some]
  · simp only [converting, World.performAll_cons, hperform, World.performAll, World.setNamed]
  · simp only [converting, World.performAll_cons, hperform, World.performAll, World.setNamed]

/-- The calls of reading from pieces give the reads, whatever state they begin on. -/
theorem performAll_reading (pieces : List (Option (List UInt8))) :
    let run := w.performAll (reading pieces).calls
    (run.1.map (·.1)).mapM characterRead? =
        some ((readPieces w.currentEncoding (w.named ownState) pieces).map
          fun r => { r with state := .initial }) ∧
      run.2.process = w.process ∧ run.2.thread = w.thread := by
  induction pieces generalizing w with
  | nil => exact ⟨rfl, rfl, rfl⟩
  | cons piece pieces ih =>
    have hperform : w.perform (.convert none (some ownState) (.decodeOne piece true)) =
        (.converted (.character (w.currentEncoding.decodeOne piece (w.named ownState)).result
            (w.currentEncoding.decodeOne piece (w.named ownState)).character),
          w.setNamed ownState (w.currentEncoding.decodeOne piece (w.named ownState)).state) := rfl
    obtain ⟨hreads, hprocess, hthread⟩ :=
      ih (w.setNamed ownState (w.currentEncoding.decodeOne piece (w.named ownState)).state)
    rw [World.named_setNamed, if_pos rfl] at hreads
    simp only [reading, List.map_cons, World.performAll_cons, hperform, List.mapM_cons] at hreads ⊢
    rw [hreads]
    exact ⟨rfl, hprocess, hthread⟩

theorem meets_reading (pieces : List (Option (List UInt8)))
    (hown : w.named ownState = .initial) :
    (reading pieces).Meets w
      (some (.ok (readsObservation (readPieces w.currentEncoding .initial pieces)))) w.thread := by
  obtain ⟨hreads, hprocess, hthread⟩ := performAll_reading w pieces
  refine ⟨?_, hprocess, hthread⟩
  rw [hown] at hreads
  simp only [reading] at hreads ⊢
  rw [hreads, Option.map_some, readsObservation_forget]

/-- With memory for the buffer and to its end, a script shows what it shows anyway. -/
theorem meets_within {script : Script} {o : Except Obstacle Observation} (buffer : Option Nat)
    (host : Host) (endures : Encoding → Bool) (h : script.Meets w (some o) w.thread) :
    (within buffer host endures script).Meets w
      (if buffer.all host.reserves && endures w.currentEncoding then some o else none)
      w.thread := by
  rw [within]
  cases buffer.all host.reserves with
  | false => exact ⟨rfl, rfl, rfl⟩
  | true =>
    have hasked : w.perform .encodings = (w.encodings, w) := by rw [World.perform]
    obtain ⟨hshown, hprocess, hthread⟩ := h
    constructor
    · simp only [if_pos, World.performAll_cons, hasked, List.map_cons, World.encodings, hshown,
        Bool.true_and]
    · simp only [if_pos, World.performAll_cons, hasked, hprocess]
    · simp only [if_pos, World.performAll_cons, hasked, hthread]

end Script

section Operations

variable (w : World) (host : Host) (place : Placement)

/-- The script of an operation shows what the operation observes, and keeps the thread. -/
theorem Operation.meets_script (op : Operation) (inputs : Json)
    (hown : w.named ownState = .initial) :
    (op.script host place inputs).Meets w (op.observe host place w.currentEncoding inputs)
      w.thread := by
  cases op with
  | printToBuffer writer | printToMemory writer =>
    rw [script, observe]
    cases trial _ (host.complaint _ inputs) inputs with
    | error o => exact Script.meets_obstructed w o
    | ok trial => exact Script.meets_within w _ _ _ (Script.meets_printing w _)
  | decodeString =>
    rw [script, observe, trial]
    cases conversionInputs? "bytes" "max_chars" byte? inputs with
    | none => exact Script.meets_obstructed w _
    | some p =>
      obtain ⟨bytes, room⟩ := p
      refine Script.meets_within w _ _ _ ?_
      refine Script.meets_converting w .mbsrtowcs rfl (fun _ => rfl) ?_
      simp only [Conversion.run, decoded?, hown, map_length_replicate]
      rw [conversionOutput_store]
      · rfl
      · rintro rfl
        exact Encoding.decodeString_none_stored _ _ _
  | encodeString =>
    rw [script, observe, trial]
    cases conversionInputs? "wide" "max_bytes" wide? inputs with
    | none => exact Script.meets_obstructed w _
    | some p =>
      obtain ⟨wide, room⟩ := p
      refine Script.meets_within w _ _ _ ?_
      refine Script.meets_converting w .wcsrtombs rfl (fun _ => rfl) ?_
      simp only [Conversion.run, encoded?, hown, map_length_replicate]
      rw [conversionOutput_store]
      · rfl
      · rintro rfl
        exact Encoding.encodeString_none_stored _ _ _
  | decodeOne =>
    rw [script, observe, trial]
    cases chunks? inputs with
    | none => exact Script.meets_obstructed w _
    | some pieces => exact Script.meets_within w _ _ _ (Script.meets_reading w pieces hown)

/-- A script in a locale shows what is observed in its encoding, which the thread then uses. -/
theorem Script.meets_inLocale {script : Script}
    (observe : Encoding → Option (Except Obstacle Observation))
    {name : Option String} {locale : Option Locale} (hlocale : name.mapM Locale.parse = .ok locale)
    (h : ∀ u : World, u.named ownState = .initial →
      script.Meets u (observe u.currentEncoding) u.thread) :
    (inLocale name script).Meets w
      (observe ((locale.map (·.encoding)).getD w.process.encoding))
      { w.thread with override := locale.map (·.encoding) } := by
  have huse : (w.perform (.useInThread name)).2 =
      { w with thread := { w.thread with override := locale.map (·.encoding) } } := by
    simp only [World.perform, hlocale]
  generalize hu : (({ w with thread := { w.thread with
    override := locale.map (·.encoding) } } : World).perform (.reset (some ownState))).2 = u
  have hown : u.named ownState = .initial := by
    rw [← hu]
    exact (World.named_setNamed _ _ _ _).trans (if_pos rfl)
  obtain ⟨hshown, hprocess, hthread⟩ := h u hown
  constructor
  · simp only [inLocale, World.performAll_cons, huse, hu, List.map_cons, List.drop_succ_cons,
      List.drop_zero, hshown]
    rw [← hu]
    rfl
  · simp only [inLocale, World.performAll_cons, huse, hu, hprocess]
    rw [← hu]
    rfl
  · simp only [inLocale, World.performAll_cons, huse, hu, hthread]
    rw [← hu]
    rfl

namespace Case

variable (c : Case)

/-- A case that is begun, in the encoding of its locale or else of the process. -/
theorem execute_of_begun {c : Case} {locale : Option Locale}
    (hlocale : c.localeName?.mapM Locale.parse = .ok locale) (p : Process) (t : Thread) :
    c.execute host place p t =
      match c.observe host place ((locale.map (·.encoding)).getD p.encoding) with
      | none => (none, c.during t)
      | some observed => (some observed, { t with override := none }) := by
  rw [execute, during, hlocale]
  rfl

theorem execute_fst_of_begun {c : Case} {locale : Option Locale}
    (hlocale : c.localeName?.mapM Locale.parse = .ok locale) (p : Process) (t : Thread) :
    (c.execute host place p t).1 =
      c.observe host place ((locale.map (·.encoding)).getD p.encoding) := by
  rw [execute_of_begun host place hlocale]
  cases c.observe host place ((locale.map (·.encoding)).getD p.encoding) <;> rfl

/-- The thread after a case: it keeps an encoding that the case gave it only where the case was
broken off. -/
theorem execute_snd (p : Process) (t : Thread) :
    (c.execute host place p t).2 =
      if (c.execute host place p t).1.isSome && c.isBegun then { t with override := none }
      else c.during t := by
  cases hlocale : c.localeName?.mapM Locale.parse with
  | error e =>
    rw [execute, during, isBegun, hlocale]
    rfl
  | ok locale =>
    rw [execute_of_begun host place hlocale, isBegun, hlocale]
    cases c.observe host place ((locale.map (·.encoding)).getD p.encoding) <;> rfl

/-- The script of a case shows what the case observes, in the thread as it is meanwhile. -/
theorem meets_script :
    (c.script host place).Meets w (c.execute host place w.process w.thread).1
      (c.during w.thread) := by
  cases hlocale : c.localeName?.mapM Locale.parse with
  | error e =>
    have hrefused : w.perform (.useInThread c.localeName?) = (.refused e, w) := by
      simp only [World.perform, hlocale]
    simp only [script, execute, during, hlocale]
    constructor
    · simp only [World.performAll, hrefused, List.map_cons, List.map_nil]
    · simp only [World.performAll, hrefused]
    · simp only [World.performAll, hrefused]
  | ok locale =>
    rw [execute_fst_of_begun host place hlocale]
    simp only [script, during, hlocale]
    refine Script.meets_inLocale w (c.observe host place) hlocale fun u hown => ?_
    rw [observe]
    cases Operation.names.lookup c.function with
    | none => exact Script.meets_obstructed u _
    | some op => exact op.meets_script u host place c.inputs hown

theorem during_override (t : Thread) :
    { c.during t with override := none } = { t with override := none } := by
  rw [during]
  cases c.localeName?.mapM Locale.parse <;> rfl

/-- Behind a case the thread gives up an encoding that it was given. -/
theorem performAll_leave :
    (w.performAll c.leave).2 =
      { w with thread :=
          if c.isBegun then { w.thread with override := none } else w.thread } := by
  rw [leave]
  cases c.isBegun <;> rfl

end Case

end Operations

section Each

variable (host : Host) (family : String) (places : Nat → Placement) (c : Case) (rest : List Case)

theorem runCases_cons (p : Process) (t : Thread) :
    runCases host p family places t (c :: rest) =
      match (c.execute host (places 0) p t).1 with
      | none => (none, (c.execute host (places 0) p t).2)
      | some observed =>
          let run := runCases host p family (fun i => places (i + 1))
            (c.execute host (places 0) p t).2 rest
          (run.1.map (c.verdict family observed :: ·), run.2) := by
  rw [runCases]
  rcases c.execute host (places 0) p t with ⟨_ | observed, t'⟩ <;> rfl

namespace Case

theorem performEach_cons (w : World) :
    performEach host family places w (c :: rest) =
      match (c.script host (places 0)).shown?
          ((w.performAll (c.script host (places 0)).calls).1.map (·.1)) with
      | none => (none, (w.performAll (c.script host (places 0)).calls).2)
      | some observed =>
          let run := performEach host family (fun i => places (i + 1))
            ((w.performAll (c.script host (places 0)).calls).2.performAll c.leave).2 rest
          (run.1.map (c.verdict family observed :: ·), run.2) := by
  rw [performEach]

/-- The scripts of cases, one after another, show the verdicts of a run and do what it does to
the thread. -/
theorem performEach_eq (w : World) (cases : List Case) :
    (performEach host family places w cases).1 =
        (runCases host w.process family places w.thread cases).1 ∧
      (performEach host family places w cases).2.process = w.process ∧
      (performEach host family places w cases).2.thread =
        (runCases host w.process family places w.thread cases).2 := by
  induction cases generalizing w places with
  | nil => exact ⟨rfl, rfl, rfl⟩
  | cons c rest ih =>
    obtain ⟨hshown, hprocess, hthread⟩ := c.meets_script w host (places 0)
    have hafter := c.execute_snd host (places 0) w.process w.thread
    rw [performEach_cons, runCases_cons, hshown]
    cases hobserved : (c.execute host (places 0) w.process w.thread).1 with
    | none =>
      rw [hobserved] at hafter
      exact ⟨rfl, hprocess, hthread.trans hafter.symm⟩
    | some observed =>
      rw [hobserved, Option.isSome_some, Bool.true_and] at hafter
      have hleave := performAll_leave (w.performAll (c.script host (places 0)).calls).2 c
      rw [hthread, during_override, ← hafter] at hleave
      generalize ((w.performAll (c.script host (places 0)).calls).2.performAll c.leave).2 = u
        at hleave ⊢
      obtain ⟨hverdicts, hlast, hleft⟩ := ih (fun i => places (i + 1)) u
      have hsame : u.process = w.process := by rw [hleave, hprocess]
      have hthen : u.thread = (c.execute host (places 0) w.process w.thread).2 := by rw [hleave]
      rw [hsame, hthen] at hverdicts hleft
      exact ⟨congrArg (Option.map (c.verdict family observed :: ·)) hverdicts,
        hlast.trans hsame, hleft⟩

end Case

end Each

end Conformance

end FormattedText
