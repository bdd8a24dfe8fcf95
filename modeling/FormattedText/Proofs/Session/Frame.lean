import FormattedText.Session.World

/-!
# What a call of a session works on

Every call works on at most one conversion state that outlives it: an implicit state of
the thread or a state that the caller keeps by name (`Call.target?`). `state_perform` says
all that a call does to the conversion states: its target is replaced, and every other
state stays. What a call on an implicit state replies depends on that state and on the
encoding in effect, and on nothing else (`reply_perform`).
-/

namespace FormattedText

/-- A conversion state that outlives the calls. -/
inductive StateRef where
  /-- The implicit state of a function. -/
  | implicit (slot : Slot)
  /-- A state that the caller keeps. -/
  | named (name : String)
  deriving DecidableEq, Repr

/-- The conversion state that a call of some usage works on, where the caller names one. -/
def StateUsage.target? (usage : StateUsage) (name : Option String) : Option StateRef :=
  match usage, name with
  | .either _, some name => some (.named name)
  | .either slot, none | .implicit slot, _ => some (.implicit slot)
  | .fresh, _ => none

namespace Call

/-- The conversion state that a call works on, if it is one that outlives the call. -/
def target? : Call → Option StateRef
  | convert _ name conversion => conversion.usage.target? name
  | .reset name => name.map .named
  | implicit slot _ => some (.implicit slot)
  | _ => none

/-- The target of a call after it, in the encoding in effect. -/
def stateAfter (enc : Encoding) (s : ConversionState) : Call → ConversionState
  | convert _ _ conversion => (conversion.run enc s).2
  | .reset _ => .initial
  | implicit _ forget => if forget then .initial else s
  | _ => s

/-- The encoding that a call converts in, where `current` is that of the thread. -/
def encodingOr (current : Encoding) : Call → Encoding
  | convert encoding _ _ => encoding.getD current
  | _ => current

/-- What a call on an implicit state replies, in the encoding in effect. -/
def replyOn (enc : Encoding) (s : ConversionState) : Call → Reply
  | convert _ _ conversion => .converted (conversion.run enc s).1
  | implicit _ _ => .state s
  | _ => .done

end Call

namespace World

/-- A thread that a process has just started. -/
def newThread (p : Process) : World := ⟨p, .fresh, []⟩

/-- A conversion state of a world. -/
def state (w : World) : StateRef → ConversionState
  | .implicit slot => w.thread.implicit slot
  | .named name => w.named name

/-- The encoding in effect at a call. -/
def encodingAt (w : World) (call : Call) : Encoding := call.encodingOr w.currentEncoding

@[simp] theorem state_newThread (p : Process) (ref : StateRef) :
    (newThread p).state ref = .initial := by
  cases ref <;> rfl

section Access

variable (w : World)

theorem named_setNamed (name other : String) (s : ConversionState) :
    (w.setNamed name s).named other = if other = name then s else w.named other := by
  by_cases h : other = name
  · subst h
    simp [setNamed, named]
  · have hb : (other == name) = false := beq_eq_false_iff_ne.mpr h
    simp only [setNamed, named, List.lookup_cons, hb, h, ite_false]
    congr 1
    induction w.states with
    | nil => rfl
    | cons entry rest ih =>
      obtain ⟨key, kept⟩ := entry
      by_cases hk : key = name
      · have hne : (other == key) = false := beq_eq_false_iff_ne.mpr (hk ▸ h)
        simp only [List.filter_cons, hk, ne_eq, not_true_eq_false, decide_false,
          Bool.false_eq_true, ite_false, ih, List.lookup_cons]
        rw [← hk, hne]
      · simp only [List.filter_cons, ne_eq, hk, not_false_eq_true, decide_true, ite_true,
          List.lookup_cons, ih]

/-- The replaced state of a world, and the others. -/
theorem state_setNamed (name : String) (s : ConversionState) (ref : StateRef) :
    (w.setNamed name s).state ref = if ref = .named name then s else w.state ref := by
  cases ref with
  | implicit slot => rfl
  | named other => simp only [state, named_setNamed, StateRef.named.injEq]

theorem state_setImplicit (slot : Slot) (s : ConversionState) (ref : StateRef) :
    (w.setImplicit slot s).state ref = if ref = .implicit slot then s else w.state ref := by
  cases ref with
  | implicit other => simp only [state, setImplicit, Thread.setImplicit, StateRef.implicit.injEq]
  | named name => rfl

@[simp] theorem state_publish (errno : Option Errno) (ref : StateRef) :
    (w.publish errno).state ref = w.state ref := by
  cases errno <;> cases ref <;> rfl

/-- A call runs on its target, if it has one. -/
theorem load_of_target? {usage : StateUsage} {name : Option String} {ref : StateRef}
    (h : usage.target? name = some ref) : w.load usage name = w.state ref := by
  cases usage with
  | fresh => cases h
  | implicit slot =>
    cases h
    rfl
  | either slot =>
    cases name <;> cases h <;> rfl

/-- A call puts its state back where it came from. -/
theorem state_save (usage : StateUsage) (name : Option String) (s : ConversionState)
    (ref : StateRef) :
    (w.save usage name s).state ref =
      if usage.target? name = some ref then s else w.state ref := by
  cases usage with
  | fresh => rfl
  | implicit slot =>
    simp only [save, state_setImplicit, StateUsage.target?, Option.some.injEq, eq_comm]
  | either slot =>
    cases name with
    | none => simp only [save, state_setImplicit, StateUsage.target?, Option.some.injEq, eq_comm]
    | some name =>
      simp only [save, state_setNamed, StateUsage.target?, Option.some.injEq, eq_comm]

end Access

section Calls

variable (w : World)

theorem perform_convert (encoding : Option Encoding) (name : Option String) (c : Conversion) :
    w.perform (.convert encoding name c) =
      (.converted (w.convert encoding name c).1, (w.convert encoding name c).2) := rfl

theorem perform_thread (calls : List Call) :
    w.perform (.thread calls) =
      (.thread ((newThread w.process).performAll calls).1,
        { w with process := ((newThread w.process).performAll calls).2.process }) := by
  rw [perform]
  rfl

theorem performAll_cons (call : Call) (rest : List Call) :
    w.performAll (call :: rest) =
      (((w.perform call).1, (w.perform call).2.thread.errno,
          call.stateName?.map (w.perform call).2.named) ::
          ((w.perform call).2.performAll rest).1,
        ((w.perform call).2.performAll rest).2) := by
  rw [performAll]

/-- A call replaces its target, and every other conversion state stays as it was. -/
theorem state_perform (call : Call) (ref : StateRef) :
    (w.perform call).2.state ref =
      if call.target? = some ref then call.stateAfter (w.encodingAt call) (w.state ref)
      else w.state ref := by
  cases call with
  | convert encoding name c =>
    simp only [perform_convert, convert, state_publish, state_save]
    by_cases h : (Call.convert encoding name c).target? = some ref
    · have hu : c.usage.target? name = some ref := h
      rw [if_pos h, if_pos hu, w.load_of_target? hu]
      rfl
    · have hu : ¬c.usage.target? name = some ref := h
      rw [if_neg h, if_neg hu]
  | reset name =>
    cases name with
    | none => rfl
    | some name =>
      simp only [perform, state_setNamed, Call.target?, Option.map_some, Option.some.injEq,
        Call.stateAfter, eq_comm]
  | implicit slot reset =>
    cases reset with
    | false =>
      simp only [perform, Call.stateAfter, Bool.false_eq_true, ite_false, ite_self]
    | true =>
      simp only [perform, ite_true, state_setImplicit, Call.target?, Option.some.injEq,
        Call.stateAfter, eq_comm]
  | thread calls =>
    rw [perform_thread]
    cases ref <;> rfl
  | useGlobally name =>
    simp only [perform]
    split <;> cases ref <;> rfl
  | useInThread name =>
    simp only [perform]
    split <;> cases ref <;> rfl
  | inspect | mbsinit | encodings | setEnvironment | setErrno | setLocale
  | maxCharacterLength => cases ref <;> rfl

/-- What a call on an implicit state replies is settled by that state and the encoding. -/
theorem reply_perform {call : Call} {slot : Slot}
    (h : call.target? = some (.implicit slot)) :
    (w.perform call).1 = call.replyOn (w.encodingAt call) (w.state (.implicit slot)) := by
  cases call with
  | convert encoding name c =>
    simp only [perform_convert, convert, w.load_of_target? h]
    rfl
  | implicit other reset =>
    simp only [Call.target?, Option.some.injEq, StateRef.implicit.injEq] at h
    subst h
    rfl
  | reset name => cases name <;> simp [Call.target?] at h
  | _ => cases h

end Calls

end World

end FormattedText
