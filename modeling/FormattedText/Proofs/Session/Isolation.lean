import FormattedText.Proofs.Session.Frame

/-!
# Implicit states do not interfere

A thread has an implicit conversion state for each function that may be called without
one, and a session mixes calls of all functions with explicit states, with changes of the
locale and with other threads. The calls on one implicit state give the replies that they
give when the thread makes no others (`repliesOn_alone`): all that the rest of a session
can do to them is to choose the encoding. The theorem `implicit_states_isolated` states
this together with what each single call leaves alone.
-/

namespace FormattedText

namespace Encoding

/-- A locale that selects the encoding. -/
def localeName (enc : Encoding) : String := "C." ++ enc.charsetName

theorem parse_localeName (enc : Encoding) :
    Locale.parse enc.localeName = .ok ⟨enc.localeName, enc⟩ := by
  cases enc <;> rfl

end Encoding

/-- The calls that repeat a call in the locale of an encoding. -/
def Call.inLocale (enc : Encoding) : Call → List Call
  | convert _ _ conversion =>
      [.useInThread (some enc.localeName), .convert none none conversion]
  | call => [call]

/-- A call on an implicit state needs no name to find it. -/
theorem StateUsage.target?_none {usage : StateUsage} {name : Option String} {slot : Slot}
    (h : usage.target? name = some (.implicit slot)) :
    usage.target? none = some (.implicit slot) := by
  cases usage with
  | fresh => cases h
  | implicit => exact h
  | either =>
    cases name with
    | none => exact h
    | some => cases h

namespace World

/-- What the calls on an implicit state reply in a session. -/
def repliesOn (slot : Slot) (w : World) (calls : List Call) : List Reply :=
  let marked := calls.zip (w.performAll calls).1
  (marked.filter fun (call, _) => call.target? = some (.implicit slot)).map
    fun (_, report) => report.1

/-- The calls of a session on one implicit state, without the others. Each conversion is
made in the locale of the encoding that was in effect at it. -/
def alone (slot : Slot) (w : World) : List Call → List Call
  | [] => []
  | call :: rest =>
      if call.target? = some (.implicit slot) then
        call.inLocale (w.encodingAt call) ++ alone slot (w.perform call).2 rest
      else alone slot (w.perform call).2 rest

section Replies

variable {slot : Slot} {w u : World} {call : Call}

theorem repliesOn_cons (h : call.target? = some (.implicit slot)) (rest : List Call) :
    repliesOn slot w (call :: rest) =
      call.replyOn (w.encodingAt call) (w.state (.implicit slot)) ::
        repliesOn slot (w.perform call).2 rest := by
  simp only [repliesOn, performAll_cons, List.zip_cons_cons, List.filter_cons, h, decide_true,
    ite_true, List.map_cons, w.reply_perform h]

theorem repliesOn_cons_other (h : call.target? ≠ some (.implicit slot)) (rest : List Call) :
    repliesOn slot w (call :: rest) = repliesOn slot (w.perform call).2 rest := by
  simp only [repliesOn, performAll_cons, List.zip_cons_cons, List.filter_cons, h, decide_false,
    Bool.false_eq_true, ite_false]

theorem currentEncoding_useInThread (u : World) (enc : Encoding) :
    (u.perform (.useInThread (some enc.localeName))).2.currentEncoding = enc := by
  simp only [perform, Option.mapM_some, enc.parse_localeName]
  rfl

/-- A call that is repeated in the locale of an encoding converts in that encoding: it gives
the same reply, and leaves the same state, as it does where the encoding is in effect. -/
theorem repliesOn_inLocale (h : call.target? = some (.implicit slot)) (enc : Encoding)
    (u : World) (rest : List Call) :
    ∃ v : World,
      repliesOn slot u (call.inLocale enc ++ rest) =
        call.replyOn enc (u.state (.implicit slot)) :: repliesOn slot v rest ∧
      v.state (.implicit slot) = call.stateAfter enc (u.state (.implicit slot)) := by
  cases call with
  | convert encoding name c =>
    have ht : (Call.convert none none c).target? = some (.implicit slot) :=
      StateUsage.target?_none h
    have hother : (Call.useInThread (some enc.localeName)).target? ≠ some (.implicit slot) := nofun
    have hstate := u.state_perform (.useInThread (some enc.localeName)) (.implicit slot)
    have henc := u.currentEncoding_useInThread enc
    rw [if_neg hother] at hstate
    simp only [Call.inLocale, List.cons_append, List.nil_append, repliesOn_cons_other hother,
      repliesOn_cons ht]
    generalize (u.perform (.useInThread (some enc.localeName))).2 = v at hstate henc ⊢
    refine ⟨(v.perform (.convert none none c)).2, ?_, ?_⟩
    · simp only [encodingAt, Call.encodingOr, Option.getD_none, henc, hstate, Call.replyOn]
    · rw [state_perform, if_pos ht]
      simp only [encodingAt, Call.encodingOr, Option.getD_none, henc, hstate, Call.stateAfter]
  | implicit other reset =>
    refine ⟨_, repliesOn_cons h rest, ?_⟩
    rw [state_perform, if_pos h]
    rfl
  | reset name => cases name <;> simp [Call.target?] at h
  | _ => cases h

/-- In a session the calls on one implicit state reply as they do on their own. -/
theorem repliesOn_alone (h : u.state (.implicit slot) = w.state (.implicit slot))
    (calls : List Call) : repliesOn slot u (alone slot w calls) = repliesOn slot w calls := by
  induction calls generalizing w u with
  | nil => rfl
  | cons call rest ih =>
    have hstate := w.state_perform call (.implicit slot)
    by_cases ht : call.target? = some (.implicit slot)
    · obtain ⟨v, hreplies, hv⟩ := repliesOn_inLocale ht (w.encodingAt call) u
        (alone slot (w.perform call).2 rest)
      rw [if_pos ht] at hstate
      rw [alone, if_pos ht, hreplies, repliesOn_cons ht, h, ih (by rw [hv, hstate, h])]
    · rw [if_neg ht] at hstate
      rw [alone, if_neg ht, repliesOn_cons_other ht, ih (by rw [hstate, h])]

end Replies

/-- What a call leaves alone. -/
structure LeavesAlone (w : World) (call : Call) : Prop where
  /-- A call on an explicit state changes no implicit one. -/
  explicit : ∀ name, call.target? = some (.named name) →
    ∀ slot, (w.perform call).2.thread.implicit slot = w.thread.implicit slot
  /-- A call on an implicit state changes no other one, and no explicit state. -/
  implicit : ∀ slot, call.target? = some (.implicit slot) →
    (∀ other, other ≠ slot →
      (w.perform call).2.thread.implicit other = w.thread.implicit other) ∧
    ∀ name, (w.perform call).2.named name = w.named name
  /-- Another thread changes no implicit state, error number or locale of this one, and none
  of its explicit states. -/
  nested : ∀ calls, call = .thread calls →
    (w.perform call).2.thread = w.thread ∧ (w.perform call).2.states = w.states

theorem leavesAlone (w : World) (call : Call) : w.LeavesAlone call where
  explicit name h slot := by
    have hstate := w.state_perform call (.implicit slot)
    rw [h, if_neg nofun] at hstate
    exact hstate
  implicit slot h := by
    refine ⟨fun other hne => ?_, fun name => ?_⟩
    · have hstate := w.state_perform call (.implicit other)
      rw [h, if_neg fun heq => hne (StateRef.implicit.inj (Option.some.inj heq)).symm] at hstate
      exact hstate
    · have hstate := w.state_perform call (.named name)
      rw [h, if_neg nofun] at hstate
      exact hstate
  nested calls h := by
    rw [h, perform_thread]
    exact ⟨rfl, rfl⟩

/-- Implicit states never interfere. In a session of a thread, with any calls mixed in any
order, the calls on one implicit state reply as they do in a fresh thread that makes only
these calls, each in the encoding that was in effect at it. And no call changes a state that
is not its own, another thread's calls included. -/
theorem implicit_states_isolated (slot : Slot) (p q : Process) (calls : List Call) :
    repliesOn slot (newThread q) (alone slot (newThread p) calls) =
        repliesOn slot (newThread p) calls ∧
      ∀ w call, LeavesAlone w call :=
  ⟨repliesOn_alone (by rw [state_newThread, state_newThread]) calls, leavesAlone⟩

end World

end FormattedText
