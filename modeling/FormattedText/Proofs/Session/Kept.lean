import FormattedText.Proofs.Memory.Calls
import FormattedText.Proofs.Session.Reachable

/-!
# Conversion states in the memory of a session

A session keeps each conversion state as a record of eight bytes, all zero at first, and every
call reads and replaces the bytes of its target (`World.KeptIn`). The records stay those of the
states of the world, whatever encodings and directions the calls mix. So they stay well formed,
a record is that of the initial state exactly if it is all zero, and no call accesses anything
out of range, as long as callers keep their promises to the calls with C conventions.
-/

namespace FormattedText

namespace Call

/-- The record of the target of a call after it. -/
def recordAfter? (enc : Encoding) (r : StateRecord) : Call → Option StateRecord
  | convert _ _ conversion => (conversion.run? enc r).map (·.2)
  | .reset _ => some .zeroed
  | implicit _ forget => some (if forget then .zeroed else r)
  | _ => some r

/-- What a call relies on its caller for. -/
def Permitted (enc : Encoding) : Call → Prop
  | convert _ _ conversion => conversion.Permitted enc
  | _ => True

/-- A permitted call gives the record of what it makes of the state. -/
theorem recordAfter?_record {s : ConversionState} (h : s.Inherited) {enc : Encoding} {call : Call}
    (hp : call.Permitted enc) :
    call.recordAfter? enc s.record = some (call.stateAfter enc s).record := by
  cases call with
  | convert =>
    rw [recordAfter?, Conversion.run?_record h hp]
    rfl
  | implicit _ forget => cases forget <;> rfl
  | _ => rfl

end Call

namespace World

/-- The records in which conversion states are kept. -/
abbrev Records := StateRef → StateRecord

/-- The records after a call, which replaces that of its target. -/
def recordsAfter? (w : World) (call : Call) (records : Records) : Option Records :=
  match call.target? with
  | none => some records
  | some target =>
      (call.recordAfter? (w.encodingAt call) (records target)).map fun r ref =>
        if ref = target then r else records ref

/-- The conversion states of a world that a session comes to are kept in these records. -/
inductive KeptIn : World → Records → Prop where
  /-- The first thread of a process, as it starts. -/
  | start (environment : Locale.Environment) : KeptIn (start environment) fun _ => .zeroed
  /-- A thread that another one starts. -/
  | newThread {w : World} {records : Records} (h : KeptIn w records) :
      KeptIn (newThread w.process) fun _ => .zeroed
  /-- A thread after a call that accessed nothing out of range. -/
  | perform {w : World} {records after : Records} (h : KeptIn w records) (call : Call)
      (hp : call.Permitted (w.encodingAt call))
      (ha : w.recordsAfter? call records = some after) : KeptIn (w.perform call).2 after

namespace KeptIn

variable {w : World} {records : Records}

theorem reachable (h : w.KeptIn records) : w.Reachable := by
  induction h with
  | start environment => exact .start environment
  | newThread _ ih => exact ih.newThread
  | perform _ call _ _ ih => exact ih.perform call

/-- What a permitted call makes of records of the states of a world. -/
theorem recordsAfter?_record (hw : w.Reachable) {call : Call}
    (hp : call.Permitted (w.encodingAt call)) :
    w.recordsAfter? call (fun ref => (w.state ref).record) =
      some fun ref => ((w.perform call).2.state ref).record := by
  rw [recordsAfter?]
  cases ht : call.target? with
  | none =>
    refine congrArg some (funext fun ref => ?_)
    rw [state_perform, ht, if_neg nofun]
  | some target =>
    have hafter := Call.recordAfter?_record (hw.inherited target) hp
    simp only [hafter, Option.map_some]
    refine congrArg some (funext fun ref => ?_)
    rw [state_perform, ht]
    by_cases href : ref = target
    · rw [if_pos href, if_pos (congrArg some href.symm), href]
    · rw [if_neg href, if_neg fun heq => href (Option.some.inj heq).symm]

/-- The records are those of the states of the world. -/
theorem eq_record (h : w.KeptIn records) : records = fun ref => (w.state ref).record := by
  induction h with
  | start environment =>
    funext ref
    rw [World.start, ← World.newThread, state_newThread, ConversionState.record_initial]
  | newThread =>
    funext ref
    rw [state_newThread, ConversionState.record_initial]
  | perform h call hp ha ih =>
    rw [ih, recordsAfter?_record h.reachable hp] at ha
    exact (Option.some.inj ha).symm

/-- A session goes on after every permitted call. -/
theorem exists_perform (h : w.KeptIn records) (call : Call)
    (hp : call.Permitted (w.encodingAt call)) :
    ∃ after, (w.perform call).2.KeptIn after :=
  ⟨_, .perform h call hp (by rw [h.eq_record, recordsAfter?_record h.reachable hp])⟩

end KeptIn

end World

/-- What holds of a state and the record in which a session keeps it. -/
structure ConversionState.SafelyKept (s : ConversionState) (r : StateRecord) : Prop where
  /-- The counts, the shift and the padding are in order. -/
  wellFormed : r.WellFormed
  /-- The state is initial exactly if its bytes are all zero. -/
  isInitial_iff : Calls.mbsinit (some s) = true ↔ r.bytes = List.replicate 8 0
  /-- No permitted call accesses anything out of range, in any encoding, and each does to the
  record what it does to the state. -/
  in_range : ∀ (enc : Encoding) (c : Conversion), c.Permitted enc →
    c.run? enc r = some ((c.run enc s).1, (c.run enc s).2.record)
  /-- A decoder takes no more bytes than the source has. -/
  count_le : ∀ (enc : Encoding) (source : List UInt8) (n : Nat) (character : Option UInt32)
    (after : StateRecord),
    enc.decodeOne? (some source) r = some (.ok n, character, after) → n ≤ source.length

theorem ConversionState.Inherited.safelyKept_record {s : ConversionState} (h : s.Inherited) :
    s.SafelyKept s.record where
  wellFormed := s.wellFormed_record (Encoding.length_pending_of_inherited h)
  isInitial_iff := by
    have hlen := Encoding.length_pending_of_inherited h
    rw [← (s.wellFormed_record hlen).isInitial_iff, s.isInitial_record (Nat.le_succ_of_le hlen)]
    rfl
  in_range _ _ hc := Conversion.run?_record h hc
  count_le enc source n character after hn := by
    rw [Encoding.decodeOne?_record h] at hn
    exact Encoding.decodeOne_count_le h enc (Prod.mk.inj (Option.some.inj hn)).1

/-- Every conversion state of a session is kept safely, after any calls in any encodings, and so
is the fresh state of a call that has its own. -/
theorem World.KeptIn.safelyKept {w : World} {records : World.Records} (h : w.KeptIn records) :
    (∀ ref, (w.state ref).SafelyKept (records ref)) ∧
      ConversionState.initial.SafelyKept .zeroed := by
  refine ⟨fun ref => ?_, ConversionState.inherited_initial.safelyKept_record⟩
  rw [h.eq_record]
  exact (h.reachable.inherited ref).safelyKept_record

/-- Two bytes of a character in UTF-8 and a shift of another encoding in one state, and a write
of the longest character into room that is just large enough. -/
theorem World.safelyKept_mixed :
    ∃ records, KeptIn ((start .unset).performAll
        [.convert (some .utf8) (some "a") (.decodeOne (some [0xE4, 0xB8]) true),
          .convert (some .jis) (some "a") (.encodeOne 0x3021 (some (List.replicate 8 0xAA))),
          .convert none none (.wctomb 0x41 (some [0xAA]))]).2 records ∧
      records (.named "a") = ⟨2, 1, [0xE4, 0xB8, 0, 0], [0, 0]⟩ ∧
      ConversionState.SafelyKept ⟨[0xE4, 0xB8], .jis0208⟩ (records (.named "a")) := by
  obtain ⟨_, h⟩ := (KeptIn.start .unset).exists_perform
    (.convert (some .utf8) (some "a") (.decodeOne (some [0xE4, 0xB8]) true)) trivial
  obtain ⟨_, h⟩ := h.exists_perform
    (.convert (some .jis) (some "a") (.encodeOne 0x3021 (some (List.replicate 8 0xAA)))) trivial
  obtain ⟨records, h⟩ := h.exists_perform (.convert none none (.wctomb 0x41 (some [0xAA]))) rfl
  refine ⟨records, h, ?_, h.safelyKept.1 (.named "a")⟩
  rw [h.eq_record]
  rfl

end FormattedText
