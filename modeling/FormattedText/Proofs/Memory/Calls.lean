import FormattedText.Proofs.Memory.Text

/-!
# Calls in memory

Every call that converts text, as it works on the record of a state and on the memory that it is
given (`Conversion.run?`), with each access checked. The calls with C conventions rely on what
their callers promise (`Conversion.Permitted`): a destination for a character that has room for
the longest one, and a source that is readable up to its terminator or to the bound. No call
relies on anything else: `run?_record` says that a permitted call on the record of a state that
any encoding has left accesses nothing out of range, and does what `Conversion.run` does.
-/

namespace FormattedText

open Slice

namespace Calls

variable {α β : Type}

/-- The number of elements that a call examines, `n` of which it has examined already. Memory
behind the elements that the caller gives is not readable. -/
def extent? (isTerminator : α → Bool) (bound : Option Nat) (memory : List α) (n : Nat) :
    Option Nat :=
  if bound.any (· ≤ n) then some n
  else match _ : memory[n]? with
    | none => none
    | some a => if isTerminator a then some (n + 1) else extent? isTerminator bound memory (n + 1)
  termination_by memory.length - n
  decreasing_by
    have hlt := (List.getElem?_eq_some_iff.mp ‹_›).1
    omega

/-- A source is readable as far as a call may examine it. -/
def Readable (isTerminator : α → Bool) (bound : Option Nat) (memory : List α) : Prop :=
  memory.any isTerminator = true ∨ bound.any (· ≤ memory.length) = true

instance (isTerminator : α → Bool) (bound : Option Nat) (memory : List α) :
    Decidable (Readable isTerminator bound memory) :=
  inferInstanceAs (Decidable (_ ∨ _))

theorem isSpent_roomAfter (bound : Option Nat) (n : Nat) :
    isSpent (roomAfter bound n) = bound.any (· ≤ n) := by
  cases bound with
  | none => rfl
  | some b =>
    rw [Bool.eq_iff_iff]
    simp [isSpent, roomAfter, Nat.sub_eq_zero_iff_le]

theorem extent?_of_some {isTerminator : α → Bool} {bound : Option Nat} {memory : List α}
    {n : Nat} {a : α} (hn : bound.any (· ≤ n) = false) (ha : memory[n]? = some a) :
    extent? isTerminator bound memory n =
      if isTerminator a then some (n + 1) else extent? isTerminator bound memory (n + 1) := by
  rw [extent?, hn, if_neg Bool.false_ne_true]
  split
  · rename_i h
    rw [ha] at h
    cases h
  · rename_i h
    rw [ha] at h
    cases h
    rfl

/-- A readable source is examined within its memory. -/
theorem extent?_append (isTerminator : α → Bool) (bound : Option Nat) (passed rest : List α)
    (h : rest.any isTerminator = true ∨ bound.any (· ≤ (passed ++ rest).length) = true) :
    ∃ behind, rest = examined isTerminator (roomAfter bound passed.length) rest ++ behind ∧
      extent? isTerminator bound (passed ++ rest) passed.length =
        some (passed ++ examined isTerminator (roomAfter bound passed.length) rest).length := by
  induction rest generalizing passed with
  | nil =>
    rw [List.append_nil] at h
    rw [extent?, if_pos (h.resolve_left Bool.false_ne_true), examined, List.append_nil]
    exact ⟨[], rfl, rfl⟩
  | cons a rest ih =>
    have hspent := isSpent_roomAfter bound passed.length
    rw [examined, hspent]
    cases hstop : bound.any (· ≤ passed.length) with
    | true =>
      rw [extent?, if_pos hstop, if_pos rfl, List.append_nil]
      exact ⟨a :: rest, rfl, rfl⟩
    | false =>
      have hget : (passed ++ a :: rest)[passed.length]? = some a := by
        rw [List.getElem?_append_right (Nat.le_refl _), Nat.sub_self, List.getElem?_cons_zero]
      rw [extent?_of_some hstop hget, if_neg Bool.false_ne_true]
      cases ha : isTerminator a with
      | true =>
        rw [if_pos rfl, if_pos rfl, List.length_append]
        exact ⟨rest, rfl, rfl⟩
      | false =>
        rw [if_neg Bool.false_ne_true, if_neg Bool.false_ne_true, roomAfter_roomAfter]
        rw [List.any_cons, ha, Bool.false_or, List.append_cons] at h
        obtain ⟨behind, hrest, hextent⟩ := ih (passed ++ [a]) h
        rw [List.length_append, List.length_singleton] at hrest hextent
        simp only [List.append_assoc, List.singleton_append] at hextent
        exact ⟨behind, congrArg (a :: ·) hrest, hextent⟩

/-- A readable source is examined up to its terminator or to the bound. -/
theorem extent?_eq {isTerminator : α → Bool} {bound : Option Nat} {memory : List α}
    (h : Readable isTerminator bound memory) :
    (extent? isTerminator bound memory 0).bind (front? memory) =
      some (examined isTerminator bound memory) := by
  have hroom : roomAfter bound 0 = bound := by cases bound <;> rfl
  obtain ⟨behind, hmemory, hextent⟩ := extent?_append isTerminator bound [] memory h
  rw [List.length_nil, List.nil_append, List.nil_append, hroom] at hextent
  rw [List.length_nil, hroom] at hmemory
  generalize examined isTerminator bound memory = range at hextent hmemory
  rw [hextent, Option.bind_some, hmemory, front?_append]

/-- Converts the part of a source that a call examines. -/
def convertText? (isTerminator : α → Bool) (bound : Option Nat) (memory : List α)
    (destination : Destination β) (convert? : List α → Option (TextReport α β)) :
    Option (Returned × Destination β × Option Nat × StateRecord) := do
  let extent ← extent? isTerminator bound memory 0
  let range ← front? memory extent
  let (result, stored, cursor, r') ← convert? range
  let position :=
    if destination.isSome then resumePosition isTerminator range cursor else some 0
  some (.ofRestartable result, stored, position, r')

/-- What is reported of a call into a destination. -/
def report (destination : Destination β) (call : TextCall β) :
    Returned × Destination β × Option Nat × StateRecord :=
  (call.returned, Conversion.store call.stored destination, call.position, call.state.record)

theorem convertText?_eq {isTerminator : α → Bool} {bound : Option Nat} {memory : List α}
    (h : Readable isTerminator bound memory) (destination : Destination β)
    (convert? : List α → Option (TextReport α β)) {conversion : StringConversion α β}
    (hc : convert? (examined isTerminator bound memory) =
      some (conversion.report destination)) :
    convertText? isTerminator bound memory destination convert? =
      some (report destination (textCall isTerminator (examined isTerminator bound memory)
        destination.isSome conversion)) := by
  have hrange := extent?_eq h
  simp only [convertText?, Option.bind_eq_bind, ← Option.bind_assoc, hrange, Option.bind_some, hc]
  rfl

/-- Decodes at most `bound` bytes of a source, restartably. -/
def mbsnrtowcs? (enc : Encoding) (source : Option (List UInt8)) (bound : Option Nat)
    (destination : Destination UInt32) (r : StateRecord) :
    Option (Returned × Destination UInt32 × Option Nat × StateRecord) :=
  match source with
  | none => some (.value 0, destination, none, r)
  | some memory => convertText? (· == 0) bound memory destination fun range =>
      enc.decodeString? destination (some range) r

/-- Encodes at most `bound` characters of a source, restartably. -/
def wcsnrtombs? (enc : Encoding) (source : Option (List UInt32)) (bound : Option Nat)
    (destination : Destination UInt8) (r : StateRecord) :
    Option (Returned × Destination UInt8 × Option Nat × StateRecord) :=
  match source with
  | none => some (.value 0, destination, none, r)
  | some memory => convertText? (· == 0) bound memory destination fun range =>
      enc.encodeString? destination (some range) r

/-- Writes a character to a buffer, and from there to a destination, of which the call does not
know how long it is. -/
def writeThrough? (enc : Encoding) (wc : UInt32) (destination : Destination UInt8)
    (r : StateRecord) : Option (Except Failure Nat × Destination UInt8 × StateRecord) := do
  let (result, buffer, r') ←
    enc.encodeOne? (some (List.replicate Encoding.longestCharacter 0)) wc r
  match result, buffer, destination with
  | .ok n, some buffer, some elements =>
      let bytes ← front? buffer n
      let stored ← overwrite? elements 0 bytes
      some (result, some stored, r')
  | _, _, _ => some (result, destination, r')

/-- The record that is kept by a call that forgets its state on failure. -/
def forgetRecordOnFailure (result : Except Failure Nat) (r : StateRecord) : StateRecord :=
  match result with
  | .ok _ => r
  | .error _ => .zeroed

section Records

variable {s : ConversionState} {enc : Encoding}

theorem mbsnrtowcs?_record (h : s.Inherited) {source : Option (List UInt8)}
    {bound : Option Nat} (hr : ∀ memory, source = some memory → Readable (· == 0) bound memory)
    (destination : Destination UInt32) :
    mbsnrtowcs? enc source bound destination s.record =
      some (report destination (mbsnrtowcs enc (destination.map List.length) source bound s)) := by
  match source with
  | none => cases destination <;> rfl
  | some memory =>
    have hd := Encoding.decodeString?_record h enc destination
      (some (examined (· == 0) bound memory))
    rw [mbsnrtowcs?, convertText?_eq (hr memory rfl) destination _ hd, mbsnrtowcs,
      Option.isSome_map]

theorem wcsnrtombs?_record (h : s.Inherited) {source : Option (List UInt32)}
    {bound : Option Nat} (hr : ∀ memory, source = some memory → Readable (· == 0) bound memory)
    (destination : Destination UInt8) :
    wcsnrtombs? enc source bound destination s.record =
      some (report destination (wcsnrtombs enc (destination.map List.length) source bound s)) := by
  match source with
  | none => cases destination <;> rfl
  | some memory =>
    have he := Encoding.encodeString?_record h enc destination
      (some (examined (· == 0) bound memory))
    rw [wcsnrtombs?, convertText?_eq (hr memory rfl) destination _ he, wcsnrtombs,
      Option.isSome_map]

theorem writeThrough?_record (wc : UInt32) {destination : Destination UInt8}
    (hd : ∀ elements, destination = some elements → enc.maxCharacterLength ≤ elements.length)
    (s : ConversionState) :
    writeThrough? enc wc destination s.record =
      let write := enc.encodeOne (some Encoding.longestCharacter) wc s
      some (write.result, Conversion.store write.stored destination, write.state.record) := by
  have hwrite := enc.encodeOne?_record (some (List.replicate Encoding.longestCharacter 0)) wc s
  rw [Option.map_some, List.length_replicate] at hwrite
  cases he : enc.encode s wc with
  | none =>
    simp only [writeThrough?, hwrite, Encoding.encodeOne, he, Option.bind_eq_bind,
      Option.bind_some]
    cases destination <;> rfl
  | some form =>
    obtain ⟨bytes, t⟩ := form
    have hmax := (Encoding.length_of_encode he).2
    have hlong : ¬Encoding.longestCharacter < bytes.length :=
      Nat.not_lt.mpr (Nat.le_trans hmax enc.maxCharacterLength_le)
    simp only [writeThrough?, hwrite, Encoding.encodeOne, he, hlong, ite_false,
      Option.bind_eq_bind, Option.bind_some, Conversion.store, Option.map_some]
    cases destination with
    | none => rfl
    | some elements =>
      have hfront : front? (overlay bytes (List.replicate Encoding.longestCharacter 0))
          bytes.length = some bytes := front?_append bytes _
      have hstore := overwrite?_zero (Nat.le_trans hmax (hd elements rfl))
      simp only [hfront, hstore, Option.bind_some]
      rfl

@[simp] theorem forgetRecordOnFailure_record (result : Except Failure Nat)
    (s : ConversionState) :
    forgetRecordOnFailure result s.record = (forgetOnFailure result s).record := by
  cases result <;> rfl

end Records

end Calls

namespace Conversion

/-- The effect of a call in an encoding on the record of a state. -/
def run? (enc : Encoding) (r : StateRecord) : Conversion → Option (Answer × StateRecord)
  | decodeOne source hasSlot => do
      let (result, character, r') ← enc.decodeOne? source r
      some (.character result (slotted hasSlot character), r')
  | encodeOne wc destination => do
      let (result, stored, r') ← enc.encodeOne? destination wc r
      some (.bytes result stored, r')
  | decodeString source destination => do
      let (result, stored, cursor, r') ← enc.decodeString? destination source r
      some (.decoded result stored cursor, r')
  | encodeString source destination => do
      let (result, stored, cursor, r') ← enc.encodeString? destination source r
      some (.encoded result stored cursor, r')
  | nextLength source => do
      let (result, _, r') ← enc.decodeOne? (some source) r
      some (.length result, r')
  | implicitLength source => do
      let (result, _, r') ← enc.decodeOne? source r
      some (.length result, Calls.forgetRecordOnFailure result r')
  | decodeWhole source destination => do
      let (result, stored, cursor, r') ← enc.decodeString? (some destination) (some source) r
      some (.decoded result stored cursor, r')
  | encodeWhole source destination => do
      let (result, stored, cursor, r') ← enc.encodeString? (some destination) (some source) r
      some (.encoded result stored cursor, r')
  | mbtowc source hasSlot => do
      let (result, character, r') ← enc.decodeOne? source r
      some (.returnedCharacter (.ofResult result) (slotted hasSlot character),
        Calls.forgetRecordOnFailure result r')
  | mblen source => do
      let (result, _, r') ← enc.decodeOne? source r
      some (.returned (.ofResult result), Calls.forgetRecordOnFailure result r')
  | wctomb wc destination =>
      if destination.isSome then do
        let (result, stored, r') ← Calls.writeThrough? enc wc destination r
        some (.returnedBytes (.ofResult result) stored, Calls.forgetRecordOnFailure result r')
      else some (.returnedBytes (.int (if enc.isStateful then 1 else 0)) none, .zeroed)
  | mbrtowc source hasSlot => do
      let (result, character, r') ← enc.decodeOne? (some (source.getD [0])) r
      let character := if source.isSome then character else none
      some (.returnedCharacter (.ofRestartable result) (slotted hasSlot character), r')
  | mbrlen source => do
      let (result, _, r') ← enc.decodeOne? (some (source.getD [0])) r
      some (.returned (.ofRestartable result), r')
  | wcrtomb wc destination => do
      let (result, stored, r') ←
        Calls.writeThrough? enc (if destination.isSome then wc else 0) destination r
      some (.returnedBytes (.ofRestartable result) stored, r')
  | mbsnrtowcs hasHandle source bound destination =>
      if hasHandle then do
        let (returned, stored, position, r') ← Calls.mbsnrtowcs? enc source bound destination r
        some (.returnedDecoded returned stored position, r')
      else some (.returnedDecoded (.failed .invalidArgument) destination (Calls.unmoved source), r)
  | wcsnrtombs hasHandle source bound destination =>
      if hasHandle then do
        let (returned, stored, position, r') ← Calls.wcsnrtombs? enc source bound destination r
        some (.returnedEncoded returned stored position, r')
      else some (.returnedEncoded (.failed .invalidArgument) destination (Calls.unmoved source), r)
  | mbstowcs source destination => do
      let (returned, stored, _, r') ← Calls.mbsnrtowcs? enc source none destination r
      some (.returnedDecoded returned stored (Calls.unmoved source), r')
  | wcstombs source destination => do
      let (returned, stored, _, r') ← Calls.wcsnrtombs? enc source none destination r
      some (.returnedEncoded returned stored (Calls.unmoved source), r')

/-- What a call relies on its caller for. -/
def Permitted (enc : Encoding) : Conversion → Prop
  | wctomb _ destination | wcrtomb _ destination =>
      destination.all (enc.maxCharacterLength ≤ ·.length) = true
  | mbsnrtowcs hasHandle source bound _ =>
      hasHandle = true → ∀ memory ∈ source, Calls.Readable (· == 0) bound memory
  | wcsnrtombs hasHandle source bound _ =>
      hasHandle = true → ∀ memory ∈ source, Calls.Readable (· == 0) bound memory
  | mbstowcs source _ => ∀ memory ∈ source, Calls.Readable (· == 0) none memory
  | wcstombs source _ => ∀ memory ∈ source, Calls.Readable (· == 0) none memory
  | _ => True

instance (enc : Encoding) (c : Conversion) : Decidable (c.Permitted enc) :=
  match c with
  | wctomb _ _ | wcrtomb _ _ => inferInstanceAs (Decidable (_ = true))
  | mbsnrtowcs _ _ _ _ => inferInstanceAs (Decidable (_ = true → ∀ memory ∈ _, _))
  | wcsnrtombs _ _ _ _ => inferInstanceAs (Decidable (_ = true → ∀ memory ∈ _, _))
  | mbstowcs _ _ => inferInstanceAs (Decidable (∀ memory ∈ _, _))
  | wcstombs _ _ => inferInstanceAs (Decidable (∀ memory ∈ _, _))
  | decodeOne _ _ | encodeOne _ _ | decodeString _ _ | encodeString _ _ | nextLength _
  | implicitLength _ | decodeWhole _ _ | encodeWhole _ _ | mbtowc _ _ | mblen _ | mbrtowc _ _
  | mbrlen _ => inferInstanceAs (Decidable True)

/-- A permitted call on the record of a state that any encoding has left accesses nothing out of
range, and does what it does to the state. -/
theorem run?_record {s : ConversionState} (h : s.Inherited) {enc : Encoding} {c : Conversion}
    (hc : c.Permitted enc) :
    c.run? enc s.record = some ((c.run enc s).1, (c.run enc s).2.record) := by
  cases c with
  | decodeOne | nextLength | implicitLength | mbtowc | mblen | mbrtowc | mbrlen =>
    simp only [run?, Encoding.decodeOne?_record h, Option.bind_eq_bind, Option.bind_some,
      CharacterRead.report, Calls.forgetRecordOnFailure_record]
    rfl
  | encodeOne =>
    simp only [run?, Encoding.encodeOne?_record, Option.bind_eq_bind, Option.bind_some]
    rfl
  | decodeString | decodeWhole =>
    simp only [run?, Encoding.decodeString?_record h, Option.bind_eq_bind, Option.bind_some,
      StringConversion.report]
    rfl
  | encodeString | encodeWhole =>
    simp only [run?, Encoding.encodeString?_record h, Option.bind_eq_bind, Option.bind_some,
      StringConversion.report]
    rfl
  | wctomb wc destination =>
    cases destination with
    | none => rfl
    | some elements =>
      have hroom : ∀ e, some elements = some e → enc.maxCharacterLength ≤ e.length :=
        fun e he => Option.some.inj he ▸ of_decide_eq_true hc
      simp only [run?, Option.isSome_some, ite_true, Calls.writeThrough?_record wc hroom,
        Option.bind_eq_bind, Option.bind_some, Calls.forgetRecordOnFailure_record]
      rfl
  | wcrtomb wc destination =>
    have hroom : ∀ e, destination = some e → enc.maxCharacterLength ≤ e.length := by
      rintro e rfl
      exact of_decide_eq_true hc
    simp only [run?, Calls.writeThrough?_record _ hroom, Option.bind_eq_bind, Option.bind_some]
    cases destination <;> rfl
  | mbsnrtowcs hasHandle =>
    cases hasHandle with
    | false => cases ‹Destination UInt32› <;> rfl
    | true =>
      simp only [run?, ite_true, Calls.mbsnrtowcs?_record h (hc rfl), Option.bind_eq_bind,
        Option.bind_some, Calls.report]
      rfl
  | wcsnrtombs hasHandle =>
    cases hasHandle with
    | false => cases ‹Destination UInt8› <;> rfl
    | true =>
      simp only [run?, ite_true, Calls.wcsnrtombs?_record h (hc rfl), Option.bind_eq_bind,
        Option.bind_some, Calls.report]
      rfl
  | mbstowcs =>
    simp only [run?, Calls.mbsnrtowcs?_record h hc, Option.bind_eq_bind, Option.bind_some,
      Calls.report]
    rfl
  | wcstombs =>
    simp only [run?, Calls.wcsnrtombs?_record h hc, Option.bind_eq_bind, Option.bind_some,
      Calls.report]
    rfl

end Conversion

end FormattedText
