import FormattedText.Calls.Text
import FormattedText.Proofs.Multibyte.Blocks
import FormattedText.Proofs.Multibyte.Inherited

/-!
# Counting before converting

A string call without a destination only counts. From the same state it returns what a call
returns that is given room for more than its source can need, and leaves the same state
(`counts_like_conversion`).

A caller may then make the same call with room for what was counted and the terminator. The count
is right for the state that it was made with. But it is made in the state of the caller, and leaves
there the state in which its own conversion ends, from which the next call starts.
`count_then_convert` says what follows: the next call gives what was counted if it is made with a
copy of the state, or if the count has left the state as it was; and so it does in the initial
state for a string with its terminator. A count that ends in a shift, or inside a character, does
not foretell the next call (`count_leaves_shift`).
-/

namespace FormattedText

/-- The least room in which a conversion is not stopped by the end of the destination. Only the
terminator needs no room behind it. -/
def Progress.roomNeeded {α β : Type} (p : Progress α β) : Nat :=
  match p.ending with
  | .terminated => p.converted.length
  | _ => p.converted.length + 1

theorem Progress.roomNeeded_after {α β : Type} (front : List β) (p : Progress α β) :
    (p.after front).roomNeeded = front.length + p.roomNeeded := by
  obtain ⟨converted, ending, rest, s⟩ := p
  cases ending <;> simp only [roomNeeded, after, List.length_append, Nat.add_assoc]

/-- What a conversion returns. -/
def Progress.count {α β : Type} (p : Progress α β) : Except Failure Nat :=
  match p.ending with
  | .terminated => .ok (p.converted.length - 1)
  | .invalid => .error .invalidSequence
  | .full | .drained => .ok p.converted.length

/-- The ways in which a conversion without a bound can end, where `ended` says whether its source
has a terminator. -/
structure Progress.EndsBy {α β : Type} [OfNat β 0] (p : Progress α β) (ended : Bool) : Prop where
  /-- It is not stopped by the end of a destination. -/
  unbounded : p.ending ≠ .full
  /-- A terminator that ends it is the last element converted. -/
  terminated : p.ending = .terminated → ended = true ∧ ∃ text, p.converted = text ++ [0]
  /-- It goes past no terminator. -/
  drained : p.ending = .drained → ended = false

section EndsBy

variable {α β : Type} [OfNat β 0] {p : Progress α β} {ended : Bool} {n : Nat}

theorem Progress.endsBy_drained (text : List β) (rest : List α) (s : ConversionState) :
    (⟨text, .drained, rest, s⟩ : Progress α β).EndsBy false :=
  ⟨nofun, nofun, fun _ => rfl⟩

theorem Progress.endsBy_invalid (text : List β) (rest : List α) (s : ConversionState)
    (ended : Bool) : (⟨text, .invalid, rest, s⟩ : Progress α β).EndsBy ended :=
  ⟨nofun, nofun, nofun⟩

theorem Progress.endsBy_terminated (text : List β) (rest : List α) (s : ConversionState) :
    (⟨text ++ [0], .terminated, rest, s⟩ : Progress α β).EndsBy true :=
  ⟨nofun, fun _ => ⟨rfl, text, rfl⟩, nofun⟩

theorem Progress.EndsBy.after (h : p.EndsBy ended) (front : List β) :
    (p.after front).EndsBy ended where
  unbounded := h.unbounded
  terminated hend := by
    obtain ⟨hended, text, htext⟩ := h.terminated hend
    refine ⟨hended, front ++ text, ?_⟩
    rw [Progress.after, htext, List.append_assoc]
  drained := h.drained

/-- The count tells what is converted: that many elements, and the terminator. -/
theorem Progress.EndsBy.converted (h : p.EndsBy ended) (hn : p.count = .ok n) :
    ∃ text, text.length = n ∧ p.converted = if ended then text ++ [0] else text := by
  obtain ⟨converted, ending, rest, s⟩ := p
  cases ending with
  | terminated =>
    obtain ⟨rfl, text, rfl⟩ := h.terminated rfl
    refine ⟨text, ?_, rfl⟩
    have hlen := Except.ok.inj hn
    rwa [List.length_append, List.length_singleton, Nat.add_sub_cancel] at hlen
  | full => exact absurd rfl h.unbounded
  | drained =>
    cases h.drained rfl
    exact ⟨converted, Except.ok.inj hn, rfl⟩
  | invalid => cases hn

/-- One element more than was counted is all the room that is needed. -/
theorem Progress.EndsBy.roomNeeded (h : p.EndsBy ended) (hn : p.count = .ok n) :
    p.roomNeeded = n + 1 := by
  obtain ⟨converted, ending, rest, s⟩ := p
  cases ending with
  | terminated =>
    obtain ⟨_, text, rfl⟩ := h.terminated rfl
    have hlen := Except.ok.inj hn
    rw [List.length_append, List.length_singleton, Nat.add_sub_cancel] at hlen
    rw [Progress.roomNeeded, List.length_append, List.length_singleton, hlen]
  | full => exact absurd rfl h.unbounded
  | drained => exact congrArg (· + 1) (Except.ok.inj hn)
  | invalid => cases hn

end EndsBy

namespace Encoding

variable {enc : Encoding} {s : ConversionState} {room : Nat}

/-- Enough room is as good as no bound. -/
theorem encodeAll_of_roomNeeded {wide : List UInt32}
    (h : (enc.encodeAll none s wide).roomNeeded ≤ room) :
    enc.encodeAll (some room) s wide = enc.encodeAll none s wide := by
  induction wide generalizing s room with
  | nil => rfl
  | cons wc rest ih =>
    rw [encodeAll_none_cons] at h ⊢
    cases he : enc.encode s wc with
    | none =>
      rw [he] at h
      exact encodeAll_refused he (hasRoomFor_some h) rest
    | some written =>
      obtain ⟨bytes, t⟩ := written
      simp only [he] at h
      by_cases hz : wc = 0
      · simp only [hz, ite_true] at h he ⊢
        exact encodeAll_cons he (hasRoomFor_some h) rest
      · rw [if_neg hz, Progress.roomNeeded_after] at h
        have hle : bytes.length ≤ room := Nat.le_of_add_right_le h
        rw [encodeAll_cons he (hasRoomFor_some hle), roomAfter, Option.map_some,
          ih (Nat.le_sub_of_add_le' h)]

/-- Enough room is as good as no bound. -/
theorem decodeAll_of_roomNeeded {source : List UInt8}
    (h : (enc.decodeAll none s source).roomNeeded ≤ room) :
    enc.decodeAll (some room) s source = enc.decodeAll none s source := by
  generalize hnone : (none : Option Nat) = unbounded at h ⊢
  fun_induction decodeAll enc unbounded s source generalizing room with
  | case1 unbounded s source hspent =>
    subst hnone
    cases hspent
  | case2 unbounded s hspent => rw [decodeAll, isSpent_some h]; rfl
  | case3 unbounded s hspent b rest wc t hd =>
    rw [decodeAll, isSpent_some h]
    simp only [hd]
    rfl
  | case4 unbounded s hspent b rest wc n t hd ih =>
    rw [Progress.roomNeeded_after, List.length_singleton] at h
    have hpos : 0 < room := Nat.lt_of_lt_of_le (Nat.lt_add_right _ Nat.one_pos) h
    have hmore := @ih (room - 1) (hnone ▸ rfl) (by omega)
    rw [decodeAll, isSpent_some hpos]
    simp only [hd, roomAfter, Option.map_some, hmore]
    rfl
  | case5 unbounded s hspent b rest t hd =>
    rw [decodeAll, isSpent_some h]
    simp only [hd]
    rfl
  | case6 unbounded s hspent b rest hd =>
    rw [decodeAll, isSpent_some h]
    simp only [hd]
    rfl

/-- The terminator can be written in every state, as the last of its bytes. -/
theorem exists_encode_zero (enc : Encoding) (s : ConversionState) :
    ∃ front t, enc.encode s 0 = some (front ++ [0], t) := by
  cases enc with
  | jis => exact ⟨escapeBetween s.shift .ascii, _, rfl⟩
  | _ => exact ⟨[], s, rfl⟩

theorem encodeAll_endsBy (enc : Encoding) (s : ConversionState) (wide : List UInt32) :
    (enc.encodeAll none s wide).EndsBy (wide.contains 0) := by
  induction wide generalizing s with
  | nil => exact Progress.endsBy_drained [] [] s
  | cons wc rest ih =>
    rw [encodeAll_none_cons]
    cases he : enc.encode s wc with
    | none => exact Progress.endsBy_invalid [] (wc :: rest) s _
    | some written =>
      obtain ⟨bytes, t⟩ := written
      by_cases hz : wc = 0
      · subst hz
        obtain ⟨front, u, hzero⟩ := enc.exists_encode_zero s
        rw [hzero] at he
        cases he
        exact Progress.endsBy_terminated front rest t
      · simp only [hz, ite_false]
        have hmore : (wc :: rest).contains 0 = rest.contains 0 := by
          rw [List.contains_cons, beq_false_of_ne (Ne.symm hz), Bool.false_or]
        exact hmore ▸ (ih t).after bytes

theorem decodeAll_endsBy (h : s.Inherited) (hh : enc.held? s = none) (source : List UInt8) :
    (enc.decodeAll none s source).EndsBy (source.contains 0) := by
  have hrun := decodeAll_inherited h enc none source
  generalize enc.decodeAll none s source = p at hrun ⊢
  cases hrun with
  | @terminated text rest t taken hsrc _ hz =>
    have hmem := List.mem_append_right taken (hz.resolve_left fun hheld => hheld hh)
    rw [List.contains_iff_mem.mpr (hsrc ▸ hmem)]
    exact Progress.endsBy_terminated text rest t
  | @drained text t h0 =>
    rw [Bool.eq_false_iff.mpr fun hc => h0 (List.contains_iff_mem.mp hc)]
    exact Progress.endsBy_drained text [] t
  | full _ hroom => exact absurd rfl hroom
  | @invalid text rest t => exact Progress.endsBy_invalid text rest t _

theorem encodeString_result (enc : Encoding) (capacity : Option Nat) (wide : List UInt32)
    (s : ConversionState) :
    (enc.encodeString capacity (some wide) s).result = (enc.encodeAll capacity s wide).count := by
  simp only [encodeString, Progress.count]
  generalize enc.encodeAll capacity s wide = p
  cases p.ending <;> rfl

theorem encodeString_stored (enc : Encoding) (room : Nat) (wide : List UInt32)
    (s : ConversionState) :
    (enc.encodeString (some room) (some wide) s).stored =
      (enc.encodeAll (some room) s wide).converted := by
  simp only [encodeString]
  split <;> rfl

theorem encodeString_none_stored (enc : Encoding) (wide : List UInt32) (s : ConversionState) :
    (enc.encodeString none (some wide) s).stored = [] := by
  simp only [encodeString]
  split <;> rfl

theorem decodeString_result (enc : Encoding) (capacity : Option Nat) (source : List UInt8)
    (s : ConversionState) :
    (enc.decodeString capacity (some source) s).result =
      (enc.decodeAll capacity s source).count := by
  simp only [decodeString, Progress.count]
  generalize enc.decodeAll capacity s source = p
  cases p.ending <;> rfl

theorem decodeString_stored (enc : Encoding) (room : Nat) (source : List UInt8)
    (s : ConversionState) :
    (enc.decodeString (some room) (some source) s).stored =
      (enc.decodeAll (some room) s source).converted := by
  simp only [decodeString]
  split <;> rfl

theorem decodeString_none_stored (enc : Encoding) (source : List UInt8) (s : ConversionState) :
    (enc.decodeString none (some source) s).stored = [] := by
  simp only [decodeString]
  split <;> rfl

theorem decodeString_none_cursor (enc : Encoding) (source : List UInt8) (s : ConversionState) :
    (enc.decodeString none (some source) s).cursor = some source := by
  simp only [decodeString]
  split <;> rfl

theorem encodeString_none_cursor (enc : Encoding) (wide : List UInt32) (s : ConversionState) :
    (enc.encodeString none (some wide) s).cursor = some wide := by
  simp only [encodeString]
  split <;> rfl

/-- How far a conversion gets decides on the state that it leaves. -/
theorem encodeString_state_congr {c d : Option Nat} {wide : List UInt32}
    (h : enc.encodeAll c s wide = enc.encodeAll d s wide) :
    (enc.encodeString c (some wide) s).state = (enc.encodeString d (some wide) s).state := by
  simp only [encodeString, h]
  split <;> rfl

theorem decodeString_state_congr {c d : Option Nat} {source : List UInt8}
    (h : enc.decodeAll c s source = enc.decodeAll d s source) :
    (enc.decodeString c (some source) s).state = (enc.decodeString d (some source) s).state := by
  simp only [decodeString, h]
  split <;> rfl

/-- A character takes a byte or more; only behind the last one a terminator may take none. -/
theorem roomNeeded_decodeAll_le (enc : Encoding) (room : Option Nat) (s : ConversionState)
    (source : List UInt8) : (enc.decodeAll room s source).roomNeeded ≤ source.length + 1 := by
  fun_induction decodeAll enc room s source with
  | case1 | case2 | case3 | case5 | case6 => exact Nat.le_add_left 1 _
  | case4 room s hspent b rest wc n t hd ih =>
    rw [Progress.roomNeeded_after, List.length_singleton, List.length_cons]
    rw [List.length_drop] at ih
    omega

theorem decodeAll_of_length_lt {source : List UInt8} (h : source.length < room) :
    enc.decodeAll (some room) s source = enc.decodeAll none s source :=
  decodeAll_of_roomNeeded (Nat.le_trans (enc.roomNeeded_decodeAll_le none s source) h)

theorem encodeAll_of_length_le {wide : List UInt32}
    (h : wide.length * enc.maxCharacterLength ≤ room) :
    enc.encodeAll (some room) s wide = enc.encodeAll none s wide :=
  encodeAll_eq_of_not_full (fun _ _ => rfl) (ending_encodeAll_ample s h)

/-- A call that only counts does what a call with a destination does, but for what is stored and
for the cursor, which it leaves where it was. -/
structure CountsLike {α β : Type} (source : Option (List α)) (count call : StringConversion α β) :
    Prop where
  /-- The same number is returned, or the same failure. -/
  result : count.result = call.result
  /-- The same state is left. -/
  state : count.state = call.state
  /-- The cursor stays. -/
  cursor : count.cursor = source
  /-- Nothing is stored. -/
  stored : count.stored = []

theorem decodeString_countsLike (enc : Encoding) (s : ConversionState)
    {source : Option (List UInt8)} (h : (source.getD []).length < room) :
    CountsLike source (enc.decodeString none source s)
      (enc.decodeString (some room) source s) := by
  cases source with
  | none => exact ⟨rfl, rfl, rfl, rfl⟩
  | some bytes =>
    have hall : enc.decodeAll (some room) s bytes = enc.decodeAll none s bytes :=
      decodeAll_of_length_lt h
    refine ⟨?_, (decodeString_state_congr hall).symm, enc.decodeString_none_cursor bytes s,
      enc.decodeString_none_stored bytes s⟩
    rw [decodeString_result, decodeString_result, hall]

theorem encodeString_countsLike (enc : Encoding) (s : ConversionState)
    {source : Option (List UInt32)}
    (h : (source.getD []).length * enc.maxCharacterLength ≤ room) :
    CountsLike source (enc.encodeString none source s)
      (enc.encodeString (some room) source s) := by
  cases source with
  | none => exact ⟨rfl, rfl, rfl, rfl⟩
  | some wide =>
    have hall : enc.encodeAll (some room) s wide = enc.encodeAll none s wide :=
      encodeAll_of_length_le h
    refine ⟨?_, (encodeString_state_congr hall).symm, enc.encodeString_none_cursor wide s,
      enc.encodeString_none_stored wide s⟩
    rw [encodeString_result, encodeString_result, hall]

/-- Counting agrees with converting, from every state: for decoding into a destination that is
longer than the source, and for encoding into one with room for as many of the longest
characters. -/
theorem counts_like_conversion (enc : Encoding) (s : ConversionState) (room : Nat) :
    (∀ source : Option (List UInt8), (source.getD []).length < room →
      CountsLike source (enc.decodeString none source s) (enc.decodeString (some room) source s)) ∧
    (∀ source : Option (List UInt32),
      (source.getD []).length * enc.maxCharacterLength ≤ room →
        CountsLike source (enc.encodeString none source s)
          (enc.encodeString (some room) source s)) :=
  ⟨fun _ => enc.decodeString_countsLike s, fun _ => enc.encodeString_countsLike s⟩

/-- From inside a character, and up to the terminator behind a shift. -/
theorem counts_like_conversion_pending :
    CountsLike (some [0x81, 0x82, 0x41])
        (utf8.decodeString none (some [0x81, 0x82, 0x41]) ⟨[0xE3], .ascii⟩)
        (utf8.decodeString (some 4) (some [0x81, 0x82, 0x41]) ⟨[0xE3], .ascii⟩) ∧
      CountsLike (some [0x3021, 0]) (jis.encodeString none (some [0x3021, 0]) .initial)
        (jis.encodeString (some 16) (some [0x3021, 0]) .initial) :=
  ⟨(counts_like_conversion utf8 ⟨[0xE3], .ascii⟩ 4).1 _ (by decide),
    (counts_like_conversion jis .initial 16).2 _ (by decide)⟩

/-- From the initial state, decoding up to the terminator comes back to it. -/
theorem state_decodeString_terminated {n : Nat} {source : List UInt8} (h0 : 0 ∈ source)
    (hn : (enc.decodeString none (some source) .initial).result = .ok n) :
    (enc.decodeString none (some source) .initial).state = .initial := by
  have hinitial : enc.Resumable .initial := .idle fun _ => rfl
  have htrack := hinitial.decodeAll_tracked none source
  simp only [decodeString] at hn ⊢
  generalize enc.decodeAll none .initial source = p at htrack hn ⊢
  cases htrack with
  | terminated hr => exact (hinitial.of_read_terminated hr).1
  | drained hr => exact absurd h0 (hinitial.of_read hr).2.2.1
  | full _ hroom => cases hroom
  | invalid => cases hn

/-- A terminator is written for every string that has one, and then the state is initial. -/
theorem state_encodeString_terminated {n : Nat} {wide : List UInt32} (h0 : 0 ∈ wide)
    (hn : (enc.encodeString none (some wide) s).result = .ok n) :
    (enc.encodeString none (some wide) s).state = .initial := by
  have hends := enc.encodeAll_endsBy s wide
  simp only [encodeString] at hn ⊢
  generalize enc.encodeAll none s wide = p at hends hn ⊢
  obtain ⟨converted, ending, rest, t⟩ := p
  cases ending with
  | terminated => rfl
  | full => exact absurd rfl hends.unbounded
  | drained =>
    have hnot := hends.drained rfl
    rw [List.contains_iff_mem.mpr h0] at hnot
    cases hnot
  | invalid => cases hn

end Encoding

section Delivers

variable {α β : Type} [OfNat β 0]

/-- A call returns `n` and stores that many elements; where `ended`, the terminator follows
them. -/
structure TextCall.Delivers (call : TextCall β) (n : Nat) (ended : Bool) : Prop where
  /-- What is returned. -/
  returned : call.returned = .value n
  /-- What is stored. -/
  stored : ∃ text, text.length = n ∧ call.stored = if ended then text ++ [0] else text

/-- What a count of `n` says of the same call with room for `n` elements and the terminator.
`call` is given its room and its state, and `ended` says whether its range of the source has a
terminator. -/
structure Calls.Foretells (call : Option Nat → ConversionState → TextCall β)
    (s : ConversionState) (ended : Bool) (n : Nat) : Prop where
  /-- The count stores nothing, and the source pointer stays. -/
  untouched : (call none s).stored = [] ∧ (call none s).position = some 0
  /-- A call with a copy of the state gives what was counted, and ends where the count did. -/
  copy : (call (some (n + 1)) s).Delivers n ended ∧
    (call (some (n + 1)) s).state = (call none s).state
  /-- So does the next call with that state, where the count has not changed it. -/
  next : (call none s).state = s → (call (some (n + 1)) (call none s).state).Delivers n ended
  /-- The count does not change the initial state where it meets the terminator. -/
  kept : s = .initial → ended = true → (call none s).state = s

namespace Calls

theorem ofRestartable_eq_value {result : Except Failure Nat} {n : Nat}
    (h : Returned.ofRestartable result = .value n) : result = .ok n := by
  unfold Returned.ofRestartable at h
  split at h
  · exact congrArg Except.ok (Returned.value.inj h)
  · cases h
  · cases h

section TextCall

variable {isTerminator : α → Bool} {range : List α} {ended : Bool} {n : Nat}

/-- A call delivers what its conversion has converted. -/
theorem textCall_delivers {conversion : StringConversion α β} {p : Progress α β}
    (hp : p.EndsBy ended) (hn : p.count = .ok n) (hresult : conversion.result = p.count)
    (hstored : conversion.stored = p.converted) :
    (textCall isTerminator range true conversion).Delivers n ended where
  returned := by
    rw [textCall, hresult, hn]
    rfl
  stored := by
    rw [textCall, hstored]
    exact hp.converted hn

/-- A count foretells a call whose conversion only depends on how far it gets, and for which
enough room is as good as no bound. -/
theorem foretells_textCall {convert : Option Nat → ConversionState → StringConversion α β}
    {s : ConversionState} {all : Option Nat → Progress α β} (hends : (all none).EndsBy ended)
    (henough : ∀ {room}, (all none).roomNeeded ≤ room → all (some room) = all none)
    (hresult : ∀ capacity, (convert capacity s).result = (all capacity).count)
    (hstored : ∀ room, (convert (some room) s).stored = (all (some room)).converted)
    (hstate : ∀ {c d}, all c = all d → (convert c s).state = (convert d s).state)
    (hnothing : (convert none s).stored = [])
    (hkept : (convert none s).result = .ok n → s = .initial → ended = true →
      (convert none s).state = s)
    (hcount : (textCall isTerminator range false (convert none s)).returned = .value n) :
    Foretells (fun room t => textCall isTerminator range room.isSome (convert room t)) s ended
      n := by
  have hconverted := ofRestartable_eq_value hcount
  have hn : (all none).count = .ok n := by rw [← hresult, hconverted]
  have hsame := henough (Nat.le_of_eq (hends.roomNeeded hn))
  have hcopy : (textCall isTerminator range true (convert (some (n + 1)) s)).Delivers n ended := by
    refine textCall_delivers hends hn ?_ ?_
    · rw [hresult, hsame]
    · rw [hstored, hsame]
  refine ⟨⟨hnothing, rfl⟩, ⟨hcopy, hstate hsame⟩, fun hleft => ?_, hkept hconverted⟩
  change (convert none s).state = s at hleft
  simp only [textCall, hleft] at hcopy ⊢
  exact hcopy

end TextCall

end Calls

end Delivers

namespace Calls

variable {enc : Encoding} {s : ConversionState} {n : Nat}

/-- Counting the bytes of a range of characters. -/
theorem foretells_wcsnrtombs {wide : List UInt32} {bound : Option Nat}
    (hcount : (wcsnrtombs enc none (some wide) bound s).returned = .value n) :
    Foretells (wcsnrtombs enc · (some wide) bound ·) s
      ((examined (· == 0) bound wide).contains 0) n := by
  refine foretells_textCall (enc.encodeAll_endsBy s _) Encoding.encodeAll_of_roomNeeded
    (enc.encodeString_result · _ s) (enc.encodeString_stored · _ s)
    Encoding.encodeString_state_congr (enc.encodeString_none_stored _ s) ?_ hcount
  rintro hn rfl h0
  exact Encoding.state_encodeString_terminated (List.contains_iff_mem.mp h0) hn

/-- Counting the characters of a range of bytes. -/
theorem foretells_mbsnrtowcs (h : s.Inherited) (hh : enc.held? s = none) {source : List UInt8}
    {bound : Option Nat}
    (hcount : (mbsnrtowcs enc none (some source) bound s).returned = .value n) :
    Foretells (mbsnrtowcs enc · (some source) bound ·) s
      ((examined (· == 0) bound source).contains 0) n := by
  refine foretells_textCall (Encoding.decodeAll_endsBy h hh _) Encoding.decodeAll_of_roomNeeded
    (enc.decodeString_result · _ s) (enc.decodeString_stored · _ s)
    Encoding.decodeString_state_congr (enc.decodeString_none_stored _ s) ?_ hcount
  rintro hn rfl h0
  exact Encoding.state_decodeString_terminated (List.contains_iff_mem.mp h0) hn

/-- In both directions a count foretells the call that converts what was counted. For decoding,
the bytes that are pending in the state may not spell a whole character already. -/
theorem count_then_convert (enc : Encoding) (s : ConversionState) (bound : Option Nat) (n : Nat) :
    (∀ wide, (wcsnrtombs enc none (some wide) bound s).returned = .value n →
      Foretells (wcsnrtombs enc · (some wide) bound ·) s
        ((examined (· == 0) bound wide).contains 0) n) ∧
    (s.Inherited → enc.held? s = none →
      ∀ source, (mbsnrtowcs enc none (some source) bound s).returned = .value n →
        Foretells (mbsnrtowcs enc · (some source) bound ·) s
          ((examined (· == 0) bound source).contains 0) n) :=
  ⟨fun _ => foretells_wcsnrtombs, fun h hh _ => foretells_mbsnrtowcs h hh⟩

/-- A whole string from the initial state, and the end of a string from inside a character. -/
theorem count_then_convert_terminated :
    Foretells (wcsnrtombs .jis · (some [0x3021, 0]) none ·) .initial true 8 ∧
      Foretells (mbsnrtowcs .utf8 · (some [0x81, 0x82, 0]) none ·) ⟨[0xE3], .ascii⟩ true 1 := by
  have hpending : Encoding.utf8.Resumable ⟨[0xE3], .ascii⟩ := .character rfl
  exact ⟨(count_then_convert .jis .initial none 8).1 [0x3021, 0] rfl,
    (count_then_convert .utf8 ⟨[0xE3], .ascii⟩ none 1).2 hpending.inherited hpending.held?_eq_none
      [0x81, 0x82, 0] (by cbv)⟩

/-- The bytes of one character are counted from the initial state, with the escape sequence before
them. The count leaves the shift, so the next call needs no escape sequence and returns less. -/
theorem count_leaves_shift :
    ¬∀ (enc : Encoding) (s : ConversionState) (wide : List UInt32) (bound : Option Nat) (n : Nat),
      enc.Resumable s → (wcsnrtombs enc none (some wide) bound s).returned = .value n →
        (wcsnrtombs enc (some (n + 1)) (some wide) bound
          (wcsnrtombs enc none (some wide) bound s).state).returned = .value n := by
  intro h
  have hcount : (wcsnrtombs .jis none (some [0x3021]) (some 1) .initial).returned = .value 5 := rfl
  cases h .jis .initial [0x3021] (some 1) 5 (.idle fun _ => rfl) hcount

/-- A count that ends inside a character makes the next call fail. -/
example :
    let count := mbsnrtowcs .utf8 none (some [0xE4, 0xB8, 0x96]) (some 2) .initial
    count.returned = .value 0 ∧
      (mbsnrtowcs .utf8 (some 1) (some [0xE4, 0xB8, 0x96]) (some 2) count.state).returned =
        .failed .illegalSequence := by cbv

end Calls

end FormattedText
