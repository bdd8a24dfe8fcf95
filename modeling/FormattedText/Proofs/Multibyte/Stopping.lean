import FormattedText.Proofs.Field.Within
import FormattedText.Proofs.Multibyte.Counting

/-!
# Where a conversion of a string stops

A conversion of a string stops between two characters. Everything before that place is converted,
and what the call returns, stores and leaves is all told by it.

Decoding fails only at bytes that are refused. The part of the source before them is decoded by
itself to the same characters, and from the state that this leaves they are refused too
(`decodeString_failsBehind`). Encoding stops behind the characters that it has written whole,
because the source or the room is used up, the next character is too long, the terminator has been
written, or the next character has no bytes (`encodeString_stops`).
-/

namespace FormattedText

namespace Encoding

section Decoding

variable {enc : Encoding} {s : ConversionState}

/-- Decoding a string into a destination, if there is one, has failed behind its part `front`:
`whole` is the effect of the call, and `before` that of a call for the part alone. -/
structure FailsBehind (enc : Encoding) (s : ConversionState) (destination : Option (List UInt32))
    (front rest : List UInt8) (whole before : StringConversion UInt8 UInt32) : Prop where
  /-- The state is initial. -/
  reset : whole.state = .initial
  /-- The part is decoded, and its characters are all that is stored. -/
  decoded : ∃ w, enc.Reads s front w before.state ∧ before.result = .ok w.length ∧
    ∀ slots ∈ destination, w.length < slots.length ∧
      overlay whole.stored slots = w ++ slots.drop w.length
  /-- Where there are no bytes before the failure, the state is still the first one. -/
  begins : front = [] → before.state = s
  /-- The bytes behind the part are refused in the state that it leaves. -/
  refused : (enc.decodeOne (some rest) before.state).result = .error .invalidSequence
  /-- With a destination the cursor comes to these bytes, otherwise it stays. -/
  cursor : whole.cursor = some (if destination.isSome then rest else front ++ rest)

theorem failsBehind_of_reads {destination : Option (List UInt32)} {front rest : List UInt8}
    {w : List UInt32} {t : ConversionState} (hreads : enc.Reads s front w t)
    (hroom : hasRoomFor (destination.map List.length) (w.length + 1) = true)
    (hinvalid : enc.decode t rest = .invalid)
    (hall : enc.decodeAll (destination.map List.length) s (front ++ rest) =
      ⟨w, .invalid, rest, t⟩) :
    enc.FailsBehind s destination front rest
      (enc.decodeString (destination.map List.length) (some (front ++ rest)) s)
      (enc.decodeString (destination.map List.length) (some front) s) := by
  have hbefore := hreads.decodeString (hasRoomFor_of_le hroom (Nat.le_succ _))
  rw [hbefore]
  simp only [decodeString, hall]
  refine ⟨rfl, ⟨w, hreads, rfl, ?_⟩, ?_, ?_, ?_⟩
  · intro slots hslots
    cases hslots
    exact ⟨of_decide_eq_true hroom, rfl⟩
  · rintro rfl
    exact hreads.of_nil.2
  · simp only [decodeOne, hinvalid]
  · cases destination <;> rfl

/-- Decoding a string fails between two characters. It never lacks bytes, and where it fails, the
bytes before are decoded and those that follow are refused. -/
theorem decodeString_failsBehind (enc : Encoding) (s : ConversionState)
    (destination : Option (List UInt32)) (source : Option (List UInt8)) :
    let decode := fun bytes => enc.decodeString (destination.map List.length) bytes s
    (decode source).result ≠ .error .incompleteSequence ∧
      ∀ e, (decode source).result = .error e → e = .invalidSequence ∧
        ∃ front rest, source = some (front ++ rest) ∧
          enc.FailsBehind s destination front rest (decode source) (decode (some front)) := by
  intro decode
  cases source with
  | none => exact ⟨fun h => (by cases h), fun e he => (by cases he)⟩
  | some src =>
    have hresult := enc.decodeString_result (destination.map List.length) src s
    change (decode (some src)).result = _ at hresult
    rw [hresult, Progress.count]
    cases hending : (enc.decodeAll (destination.map List.length) s src).ending with
    | terminated | full | drained => exact ⟨fun h => (by cases h), fun e he => (by cases he)⟩
    | invalid =>
      obtain ⟨front, rest, w, t, rfl, hreads, hroom, hinvalid, hall⟩ :=
        exists_reads_of_invalid hending
      refine ⟨fun h => (by cases h), fun e he => ⟨?_, front, rest, rfl, ?_⟩⟩
      · exact (Except.error.inj he).symm
      · exact failsBehind_of_reads hreads hroom hinvalid hall

/-- An escape sequence that has begun in an earlier call, one character, and a byte that is no
second one of a pair. -/
theorem decodeString_failsBehind_escape :
    let s : ConversionState := ⟨[0x1B], .ascii⟩
    let source : List UInt8 := [0x24, 0x42, 0x30, 0x21, 0x30, 0xFF]
    let decode := fun bytes => jis.decodeString (some 3) bytes s
    (decode (some source)).result = .error .invalidSequence ∧
      ∃ front rest, some source = some (front ++ rest) ∧
        jis.FailsBehind s (some [7, 7, 7]) front rest (decode (some source))
          (decode (some front)) := by
  intro s source decode
  have hfails : (jis.decodeString (some 3) (some [0x24, 0x42, 0x30, 0x21, 0x30, 0xFF])
      ⟨[0x1B], .ascii⟩).result = .error .invalidSequence := by cbv
  exact ⟨hfails, ((decodeString_failsBehind jis s (some [7, 7, 7]) (some source)).2 _ hfails).2⟩

end Decoding

section Encoding

variable {enc : Encoding} {s t : ConversionState} {capacity : Nat} {taken rest : List UInt32}
  {bytes : List UInt8}

/-- How a call that encodes a string into a destination of `capacity` bytes stops behind the
characters `taken`, which are written as `bytes` and leave the state `t`; `rest` follows them. -/
inductive EncodingStops (enc : Encoding) (capacity : Nat) (taken : List UInt32)
    (bytes : List UInt8) (t : ConversionState) :
    List UInt32 → StringConversion UInt32 UInt8 → Prop where
  /-- The source is used up. There is nothing to go on with if the state is initial. -/
  | drained (h0 : 0 ∉ taken) :
      EncodingStops enc capacity taken bytes t []
        ⟨.ok bytes.length, bytes, if t = .initial then none else some [], t⟩
  /-- No byte of the destination is left. -/
  | spent {wc : UInt32} {rest : List UInt32} (h0 : 0 ∉ taken) (hspent : bytes.length = capacity) :
      EncodingStops enc capacity taken bytes t (wc :: rest)
        ⟨.ok bytes.length, bytes, some (wc :: rest), t⟩
  /-- The bytes of the next character do not fit in what is left of the destination. -/
  | full {wc : UInt32} {rest : List UInt32} {more : List UInt8} {u : ConversionState}
      (h0 : 0 ∉ taken) (he : enc.encode t wc = some (more, u))
      (hlong : capacity < bytes.length + more.length) :
      EncodingStops enc capacity taken bytes t (wc :: rest)
        ⟨.ok bytes.length, bytes, some (wc :: rest), t⟩
  /-- The terminator has been written; the last byte is its own and is not counted. -/
  | terminated {text rest : List UInt32} (htaken : taken = text ++ [0]) (h0 : 0 ∉ text) :
      EncodingStops enc capacity taken bytes t rest
        ⟨.ok (bytes.length - 1), bytes, none, .initial⟩
  /-- The next character has no bytes. -/
  | refused {wc : UInt32} {rest : List UInt32} (h0 : 0 ∉ taken) (hbad : ¬ enc.Encodable wc) :
      EncodingStops enc capacity taken bytes t (wc :: rest)
        ⟨.error .invalidSequence, bytes, some (wc :: rest), .initial⟩

theorem remaining_nil (t : ConversionState) :
    remaining ([] : List UInt32) t = if t = .initial then none else some [] := by
  simp only [remaining, List.isEmpty_nil, Bool.true_and, ConversionState.isInitial_iff]

/-- Where the next character finds no room, the call returns what is written before it. -/
theorem encodingStops_of_full {wc : UInt32} (hwrites : enc.Writes s taken bytes t) (h0 : 0 ∉ taken)
    (hfits : hasRoomFor (some capacity) bytes.length = true)
    (hroom : ∀ more u, enc.encode t wc = some (more, u) →
      hasRoomFor (some capacity) (bytes.length + more.length) = false)
    (hspent : enc.encode t wc = none → hasRoomFor (some capacity) (bytes.length + 1) = false) :
    enc.EncodingStops capacity taken bytes t (wc :: rest)
      (enc.encodeString (some capacity) (some (taken ++ wc :: rest)) s) := by
  have hall := hwrites.encodeAll_append h0 hfits (wc :: rest)
  rw [encodeAll_full] at hall
  · simp only [encodeString, hall, Progress.after, List.append_nil]
    cases he : enc.encode t wc with
    | none =>
      have hnone := of_decide_eq_false (hspent he)
      have hle : bytes.length ≤ capacity := of_decide_eq_true hfits
      exact .spent h0 (by omega)
    | some form =>
      obtain ⟨more, u⟩ := form
      have hlong := of_decide_eq_false (hroom more u he)
      exact .full h0 he (Nat.not_le.mp hlong)
  · intro more u he
    rw [hasRoomFor_roomAfter hfits]
    exact hroom more u he
  · intro he
    rw [hasRoomFor_roomAfter hfits]
    exact hspent he

/-- Where the terminator fits too, it is the last character that is written. -/
theorem encodingStops_of_terminator {last : List UInt8} {u : ConversionState}
    (hwrites : enc.Writes s taken bytes t) (h0 : 0 ∉ taken) (hz : enc.encode t 0 = some (last, u))
    (hfits : hasRoomFor (some capacity) bytes.length = true)
    (hroom : hasRoomFor (some capacity) (bytes.length + last.length) = true) :
    enc.EncodingStops capacity (taken ++ [0]) (bytes ++ last) u rest
      (enc.encodeString (some capacity) (some (taken ++ 0 :: rest)) s) := by
  have hall := hwrites.encodeAll_append h0 hfits (0 :: rest)
  rw [encodeAll_cons hz ((hasRoomFor_roomAfter hfits _).trans hroom), if_pos rfl] at hall
  simp only [encodeString, hall, Progress.after]
  exact .terminated rfl h0

theorem EncodingStops.stored {call : StringConversion UInt32 UInt8}
    (h : enc.EncodingStops capacity taken bytes t rest call) : call.stored = bytes := by
  cases h <;> rfl

theorem exists_encodingStops (enc : Encoding) (s : ConversionState) (capacity : Nat)
    (source : List UInt32) :
    ∃ taken rest bytes t, source = taken ++ rest ∧ enc.Writes s taken bytes t ∧
      bytes.length ≤ capacity ∧
      enc.EncodingStops capacity taken bytes t rest
        (enc.encodeString (some capacity) (some source) s) := by
  have hzero : hasRoomFor (some capacity) 0 = true := rfl
  obtain ⟨taken, rest, bytes, t, failure, rfl, h0, hwrites, hfits, hends⟩ :=
    Field.exists_endsAt enc (some capacity) s source hzero
  rw [Nat.zero_add] at hfits hends
  have hle : bytes.length ≤ capacity := of_decide_eq_true hfits
  cases hends with
  | drained =>
    have hall := hwrites.encodeAll_append h0 hfits []
    refine ⟨taken, [], bytes, t, rfl, hwrites, hle, ?_⟩
    rw [List.append_nil] at hall ⊢
    simp only [encodeString, hall, encodeAll, Progress.after, List.append_nil, remaining_nil]
    exact .drained h0
  | terminator rest =>
    obtain ⟨front, u, hz⟩ := enc.exists_encode_zero t
    cases hroom : hasRoomFor (some capacity) (bytes.length + (front ++ [0]).length) with
    | true =>
      refine ⟨taken ++ [0], rest, _, u, List.append_cons taken 0 rest,
        hwrites.append (.cons hz (.nil u)), ?_, ?_⟩
      · rw [List.append_nil, List.length_append]
        exact of_decide_eq_true hroom
      · rw [List.append_nil]
        exact encodingStops_of_terminator hwrites h0 hz hfits hroom
    | false =>
      refine ⟨taken, 0 :: rest, bytes, t, rfl, hwrites, hle, ?_⟩
      refine encodingStops_of_full hwrites h0 hfits (fun more u' he => ?_) fun he => ?_
      · rw [hz] at he
        cases he
        exact hroom
      · exact absurd he (enc.encode_zero_ne_none t)
  | @full wc rest hroom hspent =>
    exact ⟨taken, wc :: rest, bytes, t, rfl, hwrites, hle,
      encodingStops_of_full hwrites h0 hfits hroom hspent⟩
  | @refused wc rest he hroom =>
    refine ⟨taken, wc :: rest, bytes, t, rfl, hwrites, hle, ?_⟩
    have hall := hwrites.encodeAll_append h0 hfits (wc :: rest)
    rw [encodeAll_refused he ((hasRoomFor_roomAfter hfits 1).trans hroom)] at hall
    simp only [encodeString, hall, Progress.after, List.append_nil]
    exact .refused h0 (encode_eq_none_iff.mp he)

/-- Encoding a string writes the characters of a part of it whole, over the beginning of the
destination, and stops behind them. -/
theorem encodeString_stops (enc : Encoding) (s : ConversionState) (destination : List UInt8)
    (source : List UInt32) :
    let call := enc.encodeString (some destination.length) (some source) s
    ∃ taken rest bytes t, source = taken ++ rest ∧ enc.Writes s taken bytes t ∧
      bytes.length ≤ destination.length ∧
      overlay call.stored destination = bytes ++ destination.drop bytes.length ∧
      enc.EncodingStops destination.length taken bytes t rest call := by
  intro call
  obtain ⟨taken, rest, bytes, t, hsource, hwrites, hle, hstops⟩ :=
    enc.exists_encodingStops s destination.length source
  refine ⟨taken, rest, bytes, t, hsource, hwrites, hle, ?_, hstops⟩
  rw [overlay, hstops.stored]

/-- A character that does not fit with the escape sequence before it leaves no shift behind. -/
example : jis.encodeString (some 5) (some [0x41, 0x3021]) .initial =
    ⟨.ok 1, [0x41], some [0x3021], .initial⟩ := rfl

end Encoding

end Encoding

end FormattedText
