import FormattedText.Proofs.Memory.Decoding
import FormattedText.Proofs.Memory.Encoding

/-!
# Strings in memory

The loops over the characters of a string as they work on a record, the source and the
destination, each access to which is checked. A loop has stored `front` in the destination and
has room for what stands behind it; `decodeLoop?_record` and `encodeLoop?_record` say that it
goes on as `Encoding.decodeAll` and `Encoding.encodeAll` do.
-/

namespace FormattedText

open Slice

/-- What converting a string reports: a count or a failure, the destination and the cursor
afterwards, and the record. -/
abbrev TextReport (α β : Type) :=
  Except Failure Nat × Destination β × Option (List α) × StateRecord

section Destination

variable {α β : Type}

/-- Is there room for `count` elements in all? Nothing limits them where there is no
destination. -/
def fits (destination : Destination β) (count : Nat) : Bool :=
  destination.all fun elements => count ≤ elements.length

/-- Elements stored in a destination, where there is one. -/
def storeIn? (destination : Destination β) (start : Nat) (new : List β) :
    Option (Destination β) :=
  match destination with
  | none => some none
  | some elements => (overwrite? elements start new).map some

/-- The cursor after a conversion that was stopped neither by a terminator nor by a failure. -/
def drained (rest : List α) (r : StateRecord) : Option (List α) :=
  if rest.isEmpty && r.isInitial then none else some rest

/-- The cursor moves only where there is a destination. -/
def movedCursor (destination : Destination β) (source : List α) (cursor : Option (List α)) :
    Option (List α) :=
  if destination.isSome then cursor else some source

theorem length_lt_of_back? {xs ys : List α} {n : Nat} (h : back? xs (n + 1) = some ys) :
    ys.length < xs.length := by
  obtain ⟨hle, h⟩ := Option.ite_none_right_eq_some.mp h
  rw [← Option.some.inj h, List.length_drop]
  omega

end Destination

namespace Encoding

/-- Decodes the characters at a cursor, the destination holding `count` already. -/
def decodeLoop? (enc : Encoding) (source : List UInt8) (destination : Destination UInt32)
    (count : Nat) (cursor : List UInt8) (r : StateRecord) : Option (TextReport UInt8 UInt32) :=
  let moved := movedCursor destination source
  if fits destination (count + 1) then do
    match ← enc.decodeOne? (some cursor) r with
    | (.ok 0, _, r') =>
        let stored ← storeIn? destination count [0]
        some (.ok count, stored, moved none, r')
    | (.ok (n + 1), character, r') =>
        let stored ← storeIn? destination count [character.getD 0]
        match _ : back? cursor (n + 1) with
        | none => none
        | some rest => decodeLoop? enc source stored (count + 1) rest r'
    | (.error .incompleteSequence, _, r') =>
        let rest ← back? cursor cursor.length
        some (.ok count, destination, moved (drained rest r'), r')
    | (.error e, _, _) => some (.error e, destination, moved (some cursor), .zeroed)
  else some (.ok count, destination, moved (drained cursor r), r)
  termination_by cursor.length
  decreasing_by exact length_lt_of_back? ‹_›

/-- Decodes a string. -/
def decodeString? (enc : Encoding) (destination : Destination UInt32)
    (source : Option (List UInt8)) (r : StateRecord) : Option (TextReport UInt8 UInt32) :=
  match source with
  | none => some (.ok 0, destination, none, r)
  | some bytes => enc.decodeLoop? bytes destination 0 bytes r

/-- Encodes the characters from an index on, the destination holding `written` bytes already.
The buffer is that of the character before. -/
def encodeLoop? (enc : Encoding) (source : List UInt32) (destination : Destination UInt8)
    (written index : Nat) (buffer : List UInt8) (r : StateRecord) :
    Option (TextReport UInt32 UInt8) :=
  let moved := movedCursor destination source
  if _ : fits destination (written + 1) ∧ index < source.length then do
    let wc ← source[index]?
    let (result, buffer, r') ← enc.encodeChar? buffer wc r
    match result with
    | .error e => do
        let rest ← back? source index
        some (.error e, destination, moved (some rest), .zeroed)
    | .ok n =>
        if fits destination (written + n) then do
          let bytes ← front? buffer n
          let stored ← storeIn? destination written bytes
          if wc = 0 then
            match written + n with
            | 0 => none
            | count + 1 => some (.ok count, stored, moved none, .zeroed)
          else encodeLoop? enc source stored (written + n) (index + 1) buffer r'
        else do
          let rest ← back? source index
          some (.ok written, destination, moved (drained rest r), r)
  else do
    let rest ← back? source index
    some (.ok written, destination, moved (drained rest r), r)
  termination_by source.length - index

/-- Encodes a string. -/
def encodeString? (enc : Encoding) (destination : Destination UInt8)
    (source : Option (List UInt32)) (r : StateRecord) : Option (TextReport UInt32 UInt8) :=
  match source with
  | none => some (.ok 0, destination, none, r)
  | some wide => enc.encodeLoop? wide destination 0 0 (List.replicate longestCharacter 0) r

end Encoding

/-- What is reported of a conversion that goes on where `front` is stored and `behind` is the
room left; `ended` is the state that a terminator leaves. -/
def Progress.report {α β : Type} (front : List β) (behind : Destination β) (source : List α)
    (ended : ConversionState) (p : Progress α β) : TextReport α β :=
  let destination := behind.map fun elements => front ++ overlay p.converted elements
  let moved := movedCursor behind source
  match p.ending with
  | .terminated =>
      (.ok (front.length + p.converted.length - 1), destination, moved none, ended.record)
  | .invalid => (.error .invalidSequence, destination, moved (some p.rest), .zeroed)
  | .full | .drained =>
      (.ok (front.length + p.converted.length), destination, moved (remaining p.rest p.state),
        p.state.record)

section Loops

variable {α β : Type} {behind : Destination β}

theorem report_after (front new : List β) (behind : Destination β) (source : List α)
    (ended : ConversionState) (p : Progress α β) :
    (p.after new).report front behind source ended =
      p.report (front ++ new) (behind.map (List.drop new.length)) source ended := by
  simp only [Progress.report, Progress.after, movedCursor, overlay, Option.isSome_map,
    Option.map_map, List.length_append, Function.comp_def, List.drop_drop, List.append_assoc,
    Nat.add_assoc]

theorem movedCursor_map (f : List β → List β) (behind : Destination β) (source : List α) :
    movedCursor (behind.map f) source = movedCursor behind source := by
  funext cursor
  rw [movedCursor, Option.isSome_map, movedCursor]

theorem fits_map (front : List β) (behind : Destination β) (n : Nat) :
    fits (behind.map (front ++ ·)) (front.length + n) = hasRoomFor (behind.map List.length) n := by
  cases behind with
  | none => rfl
  | some elements =>
    simp only [fits, hasRoomFor, Option.map_some, Option.all_some, List.length_append,
      Nat.add_le_add_iff_left]

theorem storeIn?_map {new : List β} (h : hasRoomFor (behind.map List.length) new.length = true)
    (front : List β) :
    storeIn? (behind.map (front ++ ·)) front.length new =
      some ((behind.map (List.drop new.length)).map ((front ++ new) ++ ·)) := by
  cases behind with
  | none => rfl
  | some elements =>
    have hle : new.length ≤ elements.length := of_decide_eq_true h
    have hold : (elements.take new.length).length = new.length := List.length_take_of_le hle
    have hw := overwrite?_append front (elements.drop new.length) hold
    rw [List.take_append_drop] at hw
    simp only [storeIn?, Option.map_some, hw, List.append_assoc]

theorem storeIn?_one (h : hasRoomFor (behind.map List.length) 1 = true) (front : List β) (b : β) :
    storeIn? (behind.map (front ++ ·)) front.length [b] =
      some ((behind.map (List.drop 1)).map ((front ++ [b]) ++ ·)) := storeIn?_map h front

theorem roomAfter_map (behind : Destination β) (n : Nat) :
    (behind.map (List.drop n)).map List.length = roomAfter (behind.map List.length) n := by
  simp only [roomAfter, Option.map_map, Function.comp_def, List.length_drop]

theorem drained_record {s : ConversionState} (h : s.Inherited) (rest : List α) :
    drained rest s.record = remaining rest s := by
  have hlen := Nat.le_succ_of_le (Encoding.length_pending_of_inherited h)
  rw [drained, s.isInitial_record hlen, remaining]

end Loops

namespace Encoding

/-- The loop that decodes a string accesses nothing out of range, and decodes as far as
`decodeAll` does. -/
theorem decodeLoop?_record {s : ConversionState} (h : s.Inherited) (enc : Encoding)
    (source cursor : List UInt8) (front : List UInt32) (behind : Destination UInt32) :
    enc.decodeLoop? source (behind.map (front ++ ·)) front.length cursor s.record =
      let p := enc.decodeAll (behind.map List.length) s cursor
      some (p.report front behind source p.state) := by
  generalize hroom : behind.map List.length = room
  fun_induction decodeAll enc room s cursor generalizing front behind with
  | case1 room s cursor hspent =>
    rw [decodeLoop?, fits_map, hroom, hasRoomFor_one, hspent, movedCursor_map, drained_record h]
    rfl
  | case2 room s hspent =>
    rw [decodeLoop?, fits_map, hroom, hasRoomFor_one, eq_false_of_ne_true hspent, movedCursor_map,
      decodeOne?_record h]
    simp only [decodeOne, decode, CharacterRead.report, back?_length, drained_record h,
      Option.bind_eq_bind, Option.bind_some, Bool.not_false, ite_true]
    rfl
  | case3 room s hspent b rest wc t hd =>
    have hone : hasRoomFor (behind.map List.length) 1 = true := by
      rw [hroom, hasRoomFor_one, eq_false_of_ne_true hspent]
      rfl
    rw [decodeLoop?, fits_map, hone, movedCursor_map, decodeOne?_record h]
    simp only [decodeOne, hd, CharacterRead.report, storeIn?_one hone,
      Option.bind_eq_bind, Option.bind_some, ite_true, Option.map_map, Progress.report, overlay,
      Function.comp_def, List.append_assoc]
    rfl
  | case4 room s hspent b rest wc n t hd ih =>
    have hone : hasRoomFor (behind.map List.length) 1 = true := by
      rw [hroom, hasRoomFor_one, eq_false_of_ne_true hspent]
      rfl
    rw [decodeLoop?, fits_map, hone, movedCursor_map, decodeOne?_record h]
    simp only [decodeOne, hd, CharacterRead.report, storeIn?_one hone,
      Option.bind_eq_bind, Option.bind_some, ite_true]
    have hnext : back? (b :: rest) (n + 1) = some (rest.drop n) ∧ t.Inherited := by
      have hstep := decode_inherited h enc (b :: rest)
      rw [hd] at hstep
      cases hstep with
      | character _ taken more hsrc hn _ _ _ _ hi =>
        have hle := congrArg List.length hsrc
        rw [List.length_append, ← hn] at hle
        exact ⟨if_pos (Nat.le.intro hle.symm), hi⟩
    rw [report_after]
    split
    · rename_i hnone
      rw [hnext.1] at hnone
      cases hnone
    · rename_i hrest
      rw [hnext.1] at hrest
      cases hrest
      have hih := ih hnext.2 (front ++ [wc]) (behind.map (List.drop 1))
        (by rw [roomAfter_map, hroom])
      rw [List.length_append, List.length_singleton] at hih
      exact hih
  | case5 room s hspent b rest t hd =>
    have ht : t.Inherited := by
      have hstep := decode_inherited h enc (b :: rest)
      rw [hd] at hstep
      cases hstep with
      | incomplete _ hi => exact hi
    rw [decodeLoop?, fits_map, hroom, hasRoomFor_one, eq_false_of_ne_true hspent, movedCursor_map,
      decodeOne?_record h]
    simp only [decodeOne, hd, CharacterRead.report, back?_length, drained_record ht,
      Option.bind_eq_bind, Option.bind_some, Bool.not_false, ite_true]
    rfl
  | case6 room s hspent b rest hd =>
    rw [decodeLoop?, fits_map, hroom, hasRoomFor_one, eq_false_of_ne_true hspent, movedCursor_map,
      decodeOne?_record h]
    simp only [decodeOne, hd, CharacterRead.report, Option.bind_eq_bind, Option.bind_some,
      Bool.not_false, ite_true]
    rfl

/-- The loop that encodes a string accesses nothing out of range, and encodes as far as
`encodeAll` does. -/
theorem encodeLoop?_record {s : ConversionState} (h : s.Inherited) (enc : Encoding)
    (passed rest : List UInt32) (front : List UInt8) (behind : Destination UInt8)
    {buffer : List UInt8} (hb : buffer.length = longestCharacter) :
    enc.encodeLoop? (passed ++ rest) (behind.map (front ++ ·)) front.length passed.length buffer
        s.record =
      some ((enc.encodeAll (behind.map List.length) s rest).report front behind (passed ++ rest)
        .initial) := by
  induction rest generalizing s passed front behind buffer with
  | nil =>
    have hback : back? (passed ++ []) passed.length = some [] := back?_append passed []
    rw [encodeLoop?, dif_neg (by simp), hback, movedCursor_map]
    simp only [drained_record h, Option.bind_eq_bind, Option.bind_some]
    rfl
  | cons wc rest ih =>
    have hback := back?_append passed (wc :: rest)
    have hindex : passed.length < (passed ++ wc :: rest).length := by
      rw [List.length_append, List.length_cons]
      omega
    have hchar : (passed ++ wc :: rest)[passed.length]? = some wc := by
      rw [List.getElem?_append_right (Nat.le_refl _), Nat.sub_self, List.getElem?_cons_zero]
    have hguard : fits (behind.map (front ++ ·)) (front.length + 1) =
        !isSpent (behind.map List.length) := by rw [fits_map, hasRoomFor_one]
    rw [encodeLoop?, encodeAll, movedCursor_map, hguard]
    cases hspent : isSpent (behind.map List.length) with
    | true =>
      rw [dif_neg fun hmore => Bool.false_ne_true hmore.1, hback]
      simp only [drained_record h, Option.bind_eq_bind, Option.bind_some, ite_true]
      rfl
    | false =>
      rw [dif_pos ⟨rfl, hindex⟩, hchar]
      cases he : enc.encode s wc with
      | none =>
        simp only [encodeChar?_of_none he, hback, Option.bind_eq_bind, Option.bind_some]
        rfl
      | some written =>
        obtain ⟨bytes, t⟩ := written
        have ht : t.Inherited := h.of_pending_eq (pending_of_encode he)
        obtain ⟨hpos, hmax⟩ := length_of_encode he
        have hfront : front? (overlay bytes buffer) bytes.length = some bytes :=
          front?_append bytes _
        simp only [encodeChar?_of_some he hb, hfront, fits_map, Option.bind_eq_bind,
          Option.bind_some]
        cases hroom : hasRoomFor (behind.map List.length) bytes.length with
        | false =>
          simp only [hback, drained_record h, Option.bind_some]
          rfl
        | true =>
          simp only [storeIn?_map hroom, Option.bind_some, Bool.not_true, Bool.false_eq_true,
            ite_true, ite_false]
          by_cases hz : wc = 0
          · obtain ⟨n, hn⟩ : ∃ n, bytes.length = n + 1 := ⟨bytes.length - 1, by omega⟩
            simp only [hz, hn, ite_true, Progress.report, overlay, Option.map_map,
              Function.comp_def, List.append_assoc, ← Nat.add_assoc]
            rfl
          · have hnext : (overlay bytes buffer).length = longestCharacter := by
              rw [overlay, List.length_append, List.length_drop, hb]
              have hle := Nat.le_trans hmax (maxCharacterLength_le enc)
              omega
            have hih := ih ht (passed ++ [wc]) (front ++ bytes)
              (behind.map (List.drop bytes.length)) hnext
            rw [List.length_append, List.length_append, List.append_assoc, roomAfter_map] at hih
            rw [if_neg hz, if_neg hz, report_after]
            exact hih

end Encoding

/-- What is reported of the conversion of a string into a destination. -/
def StringConversion.report {α β : Type} (destination : Destination β)
    (c : StringConversion α β) : TextReport α β :=
  (c.result, Conversion.store c.stored destination, c.cursor, c.state.record)

namespace Encoding

variable {s : ConversionState}

/-- Decoding a string accesses nothing out of range, and reports what it decodes. -/
theorem decodeString?_record (h : s.Inherited) (enc : Encoding)
    (destination : Destination UInt32) (source : Option (List UInt8)) :
    enc.decodeString? destination source s.record =
      some ((enc.decodeString (destination.map List.length) source s).report destination) := by
  match source with
  | none =>
    cases destination <;> rfl
  | some bytes =>
    have hloop : enc.decodeLoop? bytes (destination.map ([] ++ ·)) 0 bytes s.record = _ :=
      decodeLoop?_record h enc bytes bytes [] destination
    simp only [List.nil_append, Option.map_id'] at hloop
    simp only [decodeString?, decodeString, hloop]
    generalize enc.decodeAll (destination.map List.length) s bytes = p
    cases destination <;> cases he : p.ending <;>
      simp [Progress.report, StringConversion.report, he, movedCursor, Conversion.store]

/-- Encoding a string accesses nothing out of range, and reports what it encodes. -/
theorem encodeString?_record (h : s.Inherited) (enc : Encoding)
    (destination : Destination UInt8) (source : Option (List UInt32)) :
    enc.encodeString? destination source s.record =
      some ((enc.encodeString (destination.map List.length) source s).report destination) := by
  match source with
  | none =>
    cases destination <;> rfl
  | some wide =>
    have hloop : enc.encodeLoop? wide (destination.map ([] ++ ·)) 0 0
        (List.replicate longestCharacter 0) s.record = _ :=
      encodeLoop?_record h enc [] wide [] destination List.length_replicate
    simp only [List.nil_append, Option.map_id'] at hloop
    simp only [encodeString?, encodeString, hloop]
    generalize enc.encodeAll (destination.map List.length) s wide = p
    cases destination <;> cases he : p.ending <;>
      simp [Progress.report, StringConversion.report, he, movedCursor, Conversion.store]

end Encoding

end FormattedText
