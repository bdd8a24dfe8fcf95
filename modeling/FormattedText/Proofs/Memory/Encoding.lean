import FormattedText.Proofs.Memory.Record
import FormattedText.Proofs.Multibyte.Blocks
import FormattedText.Session.Conversion

/-!
# Encoding in memory

The encoders as they work on a record: a character is written byte by byte into a buffer of
eight bytes, and copied from there to the destination. `encodeChar?` never stores a byte behind
the end of the buffer, since no character of any encoding is longer, and `encodeOne?` never one
behind the end of the destination.
-/

namespace FormattedText

open Slice

namespace Slice

/-- Elements stored one after another. -/
def storeAll? {α : Type} (xs : List α) (start : Nat) : List α → Option (List α)
  | [] => some xs
  | a :: rest => (store? xs start a).bind fun xs => storeAll? xs (start + 1) rest

theorem storeAll?_append {α : Type} (front : List α) {xs new : List α}
    (h : new.length ≤ xs.length) :
    storeAll? (front ++ xs) front.length new = some (front ++ overlay new xs) := by
  induction new generalizing front xs with
  | nil => rfl
  | cons a new ih =>
    match xs, h with
    | b :: xs, h =>
      have hih := ih (front ++ [a]) (Nat.le_of_succ_le_succ h)
      rw [List.length_append, List.length_singleton, List.append_assoc, List.append_assoc] at hih
      rw [storeAll?, store?_append, Option.bind_some]
      exact hih

theorem storeAll?_zero {α : Type} {xs new : List α} (h : new.length ≤ xs.length) :
    storeAll? xs 0 new = some (overlay new xs) := storeAll?_append [] h

end Slice

namespace Encoding

/-- Encodes a character into a buffer. -/
def encodeChar? (enc : Encoding) (buffer : List UInt8) (wc : UInt32) (r : StateRecord) :
    Option (Except Failure Nat × List UInt8 × StateRecord) :=
  if enc.isStateful then
    match jisForm? wc with
    | none => some (.error .invalidSequence, buffer, r)
    | some (shift, form) => do
        let escape := escapeBetween r.shiftOf shift
        let buffer ← overwrite? buffer 0 escape
        let buffer ← storeAll? buffer escape.length form
        some (.ok (escape.length + form.length), buffer, r.setShift shift)
  else
    match enc.encode .initial wc with
    | none => some (.error .invalidSequence, buffer, r)
    | some (form, _) => do
        let buffer ← storeAll? buffer 0 form
        some (.ok form.length, buffer, r)

/-- Writes one character. -/
def encodeOne? (enc : Encoding) (destination : Destination UInt8) (wc : UInt32)
    (r : StateRecord) : Option (Except Failure Nat × Destination UInt8 × StateRecord) := do
  let (result, buffer, r') ← enc.encodeChar? (List.replicate longestCharacter 0) wc r
  match result, destination with
  | result, none => some (result, none, r)
  | .error e, some elements => some (.error e, some elements, r)
  | .ok n, some elements =>
      if elements.length < n then some (.error (.insufficientSpace n), some elements, r)
      else do
        let bytes ← front? buffer n
        let elements ← overwrite? elements 0 bytes
        some (.ok n, some elements, r')

section Writing

variable {enc : Encoding} {s t : ConversionState} {wc : UInt32} {bytes : List UInt8}

/-- A character that the encoding does not have is not written. -/
theorem encodeChar?_of_none (h : enc.encode s wc = none) (buffer : List UInt8) :
    enc.encodeChar? buffer wc s.record = some (.error .invalidSequence, buffer, s.record) := by
  cases he : enc.isStateful with
  | false =>
    rw [encode_of_stateless he, Option.map_eq_none_iff] at h
    simp only [encodeChar?, he, Bool.false_eq_true, ite_false, h]
  | true =>
    cases enc with
    | jis =>
      rw [encode, Option.map_eq_none_iff] at h
      simp only [encodeChar?, he, ite_true, h]
    | _ => cases he

/-- A character is written to the start of the buffer. -/
theorem encodeChar?_of_some (h : enc.encode s wc = some (bytes, t)) {buffer : List UInt8}
    (hb : buffer.length = longestCharacter) :
    enc.encodeChar? buffer wc s.record =
      some (.ok bytes.length, overlay bytes buffer, t.record) := by
  have hlen : bytes.length ≤ buffer.length := by
    rw [hb]
    exact Nat.le_trans (length_of_encode h).2 (maxCharacterLength_le enc)
  cases he : enc.isStateful with
  | false =>
    rw [encode_of_stateless he] at h
    obtain ⟨⟨form, _⟩, hform, h⟩ := Option.map_eq_some_iff.mp h
    obtain ⟨rfl, rfl⟩ := Prod.mk.inj h
    simp only [encodeChar?, he, Bool.false_eq_true, ite_false, hform, storeAll?_zero hlen,
      Option.bind_eq_bind, Option.bind_some]
  | true =>
    cases enc with
    | jis =>
      obtain ⟨⟨shift, form⟩, hjis, h⟩ := Option.map_eq_some_iff.mp h
      obtain ⟨rfl, rfl⟩ := Prod.mk.inj h
      rw [List.length_append] at hlen
      have hform : form.length ≤ (buffer.drop (escapeBetween s.shift shift).length).length := by
        rw [List.length_drop]
        omega
      simp only [encodeChar?, he, ite_true, hjis, s.shiftOf_record,
        overwrite?_zero (Nat.le_of_add_right_le hlen), storeAll?_append _ hform,
        Option.bind_eq_bind, Option.bind_some]
      rw [overlay, overlay, List.drop_drop, List.length_append, List.append_assoc]
      rfl
    | _ => cases he

/-- Writing a character stays in the buffer and in the destination. -/
theorem encodeOne?_record (enc : Encoding) (destination : Destination UInt8) (wc : UInt32)
    (s : ConversionState) :
    enc.encodeOne? destination wc s.record =
      let write := enc.encodeOne (destination.map List.length) wc s
      some (write.result, Conversion.store write.stored destination, write.state.record) := by
  cases he : enc.encode s wc with
  | none =>
    simp only [encodeOne?, encodeChar?_of_none he, encodeOne, he, Option.bind_eq_bind,
      Option.bind_some]
    cases destination <;> rfl
  | some form =>
    obtain ⟨bytes, t⟩ := form
    have hchar := encodeChar?_of_some he
      (List.length_replicate : (List.replicate longestCharacter (0 : UInt8)).length = _)
    cases destination with
    | none =>
      simp only [encodeOne?, hchar, encodeOne, he, Option.bind_eq_bind, Option.bind_some]
      rfl
    | some elements =>
      have hfront : front? (overlay bytes (List.replicate longestCharacter 0)) bytes.length =
          some bytes := front?_append bytes _
      simp only [encodeOne?, hchar, encodeOne, he, hfront, Option.bind_eq_bind, Option.bind_some,
        Option.map_some]
      by_cases hshort : elements.length < bytes.length
      · simp only [hshort, ite_true]
        rfl
      · simp only [hshort, ite_false, overwrite?_zero (Nat.le_of_not_lt hshort), Option.bind_some]
        rfl

end Writing

end Encoding

end FormattedText
