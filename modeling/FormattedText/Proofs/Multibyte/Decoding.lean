import FormattedText.Multibyte.Text
import FormattedText.Proofs.Multibyte.Pieces

/-!
# Decoding character by character

`Encoding.Reads` relates bytes to the characters that are decoded from them one after another,
with the states before and after. Each character is decoded from its own bytes, whatever follows
them (`decode_append_of_character`). So what is read from a part of a string comes first when the
whole is decoded (`Reads.decodeAll_append`), and decoding a string always stops behind a part of
it that it has read (`exists_decodingStops`). This holds of every state, whatever is pending in it.
-/

namespace FormattedText

section Room

variable {room : Option Nat} {m n : Nat}

theorem isSpent_some {room : Nat} (h : 1 ≤ room) : isSpent (some room) = false := by
  match room, h with
  | room + 1, _ => rfl

theorem hasRoomFor_some {room : Nat} (h : n ≤ room) : hasRoomFor (some room) n = true :=
  decide_eq_true h

theorem hasRoomFor_one (room : Option Nat) : hasRoomFor room 1 = !isSpent room := by
  match room with
  | none | some 0 | some (_ + 1) => rfl

/-- What fits leaves room for less. -/
theorem hasRoomFor_of_le (h : hasRoomFor room n = true) (hle : m ≤ n) :
    hasRoomFor room m = true := by
  cases room with
  | none => rfl
  | some r => exact decide_eq_true (Nat.le_trans hle (of_decide_eq_true h))

theorem isSpent_of_hasRoomFor (h : hasRoomFor room n = true) (hn : 1 ≤ n) :
    isSpent room = false := by
  have hone := hasRoomFor_of_le h hn
  rwa [hasRoomFor_one, Bool.not_eq_true'] at hone

/-- Behind what fits there is room for what fits with it. -/
theorem hasRoomFor_roomAfter (h : hasRoomFor room m = true) (n : Nat) :
    hasRoomFor (roomAfter room m) n = hasRoomFor room (m + n) := by
  cases room with
  | none => rfl
  | some r =>
    have hle : m ≤ r := of_decide_eq_true h
    simp only [roomAfter, Option.map_some, hasRoomFor, decide_eq_decide]
    omega

theorem roomAfter_zero (room : Option Nat) : roomAfter room 0 = room := by
  cases room <;> rfl

theorem roomAfter_roomAfter (room : Option Nat) (m n : Nat) :
    roomAfter (roomAfter room m) n = roomAfter room (m + n) := by
  simp only [roomAfter, Option.map_map, Function.comp_def, Nat.sub_sub]

end Room

namespace Encoding

/-- The characters that are decoded from bytes one after another, each from all its bytes, with
the states before and after. -/
inductive Reads (enc : Encoding) :
    ConversionState → List UInt8 → List UInt32 → ConversionState → Prop where
  /-- No bytes give no characters. -/
  | nil (s : ConversionState) : Reads enc s [] [] s
  /-- The first character takes the first bytes. -/
  | cons {s t u : ConversionState} {wc : UInt32} {w : List UInt32} {bytes more : List UInt8}
      (h : enc.decode s bytes = .character wc bytes.length t) (hrest : Reads enc t more w u) :
      Reads enc s (bytes ++ more) (wc :: w) u

section Characters

variable {enc : Encoding} {s t : ConversionState} {wc : UInt32} {used count n : Nat}
  {src bytes : List UInt8}

theorem reportedCount_eq_succ (h : reportedCount wc used = n + 1) : wc ≠ 0 ∧ used = n + 1 := by
  by_cases hw : wc = 0
  · rw [reportedCount, if_pos hw] at h
    cases h
  · rw [reportedCount, if_neg hw] at h
    exact ⟨hw, h⟩

/-- A character is scanned from its own bytes. -/
theorem exists_scan_of_character (h : enc.scan s used src = .character wc count t) :
    ∃ front more, src = front ++ more ∧ count = reportedCount wc (used + front.length) ∧
      enc.scan s used front = .character wc count t := by
  induction src generalizing s used with
  | nil => cases h
  | cons b src ih =>
    simp only [scan] at h
    cases hf : enc.feed s b with
    | more u =>
      rw [hf] at h
      obtain ⟨front, more, rfl, hcount, hscan⟩ := ih h
      refine ⟨b :: front, more, rfl, ?_, ?_⟩
      · rw [hcount, List.length_cons, Nat.add_right_comm, Nat.add_assoc]
      · simp only [scan, hf]
        exact hscan
    | character wc' u =>
      rw [hf] at h
      cases h
      refine ⟨[b], src, rfl, rfl, ?_⟩
      simp only [scan, hf]
    | refused =>
      rw [hf] at h
      cases h

/-- Where a character takes bytes, none was held. -/
theorem decode_eq_scan_of_character (h : enc.decode s src = .character wc (n + 1) t) :
    enc.held? s = none ∧ enc.scan s 0 src = .character wc (n + 1) t := by
  cases src with
  | nil => cases h
  | cons b rest =>
    cases hh : enc.held? s with
    | none =>
      simp only [decode, hh] at h
      exact ⟨rfl, h⟩
    | some held =>
      simp only [decode, hh] at h
      cases h

/-- A character is decoded from its own bytes. -/
theorem exists_decode_of_character (h : enc.decode s src = .character wc (n + 1) t) :
    ∃ front more, src = front ++ more ∧ front.length = n + 1 ∧
      enc.decode s front = .character wc front.length t := by
  obtain ⟨hh, hscan⟩ := decode_eq_scan_of_character h
  obtain ⟨front, more, hsrc, hcount, hfront⟩ := exists_scan_of_character hscan
  have hlength := (reportedCount_eq_succ hcount.symm).2
  rw [Nat.zero_add] at hlength
  have hne : front ≠ [] := List.ne_nil_of_length_eq_add_one hlength
  refine ⟨front, more, hsrc, hlength, ?_⟩
  rw [decode_eq_scan_of_held?_eq_none hh hne, hfront, hlength]

/-- What follows the bytes of a character is not looked at. -/
theorem decode_append_of_character (h : enc.decode s bytes = .character wc bytes.length t)
    (later : List UInt8) : enc.decode s (bytes ++ later) = .character wc bytes.length t := by
  cases bytes with
  | nil => cases h
  | cons b rest =>
    obtain ⟨hh, hscan⟩ := decode_eq_scan_of_character h
    have hended : ∀ u, enc.scan s 0 (b :: rest) ≠ .incomplete u := by
      rw [hscan]
      exact nofun
    rw [decode_eq_scan_of_held?_eq_none hh (List.append_ne_nil_of_left_ne_nil
      (List.cons_ne_nil b rest) later), scan_append_of_ended hended later, hscan, List.length_cons]

end Characters

section Strings

variable {enc : Encoding} {s t : ConversionState} {w : List UInt32} {bytes src : List UInt8}
  {room : Option Nat}

/-- Without bytes no characters are read. -/
theorem Reads.of_nil (h : enc.Reads s [] w t) : w = [] ∧ t = s := by
  generalize hbytes : ([] : List UInt8) = bytes at h
  cases h with
  | nil => exact ⟨rfl, rfl⟩
  | cons hd _ =>
    rw [(List.append_eq_nil_iff.mp hbytes.symm).1] at hd
    cases hd

/-- Bytes are decoded, where there is room for their characters, before those that follow them. -/
theorem Reads.decodeAll_append (h : enc.Reads s bytes w t)
    (hroom : hasRoomFor room w.length = true) (later : List UInt8) :
    enc.decodeAll room s (bytes ++ later) =
      (enc.decodeAll (roomAfter room w.length) t later).after w := by
  induction h generalizing room with
  | nil s =>
    rw [List.length_nil, roomAfter_zero]
    rfl
  | @cons s t u wc w bytes more h hrest ih =>
    rw [List.length_cons, Nat.add_comm] at hroom
    have hone := hasRoomFor_of_le hroom (Nat.le_add_right 1 _)
    have hspent := isSpent_of_hasRoomFor hone (Nat.le_refl 1)
    have hmore := ih ((hasRoomFor_roomAfter hone w.length).trans hroom)
    have hd := decode_append_of_character h (more ++ later)
    cases bytes with
    | nil => cases h
    | cons b rest =>
      rw [List.length_cons, List.cons_append] at hd
      rw [List.append_assoc, List.cons_append, decodeAll]
      simp only [hspent, Bool.false_eq_true, ite_false, hd, List.drop_left, hmore,
        roomAfter_roomAfter, List.length_cons, Nat.add_comm 1]
      rfl

/-- A source of bytes that give whole characters is used up, if there is room for them. -/
theorem Reads.decodeString (h : enc.Reads s bytes w t) {capacity : Option Nat}
    (hroom : hasRoomFor capacity w.length = true) :
    enc.decodeString capacity (some bytes) s = ⟨.ok w.length, if capacity.isSome then w else [],
      if capacity.isSome then remaining [] t else some bytes, t⟩ := by
  have hall := h.decodeAll_append hroom []
  rw [List.append_nil] at hall
  cases hspent : isSpent (roomAfter capacity w.length) with
  | true =>
    simp only [Encoding.decodeString, hall, decodeAll, hspent, ite_true, Progress.after,
      List.append_nil]
  | false =>
    simp only [Encoding.decodeString, hall, decodeAll, hspent, Bool.false_eq_true, ite_false,
      Progress.after, List.append_nil]

/-- How decoding a string stops behind the characters `w`, which are read from the part before and
leave the state `t`; `rest` follows that part. -/
inductive DecodingStops (enc : Encoding) (room : Option Nat) (w : List UInt32)
    (t : ConversionState) (rest : List UInt8) : Progress UInt8 UInt32 → Prop where
  /-- The next character takes no bytes, as the terminator does, and ends the string. -/
  | terminated {wc : UInt32} {u : ConversionState}
      (hroom : hasRoomFor room (w.length + 1) = true)
      (hd : enc.decode t rest = .character wc 0 u) :
      DecodingStops enc room w t rest ⟨w ++ [0], .terminated, rest, u⟩
  /-- The source is used up, between two characters or inside one. -/
  | drained {u : ConversionState} (hroom : hasRoomFor room w.length = true)
      (hd : enc.decode t rest = .incomplete u) :
      DecodingStops enc room w t rest ⟨w, .drained, [], u⟩
  /-- The characters fill the destination. -/
  | full (hroom : room = some w.length) : DecodingStops enc room w t rest ⟨w, .full, rest, t⟩
  /-- There is room for one more character, but the bytes that follow are refused. -/
  | invalid (hroom : hasRoomFor room (w.length + 1) = true) (hd : enc.decode t rest = .invalid) :
      DecodingStops enc room w t rest ⟨w, .invalid, rest, t⟩

/-- A character that is read first comes before all others. -/
theorem DecodingStops.after {wc : UInt32} {rest : List UInt8} {p : Progress UInt8 UInt32}
    (h : enc.DecodingStops (roomAfter room 1) w t rest p) (hone : hasRoomFor room 1 = true) :
    enc.DecodingStops room (wc :: w) t rest (p.after [wc]) := by
  have hmore : ∀ n, hasRoomFor (roomAfter room 1) n = hasRoomFor room (n + 1) := fun n => by
    rw [hasRoomFor_roomAfter hone, Nat.add_comm]
  cases h with
  | terminated hroom hd => exact .terminated (hmore _ ▸ hroom) hd
  | drained hroom hd => exact .drained (hmore _ ▸ hroom) hd
  | invalid hroom hd => exact .invalid (hmore _ ▸ hroom) hd
  | full hroom =>
    obtain ⟨r, rfl, hr⟩ := Option.map_eq_some_iff.mp hroom
    have hle : 1 ≤ r := of_decide_eq_true hone
    refine .full (congrArg some ?_)
    rw [List.length_cons]
    omega

/-- Decoding a string reads the characters of a part of it and stops behind them. -/
theorem exists_decodingStops (enc : Encoding) (room : Option Nat) (s : ConversionState)
    (src : List UInt8) :
    ∃ front rest w t, src = front ++ rest ∧ enc.Reads s front w t ∧
      enc.DecodingStops room w t rest (enc.decodeAll room s src) := by
  have hone : ∀ {room}, ¬isSpent room = true → hasRoomFor room 1 = true := fun {room} hspent => by
    rw [hasRoomFor_one, Bool.not_eq_true', Bool.eq_false_iff]
    exact hspent
  fun_induction decodeAll enc room s src with
  | case1 room s src hspent =>
    exact ⟨[], src, [], s, rfl, .nil s, .full (beq_iff_eq.mp hspent)⟩
  | case2 room s hspent =>
    have hroom := hasRoomFor_of_le (hone hspent) (Nat.zero_le 1)
    exact ⟨[], [], [], s, rfl, .nil s, .drained hroom rfl⟩
  | case3 room s hspent b rest wc t hd =>
    exact ⟨[], b :: rest, [], s, rfl, .nil s, .terminated (hone hspent) hd⟩
  | case4 room s hspent b rest wc n t hd ih =>
    obtain ⟨front, more, hsrc, hlength, hfront⟩ := exists_decode_of_character hd
    rw [drop_of_taken hsrc hlength.symm] at ih ⊢
    obtain ⟨bytes, left, w, u, rfl, hreads, hstops⟩ := ih
    refine ⟨front ++ bytes, left, wc :: w, u, ?_, .cons hfront hreads, hstops.after (hone hspent)⟩
    rw [hsrc, List.append_assoc]
  | case5 room s hspent b rest t hd =>
    exact ⟨[], b :: rest, [], s, rfl, .nil s,
      .drained (hasRoomFor_of_le (hone hspent) (Nat.zero_le 1)) hd⟩
  | case6 room s hspent b rest hd =>
    exact ⟨[], b :: rest, [], s, rfl, .nil s, .invalid (hone hspent) hd⟩

/-- Where decoding fails, the characters before were read, there is room for one more, and the
bytes that are left are refused. -/
theorem exists_reads_of_invalid (h : (enc.decodeAll room s src).ending = .invalid) :
    ∃ bytes rest w t, src = bytes ++ rest ∧ enc.Reads s bytes w t ∧
      hasRoomFor room (w.length + 1) = true ∧ enc.decode t rest = .invalid ∧
      enc.decodeAll room s src = ⟨w, .invalid, rest, t⟩ := by
  obtain ⟨front, rest, w, t, hsrc, hreads, hstops⟩ := exists_decodingStops enc room s src
  generalize enc.decodeAll room s src = p at h hstops ⊢
  cases hstops with
  | invalid hroom hd => exact ⟨front, rest, w, t, hsrc, hreads, hroom, hd, rfl⟩
  | terminated | drained | full => cases h

end Strings

end Encoding

end FormattedText
