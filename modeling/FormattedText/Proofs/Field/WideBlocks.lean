import FormattedText.Field.Text
import FormattedText.Proofs.Multibyte.Closing

/-!
# Blocks of wide text

Wide text is written in blocks, each of which takes as many characters as it has room for. A
block converts the terminator too, and drops its zero byte. A block that a character without
bytes ends is counted again, and that finds the bytes which it has stored
(`recount_of_invalid`). However the blocks cut a text, and whatever their buffer held before,
they are together what encoding the text at once gives within the same limit
(`encodeBlocks_follow`).
-/

namespace FormattedText

open Encoding

namespace Field

/-- The blocks of a text are together what encoding it at once converts, its terminator
apart, and they end as that does. -/
inductive WideBlocks.Follow (blocks : WideBlocks) (whole : Progress UInt32 UInt8) : Prop where
  /-- The terminator is not written, and leaves the initial state. -/
  | terminated (hending : whole.ending = .terminated)
      (hbytes : blocks.blocks.flatten = whole.converted.dropLast)
      (hstate : blocks.state = .initial) (hfailure : blocks.failure = none)
  /-- All characters are written, or as many as fit. -/
  | stopped (hending : whole.ending.goesOn = true)
      (hbytes : blocks.blocks.flatten = whole.converted)
      (hstate : blocks.state = whole.state) (hfailure : blocks.failure = none)
  /-- The characters before the one without bytes are written. -/
  | invalid (hending : whole.ending = .invalid) (hbytes : blocks.blocks.flatten = whole.converted)
      (hfailure : blocks.failure = some .invalidSequence)

section Recounting

variable {enc : Encoding} {room : Option Nat} {s : ConversionState} {w : List UInt32}
  {p : Progress UInt32 UInt8}

/-- The beginning of a buffer is what was stored there last. -/
theorem take_overlay {α : Type} (stored buffer : List α) {n : Nat} (h : n ≤ stored.length) :
    (overlay stored buffer).take n = stored.take n :=
  List.take_append_of_le_length h

theorem take_length_overlay {α : Type} (stored buffer : List α) :
    (overlay stored buffer).take stored.length = stored :=
  (take_overlay stored buffer (Nat.le_refl _)).trans List.take_length

/-- The characters in front of one without bytes are encoded alike where nothing follows them and
nothing bounds them. -/
theorem encodeAll_front_of_invalid (hp : enc.encodeAll room s w = p) (h : p.ending = .invalid) :
    enc.encodeAll none s (w.take (w.length - p.rest.length)) =
      ⟨p.converted, .drained, [], p.state⟩ := by
  induction w generalizing room s p with
  | nil =>
    subst hp
    cases h
  | cons wc w ih =>
    have hstep := enc.encodeAll_step room s wc w
    rw [hp] at hstep
    cases hstep with
    | full => cases h
    | refused =>
      rw [Nat.sub_self]
      rfl
    | terminator => cases h
    | @character bytes t hz he hroom =>
      have hmore := ih (p := enc.encodeAll (roomAfter room bytes.length) t w) rfl h
      have hle := (enc.length_rest_encodeAll (roomAfter room bytes.length) t w).1
      generalize enc.encodeAll (roomAfter room bytes.length) t w = q at hmore hle
      have htake : (wc :: w).take ((wc :: w).length - q.rest.length) =
          wc :: w.take (w.length - q.rest.length) := by
        rw [List.length_cons, Nat.succ_sub hle, List.take_succ_cons]
      rw [Progress.after, htake, encodeAll_cons he rfl, if_neg hz, roomAfter, Option.map_none,
        hmore]
      rfl

/-- Counting the characters in front of one without bytes again, from the state before them, finds
the number of the bytes that were stored for them. -/
theorem recount_of_invalid (hp : enc.encodeAll room s w = p) (h : p.ending = .invalid) :
    recount enc s w (some p.rest) = .ok p.converted.length := by
  rw [recount, Option.getD_some, encodeString, encodeAll_front_of_invalid hp h]

end Recounting

section Blocks

variable {enc : Encoding} {limit : Option Nat} {s : ConversionState} {buffer : List UInt8}
  {w : List UInt32} {p : Progress UInt32 UInt8}

theorem encodeBlocks_nil (enc : Encoding) (limit : Option Nat) (s : ConversionState)
    (buffer : List UInt8) : encodeBlocks enc limit s buffer [] = ⟨[], s, none⟩ := by
  rw [encodeBlocks]
  rfl

/-- A text that does not go on in another block has this one. -/
theorem encodeBlocks_of_ne_nil (hne : w ≠ []) :
    encodeBlocks enc limit s buffer w =
      let block := enc.encodeString (some (boundBy limit blockLength)) (some w) s
      let buffer := overlay block.stored buffer
      match block.result with
      | .error e =>
          match recount enc s w block.cursor with
          | .error e' => ⟨[], block.state, some e'⟩
          | .ok n => ⟨[buffer.take n], block.state, some e⟩
      | .ok 0 => ⟨[], block.state, none⟩
      | .ok (n + 1) =>
          let bytes := buffer.take (n + 1)
          match block.cursor with
          | none => ⟨[bytes], block.state, none⟩
          | some rest =>
              if rest.length < w.length then
                let more := encodeBlocks enc (roomAfter limit (n + 1)) block.state buffer rest
                { more with blocks := bytes :: more.blocks }
              else ⟨[bytes], block.state, none⟩ := by
  rw [encodeBlocks, List.isEmpty_eq_false_iff.mpr hne]
  rfl

/-- A block that a character without bytes ends is the last. -/
theorem encodeBlocks_of_invalid (hp : enc.encodeAll (some (boundBy limit blockLength)) s w = p)
    (h : p.ending = .invalid) : (encodeBlocks enc limit s buffer w).Follow p := by
  have hne : w ≠ [] := by
    rintro rfl
    subst hp
    cases h
  have hblocks : encodeBlocks enc limit s buffer w =
      ⟨[p.converted], .initial, some .invalidSequence⟩ := by
    rw [encodeBlocks_of_ne_nil hne, encodeString, hp]
    simp only [h, Option.isSome_some, ite_true, recount_of_invalid hp h,
      take_length_overlay]
  rw [hblocks]
  exact .invalid h (List.append_nil _) rfl

/-- A block that the terminator ends is the last. -/
theorem encodeBlocks_of_terminated (hp : enc.encodeAll (some (boundBy limit blockLength)) s w = p)
    (h : p.ending = .terminated) : (encodeBlocks enc limit s buffer w).Follow p := by
  have hne : w ≠ [] := by
    rintro rfl
    subst hp
    cases h
  rw [encodeBlocks_of_ne_nil hne, encodeString, hp]
  simp only [h, Option.isSome_some, ite_true]
  cases hn : p.converted.length - 1 with
  | zero =>
    have hbytes : p.converted.dropLast = [] := by
      rw [List.dropLast_eq_take, hn, List.take_zero]
    exact .terminated h hbytes.symm rfl rfl
  | succ n =>
    have hbytes : [(overlay p.converted buffer).take (n + 1)].flatten = p.converted.dropLast := by
      rw [take_overlay _ _ (by omega), List.dropLast_eq_take, hn]
      exact List.append_nil _
    exact .terminated h hbytes rfl rfl

/-- A block that the end of the text ends is the last. -/
theorem encodeBlocks_of_drained (hp : enc.encodeAll (some (boundBy limit blockLength)) s w = p)
    (h : p.ending = .drained) (hrest : p.rest = []) :
    (encodeBlocks enc limit s buffer w).Follow p := by
  have hon : p.ending.goesOn = true := by
    rw [h]
    rfl
  by_cases hne : w = []
  · subst hne hp
    rw [encodeBlocks_nil]
    exact .stopped rfl rfl rfl rfl
  rw [encodeBlocks_of_ne_nil hne, encodeString, hp]
  simp only [h, hrest, Option.isSome_some, ite_true]
  obtain ⟨converted, ending, rest, state⟩ := p
  cases converted with
  | nil => exact .stopped hon rfl rfl rfl
  | cons b more =>
    have htake : (overlay (b :: more) buffer).take (more.length + 1) = b :: more :=
      take_length_overlay (b :: more) buffer
    simp only [List.length_cons, remaining, List.isEmpty_nil, Bool.true_and, htake]
    cases hs : state.isInitial with
    | true => exact .stopped hon (List.append_nil _) rfl rfl
    | false =>
      simp only [Bool.false_eq_true, ite_false]
      split
      · rw [encodeBlocks_nil]
        exact .stopped hon (List.append_nil _) rfl rfl
      · exact .stopped hon (List.append_nil _) rfl rfl

/-- A block without bytes is not written. -/
theorem encodeBlocks_of_empty (hp : enc.encodeAll (some (boundBy limit blockLength)) s w = p)
    (h : p.ending = .full) (hnil : p.converted = []) :
    encodeBlocks enc limit s buffer w = ⟨[], p.state, none⟩ := by
  have hne : w ≠ [] := by
    rintro rfl
    subst hp
    cases h
  rw [encodeBlocks_of_ne_nil hne, encodeString, hp]
  simp only [h, hnil, List.length_nil]

/-- Behind a full block come the blocks of the rest of the text, within what is left and over what
the block leaves in the buffer. -/
theorem encodeBlocks_of_full (hp : enc.encodeAll (some (boundBy limit blockLength)) s w = p)
    (h : p.ending = .full) (hrest : p.rest ≠ []) (hlt : p.rest.length < w.length)
    (hne : p.converted ≠ []) :
    let more := encodeBlocks enc (roomAfter limit p.converted.length) p.state
      (overlay p.converted buffer) p.rest
    encodeBlocks enc limit s buffer w = { more with blocks := p.converted :: more.blocks } := by
  intro more
  have htext : w ≠ [] := List.ne_nil_of_length_pos (Nat.zero_lt_of_lt hlt)
  rw [encodeBlocks_of_ne_nil htext, encodeString, hp]
  simp only [h, Option.isSome_some, ite_true]
  obtain ⟨b, later, hb⟩ := List.exists_cons_of_ne_nil hne
  have hcursor : remaining p.rest p.state = some p.rest := by
    rw [remaining, List.isEmpty_eq_false_iff.mpr hrest]
    rfl
  have htake : (overlay (b :: later) buffer).take (later.length + 1) = b :: later :=
    take_length_overlay (b :: later) buffer
  simp only [more, hb, List.length_cons, hcursor, hlt, ite_true, htake]

/-- A block comes before the others in the blocks as in the whole. -/
theorem WideBlocks.Follow.cons {blocks : WideBlocks} {room : Option Nat}
    (hp : enc.encodeAll room s w = p) (h : blocks.Follow p) (front : List UInt8) :
    ({ blocks with blocks := front :: blocks.blocks } : WideBlocks).Follow (p.after front) := by
  cases h with
  | terminated hending hbytes hstate hfailure =>
    subst hp
    have hne := List.ne_nil_of_length_pos (converted_of_terminated enc room s w hending)
    refine .terminated hending ?_ hstate hfailure
    rw [List.flatten_cons, hbytes, Progress.after, List.dropLast_append_of_ne_nil hne]
  | stopped hending hbytes hstate hfailure =>
    exact .stopped hending (congrArg (front ++ ·) hbytes) hstate hfailure
  | invalid hending hbytes hfailure =>
    exact .invalid hending (congrArg (front ++ ·) hbytes) hfailure

/-- A block is no longer than the limit. -/
theorem hasRoomFor_of_block {n : Nat}
    (h : hasRoomFor (some (boundBy limit blockLength)) n = true) : hasRoomFor limit n = true := by
  cases limit with
  | none => rfl
  | some l =>
    have hle : n ≤ min l blockLength := of_decide_eq_true h
    exact decide_eq_true (Nat.le_trans hle (Nat.min_le_left _ _))

/-- A block that is shorter than others is the limit itself. -/
theorem block_eq_limit (h : boundBy limit blockLength < blockLength) :
    some (boundBy limit blockLength) = limit := by
  cases limit with
  | none => exact absurd h (Nat.lt_irrefl _)
  | some l =>
    simp only [boundBy, Nat.min_def] at h ⊢
    split at h
    · rename_i hle
      rw [if_pos hle]
    · exact absurd h (Nat.lt_irrefl _)

/-- Only the limit keeps a block from taking a character. -/
theorem encodeAll_of_empty_block (hp : enc.encodeAll (some (boundBy limit blockLength)) s w = p)
    (h : p.ending = .full) (hnil : p.converted = []) : enc.encodeAll limit s w = p := by
  subst hp
  have hlt : boundBy limit blockLength < enc.maxCharacterLength := by
    refine Nat.lt_of_not_le fun hroom => ?_
    have hne : w ≠ [] := by
      rintro rfl
      cases h
    exact (encodeAll_advances hroom s hne (by rw [h]; rfl)).2 hnil
  have hblock : enc.maxCharacterLength ≤ blockLength :=
    Nat.le_trans (maxCharacterLength_le enc) (by decide)
  rw [block_eq_limit (Nat.lt_of_lt_of_le hlt hblock)]

/-- However a text is cut into blocks, they follow the encoding of the text at once within
the same limit. -/
theorem encodeBlocks_follow (enc : Encoding) (limit : Option Nat) (s : ConversionState)
    (buffer : List UInt8) (w : List UInt32) :
    (encodeBlocks enc limit s buffer w).Follow (enc.encodeAll limit s w) := by
  -- on what is left of the text: a block that is full, but not empty, leaves less of it
  induction hn : w.length using Nat.strongRecOn generalizing limit s buffer w with
  | ind n ih =>
    subst hn
    generalize hp : enc.encodeAll (some (boundBy limit blockLength)) s w = p
    obtain ⟨_, hfull, hdrained⟩ :=
      enc.length_rest_encodeAll (some (boundBy limit blockLength)) s w
    have hslice := enc.encodeAll_slice_within (fun _ => hasRoomFor_of_block) s w [] hp
    have hsame : p.ending ≠ .full → p = enc.encodeAll limit s w := by
      rw [← hp]
      exact encodeAll_eq_of_not_full fun _ => hasRoomFor_of_block
    have hlt : p.converted ≠ [] → p.rest.length < w.length := by
      rw [← hp]
      exact length_rest_lt
    rw [hp] at hfull hdrained
    cases hend : p.ending with
    | invalid =>
      rw [← hsame (by rw [hend]; decide)]
      exact encodeBlocks_of_invalid hp hend
    | terminated =>
      rw [← hsame (by rw [hend]; decide)]
      exact encodeBlocks_of_terminated hp hend
    | drained =>
      rw [← hsame (by rw [hend]; decide)]
      exact encodeBlocks_of_drained hp hend (hdrained hend)
    | full =>
      by_cases hnil : p.converted = []
      · rw [encodeAll_of_empty_block hp hend hnil, encodeBlocks_of_empty hp hend hnil]
        exact .stopped (by rw [hend]; rfl) hnil.symm rfl rfl
      · rw [List.append_nil, List.append_nil, hend] at hslice
        rw [hslice, encodeBlocks_of_full hp hend (hfull hend) (hlt hnil) hnil]
        exact (ih _ (hlt hnil) _ _ _ _ rfl).cons rfl _

theorem WideBlocks.length_eq (blocks : WideBlocks) :
    blocks.length = blocks.blocks.flatten.length := by
  obtain ⟨blocks, state, failure⟩ := blocks
  rw [WideBlocks.length]
  induction blocks with
  | nil => rfl
  | cons block blocks ih =>
    rw [List.foldr_cons, ih, List.flatten_cons, List.length_append]

end Blocks

end Field

end FormattedText
