import FormattedText.Benchmark.Workload
import FormattedText.Proofs.Multibyte.Closing

/-!
# Texts of any length

A text to measure with has as many characters as asked for, those of its sample over and over
(`Benchmark.Cycles`), and a terminator. Its bytes are decoded to just these characters, and no
byte before the last is zero (`Encoding.IsTextOf`), whatever the encoding and the length
(`Encoding.sampleText_isTextOf`).

Two things have to hold for that. Every character of the samples can be written and is read back
(`Encoding.isText_sample`), and the buffer is never too small: no character takes more bytes than
the encoding announces, the way back to the initial shift before the terminator included
(`Encoding.Writes.length_le`).
-/

namespace FormattedText

open ByteClass

namespace Benchmark

/-- The elements are those of a sample over and over, `length` of them. -/
structure Cycles {α : Type} (sample : List α) (length : Nat) (elements : List α) : Prop where
  /-- As many elements as asked for. -/
  length_eq : elements.length = length
  /-- The sample begins again behind its last element. -/
  getElem?_eq : ∀ i < length, elements[i]? = sample[i % sample.length]?

section Repeated

variable {α : Type} {sample : List α}

theorem mem_of_mem_repeated {a : α} {length : Nat} (h : a ∈ repeated sample length) :
    a ∈ sample := by
  obtain ⟨i, _, hi⟩ := List.mem_filterMap.mp h
  exact List.mem_of_getElem? hi

/-- A sample that has elements gives one at every place. -/
theorem repeated_eq_map (h : sample ≠ []) (length : Nat) :
    repeated sample length = (List.range length).map fun i =>
      sample.get ⟨i % sample.length, Nat.mod_lt i (List.length_pos_iff.mpr h)⟩ := by
  rw [repeated, ← List.filterMap_eq_map]
  congr 1
  funext i
  exact List.getElem?_eq_getElem _

theorem cycles_repeated (h : sample ≠ []) (length : Nat) :
    Cycles sample length (repeated sample length) := by
  rw [repeated_eq_map h]
  refine ⟨by rw [List.length_map, List.length_range], fun i hi => ?_⟩
  rw [List.getElem?_map, List.getElem?_range hi, Option.map_some]
  exact (List.getElem?_eq_getElem _).symm

end Repeated

end Benchmark

namespace Encoding

/-- The characters of the sample of an encoding. -/
def sampleCharacters (enc : Encoding) : List UInt32 := enc.sample.toList.map Char.val

/-- The bytes are a text of `length` characters of the sample with its terminator. -/
structure IsTextOf (enc : Encoding) (length : Nat) (bytes : List UInt8) : Prop where
  /-- Only the last byte is zero. -/
  terminated : ∃ front, bytes = front ++ [0] ∧ 0 ∉ front
  /-- The characters are those of the sample over and over. -/
  cycles : Benchmark.Cycles enc.sampleCharacters length (Benchmark.wideText enc.sample length)
  /-- Where there is room for all characters and the terminator, they are what the bytes are
  decoded to. -/
  decoded : ∀ capacity, length + 1 ≤ capacity → enc.decodeWhole capacity bytes =
    ⟨.ok length, Benchmark.wideText enc.sample length ++ [0], none, .initial⟩
  /-- With room for the longest characters all of them are encoded, and the terminator. -/
  encoded : enc.encodeWhole ((length + 1) * enc.maxCharacterLength)
      (Benchmark.wideText enc.sample length ++ [0]) =
    ⟨.ok (bytes.length - 1), bytes, none, .initial⟩

instance (enc : Encoding) (w : List UInt32) : Decidable (enc.IsText w) :=
  List.decidableBAll (fun wc => enc.Encodable wc ∧ wc ≠ 0 ∧ (enc = jis → wc ≠ escape.toUInt32)) w

/-- Every character of a sample can be written and is read back. -/
theorem isText_sample (enc : Encoding) : enc.IsText enc.sampleCharacters := by
  cases enc <;> decide

theorem sampleCharacters_ne_nil (enc : Encoding) : enc.sampleCharacters ≠ [] := by
  cases enc <;> decide

theorem isText_wideText (enc : Encoding) (length : Nat) :
    enc.IsText (Benchmark.wideText enc.sample length) :=
  fun wc hwc => enc.isText_sample wc (Benchmark.mem_of_mem_repeated hwc)

section Lengths

variable {enc : Encoding} {s t u : ConversionState} {w : List UInt32} {bytes last : List UInt8}

/-- No character takes more bytes than the encoding announces. -/
theorem Writes.length_le (h : enc.Writes s w bytes t) :
    bytes.length ≤ w.length * enc.maxCharacterLength := by
  induction h with
  | nil => exact Nat.zero_le _
  | @cons _ _ _ _ w bytes more h _ ih =>
    have hfirst := (length_of_encode h).2
    rw [List.length_append, List.length_cons, Nat.add_mul, Nat.one_mul, Nat.add_comm]
    exact Nat.add_le_add ih hfirst

/-- Nor does the terminator, with the way back to the initial shift. -/
theorem Writes.length_terminated_le (h : enc.Writes s w bytes t)
    (hz : enc.encode t 0 = some (last, u)) :
    (bytes ++ last).length ≤ (w.length + 1) * enc.maxCharacterLength := by
  rw [List.length_append, Nat.add_mul, Nat.one_mul]
  exact Nat.add_le_add h.length_le (length_of_encode hz).2

/-- In the bytes of a text and the way back to the initial shift no byte is zero. -/
theorem Writes.zero_not_mem (h : enc.Writes s w bytes t) (hs : enc.IsBetween s)
    (hw : enc.IsText w) : 0 ∉ bytes ++ escapeBetween t.shift .ascii := by
  have hread : enc.read s (bytes ++ escapeBetween t.shift .ascii) = ⟨w, .unfinished .initial⟩ := by
    rw [read_append (h.read hs hw), (h.isBetween hs).read_reset, Reading.after, List.append_nil]
  exact (hs.resumable.of_read hread).2.2.1

end Lengths

/-- The bytes of a sample text are those that a call writes for it, up to the terminator. -/
theorem sampleText_eq {enc : Encoding} {length n : Nat} {bytes : List UInt8}
    (h : enc.encodeWhole ((length + 1) * enc.maxCharacterLength)
      (Benchmark.wideText enc.sample length ++ [0]) = ⟨.ok n, bytes, none, .initial⟩)
    (hn : bytes.length = n + 1) : enc.sampleText length = bytes := by
  have hlength := (Benchmark.cycles_repeated enc.sampleCharacters_ne_nil length).length_eq
  have hroom : (Benchmark.wideText enc.sample length ++ [0]).length = length + 1 := by
    rw [List.length_append, List.length_singleton, Benchmark.wideText]
    exact congrArg (· + 1) hlength
  simp only [sampleText, hroom, h, overlay, ← hn, List.take_left]

/-- A sample text is a text of its sample, of any length and in every encoding: its bytes end with
the only zero among them and are decoded to the characters of the sample over and over, and the
buffer that it is made in has room for all of it. -/
theorem sampleText_isTextOf (enc : Encoding) (length : Nat) :
    enc.IsTextOf length (enc.sampleText length) := by
  have hcycles : Benchmark.Cycles enc.sampleCharacters length
      (Benchmark.wideText enc.sample length) :=
    Benchmark.cycles_repeated enc.sampleCharacters_ne_nil length
  have hw := enc.isText_wideText length
  have hs := isBetween_initial enc
  obtain ⟨bytes, t, h⟩ := hw.exists_writes .initial
  have hz := (h.isBetween hs).encode_zero
  have hroom := h.length_terminated_le hz
  rw [hcycles.length_eq] at hroom
  have hencoded := h.encodeString_terminated hw hz hroom
  have htext : enc.sampleText length = bytes ++ (escapeBetween t.shift .ascii ++ [0]) := by
    refine sampleText_eq hencoded ?_
    simp only [List.length_append, List.length_singleton]
    omega
  rw [htext]
  refine ⟨⟨_, (List.append_assoc _ _ _).symm, h.zero_not_mem hs hw⟩, hcycles, fun capacity hc => ?_,
    hencoded⟩
  have hdecoded := h.decodeString_terminated hs hw hz (hcycles.length_eq.symm ▸ hc)
  rw [hcycles.length_eq] at hdecoded
  exact hdecoded

/-- The shift is left before a letter, and no further way back stands before the terminator. -/
example : jis.sampleText 3 =
    [0x1B, 0x24, 0x42, 0x46, 0x7C, 0x4B, 0x5C, 0x1B, 0x28, 0x42, 0x61, 0] := by decide

end Encoding

end FormattedText
