import FormattedText.Proofs.Field.Within

/-!
# Fields of wide text

A field of wide text is padded by the number of bytes that was measured
(`Field.bytes_wideText_within`). Without a precision nothing is cut off, so the field has the
bytes of the closed text and the padding around them (`Field.bytes_wideText`).
-/

namespace FormattedText

open Encoding

namespace Field

/-- The padding of a text to a width: behind it if it is left justified, else before it. -/
def padded {α : Type} (space : α) (leftJustify : Bool) (gap : Nat) (text : List α) : List α :=
  if leftJustify then text ++ List.replicate gap space else List.replicate gap space ++ text

theorem length_padded {α : Type} (space : α) (leftJustify : Bool) (gap : Nat) (text : List α) :
    (padded space leftJustify gap text).length = gap + text.length := by
  cases leftJustify with
  | true => rw [padded, if_pos rfl, List.length_append, List.length_replicate, Nat.add_comm]
  | false => rw [padded, if_neg Bool.false_ne_true, List.length_append, List.length_replicate]

section Padding

variable {enc : Encoding} {d : Directive} {limit : Option Nat} {w : List UInt32}
  {bytes : List UInt8}

/-- Wide text that can be written is padded by what was measured. -/
theorem bytes_wideText_within (hd : d.precision? = limit)
    (hmeasured : measureWide enc limit w = .ok bytes.length)
    (hfailure : (widePieces enc limit w).failure = none)
    (hbytes : (widePieces enc limit w).bytes = bytes) :
    (wideText enc d w).failure = none ∧
      (wideText enc d w).bytes =
        padded space d.flags.leftJustify (d.minWidth - bytes.length) bytes := by
  have hlength : Piece.lengthOf (widePieces enc limit w).pieces = bytes.length := by
    rw [← hbytes, Field.bytes, Piece.length_bytesOf]
  rw [wideText, hd]
  cases hleft : d.padsLeft with
  | true =>
    simp only [hmeasured, ite_true]
    have hjustify : d.flags.leftJustify = false := by
      rw [Directive.padsLeft, Bool.and_eq_true, Bool.not_eq_true'] at hleft
      exact hleft.1
    refine ⟨hfailure, ?_⟩
    rw [hjustify, padded, ← hbytes]
    rfl
  | false =>
    simp only [hfailure, Option.isSome_none, Bool.false_eq_true, ite_false, hlength]
    refine ⟨trivial, ?_⟩
    rw [Field.bytes, Piece.bytesOf, List.flatMap_append, List.flatMap_singleton, ← Piece.bytesOf,
      ← Field.bytes, hbytes]
    rw [Directive.padsLeft, Bool.and_eq_false_iff, Bool.not_eq_false', decide_eq_false_iff_not]
      at hleft
    rcases hleft with hjustify | hwidth
    · rw [hjustify]
      rfl
    · have hgap : d.minWidth - bytes.length = 0 := by omega
      rw [hgap, padded]
      split
      · rfl
      · exact List.append_nil _

/-- Wide text that cannot be written to its end fails, and is not begun where padding would come
before it. -/
theorem failure_wideText_within {e : Failure} (hd : d.precision? = limit)
    (hmeasured : measureWide enc limit w = .error e)
    (hfailure : (widePieces enc limit w).failure = some e) :
    (wideText enc d w).failure = some e ∧
      (wideText enc d w).bytes = if d.padsLeft then [] else (widePieces enc limit w).bytes := by
  rw [wideText, hd]
  cases hleft : d.padsLeft with
  | true =>
    simp only [hmeasured, ite_true]
    exact ⟨trivial, rfl⟩
  | false =>
    simp only [hfailure, Option.isSome_some, Bool.false_eq_true, ite_true, ite_false, and_self]

/-- A text goes up to its end or to its first zero. -/
theorem dropWhile_ne_zero (w : List UInt32) :
    w.dropWhile (· ≠ 0) = [] ∨ ∃ rest, w.dropWhile (· ≠ 0) = 0 :: rest := by
  have hhead := List.head?_dropWhile_not (· ≠ 0) w
  cases hdrop : w.dropWhile (· ≠ 0) with
  | nil => exact Or.inl rfl
  | cons wc rest =>
    rw [hdrop] at hhead
    have hz : wc = 0 := Decidable.not_not.mp (of_decide_eq_false hhead)
    exact Or.inr ⟨rest, by rw [hz]⟩

/-- Without a precision nothing is cut off a text, and it is written as the closed text. -/
theorem exists_cutsAt_closedText (hw : enc.IsText (w.takeWhile (· ≠ 0))) :
    ∃ bytes t rest, CutsAt enc none w (w.takeWhile (· ≠ 0)) bytes t rest none ∧
      closedWithin none bytes t = enc.closedText w := by
  obtain ⟨bytes, t, h, ht, hclosed⟩ := hw.exists_closedText
  have hends : EndsAt enc none bytes.length t (w.dropWhile (· ≠ 0)) none := by
    rcases dropWhile_ne_zero w with hdrop | ⟨rest, hdrop⟩
    · rw [hdrop]
      exact .drained
    · rw [hdrop]
      exact .terminator rest
  exact ⟨bytes, t, w.dropWhile (· ≠ 0), ⟨List.takeWhile_append_dropWhile.symm,
    not_mem_takeWhile_zero w, h, rfl, hends⟩, hclosed.symm⟩

/-- Wide text without a precision is the closed text with its padding. -/
theorem bytes_wideText (hd : d.precision = .absent) (hw : enc.IsText (w.takeWhile (· ≠ 0))) :
    (wideText enc d w).failure = none ∧
      (wideText enc d w).bytes = padded space d.flags.leftJustify
        (d.minWidth - (enc.closedText w).length) (enc.closedText w) := by
  have hprecision : d.precision? = none := congrArg Measure.value? hd
  obtain ⟨bytes, t, rest, hcut, hclosed⟩ := exists_cutsAt_closedText hw
  obtain ⟨hfailure, hbytes⟩ := hcut.widePieces
  have hmeasured := hcut.measureWide
  rw [hclosed] at hmeasured hbytes
  exact bytes_wideText_within hprecision hmeasured hfailure hbytes

/-- A text without a sign is padded with spaces. -/
theorem bytesOf_layout (d : Directive) (text : List UInt8) :
    Piece.bytesOf (layout d false [] [.text text]) =
      padded space d.flags.leftJustify (d.minWidth - text.length) text := by
  have hlength : ([] : List UInt8).length + Piece.lengthOf [.text text] = text.length :=
    Nat.zero_add _
  simp only [layout, hlength, padded]
  cases d.flags.leftJustify with
  | true =>
    simp only [ite_true, Piece.bytesOf, List.flatMap_append, List.flatMap_cons, List.flatMap_nil,
      Piece.bytes, List.append_nil, List.nil_append]
  | false =>
    simp only [Bool.false_eq_true, ite_false, Piece.bytesOf, List.flatMap_cons, List.flatMap_nil,
      Piece.bytes, List.append_nil, List.nil_append]

/-- Text without a precision is what stands before its first zero byte, with its padding. -/
theorem bytes_text (hd : d.precision = .absent) (text : List UInt8) :
    let shown := text.takeWhile (· ≠ 0)
    (Field.text d text).bytes =
      padded space d.flags.leftJustify (d.minWidth - shown.length) shown := by
  have hprecision : d.precision? = none := congrArg Measure.value? hd
  rw [Field.text, hprecision]
  exact bytesOf_layout d _

end Padding

end Field

end FormattedText
