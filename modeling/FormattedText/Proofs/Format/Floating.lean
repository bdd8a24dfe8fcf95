import FormattedText.Proofs.Field.Padding
import FormattedText.Proofs.Format.Single
import FormattedText.Proofs.Number.Words

/-!
# Prints of a finite number

A directive that converts a finite number prints its sign, the text of its magnitude in the case
of the conversion, and padding (`printToMemory_finite`). In hexadecimal digits this text is a
numeral that is exact, or rounded to the precision, and it is computed in words that do not
overflow (`printToMemory_hexadecimal`). In the general form it is a numeral in the style that its
exponent asks for, and writes the number that the exponential form writes
(`printToMemory_general`).
-/

namespace FormattedText

namespace Directive

/-- A number with its sign and its padding, its letters in the case of the conversion. -/
def paddedNumber (d : Directive) (negative : Bool) (text : List UInt8) : List UInt8 :=
  let signed := signText d.flags negative ++ Field.cased d text
  (Padding.ofLayout d.flags d.flags.zeroPad).apply (d.minWidth - signed.length) signed

theorem paddedNumber_of_absent {d : Directive} (hd : d.minWidth = 0) (negative : Bool)
    (text : List UInt8) :
    d.paddedNumber negative text = signText d.flags negative ++ Field.cased d text := by
  rw [paddedNumber, hd, Nat.zero_sub, Padding.apply_zero]

/-- The conversion is a letter, in either case. -/
def Converts (d : Directive) (letter : Char) : Prop :=
  d.conversion = asciiByte letter ∨ d.conversion = upperByte (asciiByte letter)

variable {d : Directive} {letter : Char}

theorem Converts.lowerByte_eq (h : d.Converts letter) (hletter : letter ∈ ['e', 'g', 'a']) :
    lowerByte d.conversion = asciiByte letter := by
  simp only [List.mem_cons, List.not_mem_nil, or_false] at hletter
  rcases hletter with rfl | rfl | rfl <;> rcases h with hc | hc <;> rw [hc] <;> rfl

/-- What a conversion of a number does. -/
theorem Converts.kind_eq (h : d.Converts letter) (hletter : letter ∈ ['e', 'g', 'a']) :
    d.kind .full = .floating ∧ d.conversion ≠ percentByte := by
  simp only [List.mem_cons, List.not_mem_nil, or_false] at hletter
  rcases hletter with rfl | rfl | rfl <;> rcases h with hc | hc <;> rw [kind, hc] <;>
    exact ⟨rfl, by decide⟩

end Directive

namespace Field

variable {d : Directive} {v : Binary64}

theorem cased_append (d : Directive) (a b : List UInt8) :
    cased d (a ++ b) = cased d a ++ cased d b := by
  rw [cased, cased, cased]
  split
  · exact List.map_append
  · rfl

theorem magnitude_exponential (h : d.Converts 'e') (v : Binary64) :
    magnitude d v = ([], Decimal.exponential v (d.precision?.getD 6) d.flags.alternate) := by
  rw [magnitude, h.lowerByte_eq (by decide)]
  rfl

theorem magnitude_general (h : d.Converts 'g') (v : Binary64) :
    magnitude d v = ([], Decimal.general v (d.precision?.getD 6) d.flags.alternate) := by
  rw [magnitude, h.lowerByte_eq (by decide)]
  rfl

theorem magnitude_hexadecimal (h : d.Converts 'a') (v : Binary64) :
    magnitude d v =
      (['0', 'x'].map asciiByte, Hexadecimal.text v d.precision? d.flags.alternate) := by
  rw [magnitude, h.lowerByte_eq (by decide)]
  rfl

/-- The field of a finite number. -/
theorem bytes_floating (hv : v.isFinite = true) (d : Directive) :
    (floating d v).bytes =
      d.paddedNumber v.isNegative ((magnitude d v).1 ++ (magnitude d v).2) := by
  have hbytes : Piece.bytesOf [.text (cased d (magnitude d v).2)] = cased d (magnitude d v).2 :=
    List.append_nil _
  rw [floating_of_finite hv, bytes_complete, bytes_layout_padded fun _ => splitLead_magnitude d v,
    hbytes, Directive.paddedNumber, cased_append, List.append_assoc]

end Field

section Printing

open Numeral

variable {options : FormatOptions} {s : List UInt8} {args rest : List Argument} {d : Directive}
  {v : Binary64} {position : Nat} {letter : Char}

/-- What is printed of a finite number. -/
theorem printToMemory_finite (hwriter : options.writer = .full)
    (h : Format.IsDirective s args d ⟨.float v :: rest, position⟩)
    (hletter : letter ∈ ['e', 'g', 'a']) (hconversion : d.Converts letter)
    (hv : v.isFinite = true) :
    (printToMemory options (percentByte :: s) args).Shows
      (d.paddedNumber v.isNegative ((Field.magnitude d v).1 ++ (Field.magnitude d v).2)) := by
  obtain ⟨hkind, hpercent⟩ := hconversion.kind_eq hletter
  have hexpand : d.expand options ⟨.float v :: rest, position⟩ =
      .ok (.field (Field.floating d v), ⟨rest, position + 1⟩) := by
    rw [Directive.expand, hwriter, hkind]
    rfl
  have hfailure : (Field.floating d v).failure = none := by
    rw [Field.floating_of_finite hv]
    rfl
  have hshows := h.shows hpercent hexpand hfailure
  rwa [Field.bytes_floating hv] at hshows

/-- A number in hexadecimal digits is exact, or rounded to the precision. The text of its magnitude
behind `0x` is a numeral, and without a precision this and the sign are the number. No shift and no
sum on the way to its digits goes beyond a word. -/
theorem printToMemory_hexadecimal (hwriter : options.writer = .full)
    (h : Format.IsDirective s args d ⟨.float v :: rest, position⟩) (hconversion : d.Converts 'a')
    (hv : v.isFinite = true) :
    ∃ body n, Style.hexadecimal.read? body = some n ∧
      (printToMemory options (percentByte :: s) args).Shows
        (d.paddedNumber v.isNegative (['0', 'x'].map asciiByte ++ body)) ∧
      Hexadecimal.IsHexadecimal d.precision? |v.toRat| n ∧
      (d.precision? = none →
        v.toRat = if v.isNegative then -n.value .hexadecimal else n.value .hexadecimal) ∧
      ∃ words exponent, HexWords.ofBits? v.bits d.precision? = some (words, exponent) ∧
        words.text d.flags.alternate exponent = body := by
  have hprint := printToMemory_finite hwriter h (by decide) hconversion hv
  rw [Field.magnitude_hexadecimal hconversion] at hprint
  have hnumeral := Hexadecimal.isHexadecimal_numeral v d.precision? d.flags.alternate
  refine ⟨Hexadecimal.text v d.precision? d.flags.alternate,
    Hexadecimal.numeral v d.precision? d.flags.alternate, ?_, hprint, ?_, ?_,
    HexWords.exists_ofBits? v d.precision? d.flags.alternate⟩
  · rw [Hexadecimal.text_eq]
    exact Style.read?_write Style.hexadecimal_separates (Hexadecimal.isIn_numeral _ _ _)
  · rw [Binary64.abs_toRat]
    exact hnumeral
  · intro hprecision
    rw [(hnumeral.exact hprecision).1, Binary64.toRat]

/-- `%.0a` of 1.5 is halfway between 1 and 2, and the even one of them is the digit before the
point. -/
theorem printToMemory_hexadecimal_carry :
    let v : Binary64 := ⟨0x3FF8000000000000⟩
    Hexadecimal.IsHexadecimal (some 0) |v.toRat| ⟨[2], none, some 0⟩ ∧
      (printToMemory ⟨.full, .utf8⟩ [0x25, 0x2E, 0x30, 0x61] [.float v]).Gives (.ok 6)
        [0x30, 0x78, 0x32, 0x70, 0x2B, 0x30] := by
  intro v
  let d : Directive := ⟨.none, .absent, .fixed 0, .plain, 0x61⟩
  have hdirective : Format.IsDirective [0x2E, 0x30, 0x61] [.float v] d ⟨[.float v], 0⟩ :=
    ⟨by decide, d, eq_ok_of_toOption (by decide +kernel), rfl⟩
  obtain ⟨body, n, hread, hshows, hnumeral, _, _⟩ :=
    @printToMemory_hexadecimal ⟨.full, .utf8⟩ _ _ _ d v _ rfl hdirective (Or.inl rfl) (by decide)
  have hgives : (printToMemory ⟨.full, .utf8⟩ [0x25, 0x2E, 0x30, 0x61] [.float v]).Gives (.ok 6)
      [0x30, 0x78, 0x32, 0x70, 0x2B, 0x30] :=
    ⟨eq_ok_of_toOption (by decide +kernel), by decide +kernel⟩
  have hbytes := hgives.2.symm.trans (hshows.gives hgives.1).2
  rw [Directive.paddedNumber_of_absent rfl] at hbytes
  have hbody : [0x30, 0x78] ++ [0x32, 0x70, 0x2B, 0x30] = [0x30, 0x78] ++ body := hbytes
  obtain rfl := List.append_cancel_left hbody
  cases hread
  exact ⟨hnumeral, hgives⟩

/-- The general form chooses a style without changing the number. With `P` significant digits, the
text of the magnitude is a numeral that writes the magnitude rounded to `P` significant digits,
which is one number only, in the style that the exponent of this number asks for. The exponential
conversion of the same number with a digit before the point and `P - 1` behind it writes this
number too. -/
theorem printToMemory_general (hwriter : options.writer = .full)
    (h : Format.IsDirective s args d ⟨.float v :: rest, position⟩) (hconversion : d.Converts 'g')
    (hv : v.isFinite = true) :
    let P := max (d.precision?.getD 6) 1
    ∃ r body n, (∀ k, IsRoundedTo P |v.toRat| k ↔ k = r) ∧
      Style.decimal.read? body = some n ∧
      (printToMemory options (percentByte :: s) args).Shows (d.paddedNumber v.isNegative body) ∧
      Decimal.IsGeneral P d.flags.alternate |v.toRat| r n ∧
      ∀ t args' e rest' position', Format.IsDirective t args' e ⟨.float v :: rest', position'⟩ →
        e.Converts 'e' → e.precision? = some (P - 1) →
        ∃ body' n', Style.decimal.read? body' = some n' ∧
          (printToMemory options (percentByte :: t) args').Shows
            (e.paddedNumber v.isNegative body') ∧
          n'.value .decimal = r := by
  intro P
  have hP : 0 < P := Nat.lt_of_lt_of_le Nat.one_pos (Nat.le_max_right _ _)
  have hprint := printToMemory_finite hwriter h (by decide) hconversion hv
  rw [Field.magnitude_general hconversion] at hprint
  have hnumeral := Decimal.isGeneral_generalNumeral hP v d.flags.alternate
  refine ⟨(Decimal.scientific v (P - 1)).value P, _, Decimal.generalNumeral v P d.flags.alternate,
    fun k => ⟨fun hk => ?_, ?_⟩, ?_, hprint, ?_, ?_⟩
  · rw [Binary64.abs_toRat] at hk
    exact hk.unique hnumeral.rounded
  · rintro rfl
    rw [Binary64.abs_toRat]
    exact hnumeral.rounded
  · rw [Decimal.general_eq]
    exact Style.read?_write Style.decimal_separates (Decimal.isIn_generalNumeral v P _)
  · rw [Binary64.abs_toRat]
    exact hnumeral
  · intro t args' e rest' position' hdirective hexponential hprecision
    have hshown := printToMemory_finite hwriter hdirective (by decide) hexponential hv
    rw [Field.magnitude_exponential hexponential, hprecision] at hshown
    refine ⟨_, Decimal.exponentialNumeral v (P - 1) e.flags.alternate, ?_, hshown,
      Decimal.value_exponentialNumeral hP v e.flags.alternate⟩
    rw [Option.getD_some, Decimal.exponential_eq]
    exact Style.read?_write Style.decimal_separates (isIn_ofInteger (by decide))

/-- Six digits of 999999.5 are those of the next power of ten: its exponent asks for the exponential
form, and `%.5e` writes the same number. -/
theorem printToMemory_general_carry :
    let v : Binary64 := ⟨0x412E847F00000000⟩
    let e : Directive := ⟨.none, .absent, .fixed 5, .plain, 0x65⟩
    ∃ r, Decimal.IsGeneral 6 false |v.toRat| r ⟨[1], none, some 6⟩ ∧
      (printToMemory ⟨.full, .utf8⟩ [0x25, 0x67] [.float v]).Gives (.ok 5)
        [0x31, 0x65, 0x2B, 0x30, 0x36] ∧
      ∃ body n, Style.decimal.read? body = some n ∧
        (printToMemory ⟨.full, .utf8⟩ [0x25, 0x2E, 0x35, 0x65] [.float v]).Shows
          (e.paddedNumber v.isNegative body) ∧
        n.value .decimal = r := by
  intro v e
  let d : Directive := ⟨.none, .absent, .absent, .plain, 0x67⟩
  have hgeneral : Format.IsDirective [0x67] [.float v] d ⟨[.float v], 0⟩ :=
    ⟨by decide, d, eq_ok_of_toOption (by decide +kernel), rfl⟩
  have hexponential : Format.IsDirective [0x2E, 0x35, 0x65] [.float v] e ⟨[.float v], 0⟩ :=
    ⟨by decide, e, eq_ok_of_toOption (by decide +kernel), rfl⟩
  obtain ⟨r, body, n, _, hread, hshows, hnumeral, hsame⟩ :=
    @printToMemory_general ⟨.full, .utf8⟩ _ _ _ d v _ rfl hgeneral (Or.inl rfl) (by decide)
  have hgives : (printToMemory ⟨.full, .utf8⟩ [0x25, 0x67] [.float v]).Gives (.ok 5)
      [0x31, 0x65, 0x2B, 0x30, 0x36] :=
    ⟨eq_ok_of_toOption (by decide +kernel), by decide +kernel⟩
  have hbytes := hgives.2.symm.trans (hshows.gives hgives.1).2
  rw [Directive.paddedNumber_of_absent rfl] at hbytes
  obtain rfl : [0x31, 0x65, 0x2B, 0x30, 0x36] = body := hbytes
  cases hread
  exact ⟨r, hnumeral, hgives, hsame _ _ e _ _ hexponential (Or.inl rfl) rfl⟩

end Printing

end FormattedText
