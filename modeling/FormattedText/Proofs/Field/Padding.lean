import FormattedText.Proofs.Field.WideText
import FormattedText.Proofs.Number.Decimal
import FormattedText.Proofs.Number.Hexadecimal
import FormattedText.Rendering

/-!
# The padding of a field

Padding stands behind a text, before it, or between its lead, that is its sign and its `0x`, and
the rest (`Padding.apply`). Where a field without a width has no failure, the field of the same
directive with a width is its text with padding, and where it fails, the other one fails alike
(`Field.Widened`). That holds of each kind of field: the lead of a number is what stands before
its padding (`splitLead_append`), and wide text is padded by what is measured of it.
-/

namespace FormattedText

/-- Where the padding of a field stands. -/
inductive Padding where
  /-- Spaces behind the text. -/
  | behind
  /-- Zeros between the lead of the text and its rest. -/
  | between
  /-- Spaces before the text. -/
  | before
  deriving DecidableEq, Repr

/-- Is the byte a sign, which may be a space? -/
def isSignByte (b : UInt8) : Bool := [asciiByte '-', asciiByte '+', Field.space].contains b

/-- Is the byte the mark of a hexadecimal number behind its zero? -/
def isHexMark (b : UInt8) : Bool := [asciiByte 'x', asciiByte 'X'].contains b

/-- Takes the sign off a text, if it begins with one. -/
def splitSign : List UInt8 → List UInt8 × List UInt8
  | [] => ([], [])
  | b :: rest => if isSignByte b then ([b], rest) else ([], b :: rest)

/-- Takes `0x` off a text, in either case, if it begins so. -/
def splitHex : List UInt8 → List UInt8 × List UInt8
  | b :: c :: rest =>
      if b = Field.zero ∧ isHexMark c then ([b, c], rest) else ([], b :: c :: rest)
  | text => ([], text)

/-- Takes the sign and `0x` off a text. -/
def splitLead (text : List UInt8) : List UInt8 × List UInt8 :=
  let (sign, rest) := splitSign text
  let (hex, rest) := splitHex rest
  (sign ++ hex, rest)

/-- Puts padding to a text. -/
def Padding.apply (padding : Padding) (gap : Nat) (text : List UInt8) : List UInt8 :=
  match padding with
  | behind => text ++ List.replicate gap Field.space
  | between => (splitLead text).1 ++ List.replicate gap Field.zero ++ (splitLead text).2
  | before => List.replicate gap Field.space ++ text

section Leads

variable {sign hex body : List UInt8}

theorem splitSign_append_eq (text : List UInt8) :
    (splitSign text).1 ++ (splitSign text).2 = text := by
  cases text with
  | nil => rfl
  | cons b rest =>
    rw [splitSign]
    split <;> rfl

theorem splitHex_append_eq (text : List UInt8) : (splitHex text).1 ++ (splitHex text).2 = text := by
  fun_cases splitHex text <;> simp only [*, List.nil_append, List.cons_append]

/-- Splitting a text takes nothing from it. -/
theorem splitLead_append_eq (text : List UInt8) :
    (splitLead text).1 ++ (splitLead text).2 = text := by
  rw [splitLead, List.append_assoc, splitHex_append_eq, splitSign_append_eq]

theorem Padding.length_apply (padding : Padding) (gap : Nat) (text : List UInt8) :
    (padding.apply gap text).length = gap + text.length := by
  have hall := congrArg List.length (splitLead_append_eq text)
  rw [List.length_append] at hall
  cases padding <;> simp only [apply, List.length_append, List.length_replicate] <;> omega

/-- Nothing is padded where there is no gap. -/
theorem Padding.apply_zero (padding : Padding) (text : List UInt8) :
    padding.apply 0 text = text := by
  cases padding with
  | behind => exact List.append_nil text
  | between => rw [apply, List.replicate_zero, List.append_nil, splitLead_append_eq]
  | before => rfl

/-- A sign, or none. -/
inductive IsSign : List UInt8 → Prop
  /-- There is none. -/
  | none : IsSign []
  /-- There is one. -/
  | some {b : UInt8} (h : isSignByte b = true) : IsSign [b]

/-- A hexadecimal mark, or none. -/
inductive IsHex : List UInt8 → Prop
  /-- There is none. -/
  | none : IsHex []
  /-- There is one. -/
  | some {x : UInt8} (h : isHexMark x = true) : IsHex [Field.zero, x]

/-- What follows the lead of a number: it does not begin with a sign, and no mark of a hexadecimal
number occurs in it. -/
structure IsBody (body : List UInt8) : Prop where
  /-- The first byte is no sign. -/
  head : ∀ b ∈ body.head?, isSignByte b = false
  /-- No byte is a hexadecimal mark. -/
  unmarked : ∀ b ∈ body, isHexMark b = false

theorem splitHex_append (hhex : IsHex hex) (hbody : IsBody body) :
    splitHex (hex ++ body) = (hex, body) := by
  cases hhex with
  | some hx => exact if_pos ⟨rfl, hx⟩
  | none =>
    rw [List.nil_append]
    fun_cases splitHex body with
    | case1 b c rest hmark =>
      rw [hbody.unmarked c (List.mem_cons_of_mem b List.mem_cons_self)] at hmark
      exact absurd hmark.2 Bool.false_ne_true
    | case2 b c rest => rfl
    | case3 text => rfl

/-- The lead of a number is taken off it. -/
theorem splitLead_append (hsign : IsSign sign) (hhex : IsHex hex) (hbody : IsBody body) :
    splitLead (sign ++ hex ++ body) = (sign ++ hex, body) := by
  have hhead : ∀ b ∈ (hex ++ body).head?, isSignByte b = false := by
    cases hhex with
    | none => exact hbody.head
    | some hx =>
      intro b hb
      cases hb
      rfl
  have hsplit : splitSign (sign ++ (hex ++ body)) = (sign, hex ++ body) := by
    cases hsign with
    | some hb => exact if_pos hb
    | none =>
      rw [List.nil_append]
      cases hrest : hex ++ body with
      | nil => rfl
      | cons b rest =>
        rw [hrest] at hhead
        have hb := hhead b rfl
        rw [splitSign, if_neg (by rw [hb]; exact Bool.false_ne_true)]
  rw [List.append_assoc]
  simp only [splitLead, hsplit, splitHex_append hhex hbody]

theorem isSign_signText (flags : Flags) (negative : Bool) : IsSign (signText flags negative) := by
  rw [signText]
  repeat' split
  · exact .some rfl
  · exact .some rfl
  · exact .some rfl
  · exact .none

end Leads

/-- The padding of a layout. -/
def Padding.ofLayout (flags : Flags) (zeroFill : Bool) : Padding :=
  if flags.leftJustify then .behind else if zeroFill then .between else .before

/-- The directive with another width. -/
def Directive.widened (d : Directive) (w : Nat) : Directive := { d with width := .fixed w }

namespace Field

/-- A field `g` is the field `f` brought to a width `w`. -/
structure Widened (padding : Padding) (w : Nat) (f g : Field) : Prop where
  /-- Both fail alike, or neither fails. -/
  failure : g.failure = f.failure
  /-- A field that does not fail is padded. -/
  padded : f.failure = none → g.bytes = padding.apply (w - f.bytes.length) f.bytes
  /-- A field that fails behind bytes fails at a character. -/
  invalid : ∀ e, f.failure = some e → f.bytes ≠ [] → e = .invalidSequence
  /-- A field that fails is not padded, and not begun where spaces would stand before it. -/
  refused : f.failure ≠ none → g.bytes = if padding = .before ∧ 0 < w then [] else f.bytes

section Layout

variable {enc : Encoding} {d : Directive} {sign hex : List UInt8} {body : List Piece} {w : Nat}
  {zeroFill : Bool}

theorem bytes_complete (pieces : List Piece) : (complete pieces).bytes = Piece.bytesOf pieces := rfl

/-- The bytes of a layout. -/
theorem bytesOf_layout_parts (d : Directive) (zeroFill : Bool) (lead : List UInt8)
    (body : List Piece) :
    let text := lead ++ Piece.bytesOf body
    let gap := d.minWidth - text.length
    Piece.bytesOf (layout d zeroFill lead body) =
      if d.flags.leftJustify then text ++ List.replicate gap space
      else if zeroFill then lead ++ List.replicate gap zero ++ Piece.bytesOf body
      else List.replicate gap space ++ text := by
  have hlength : (lead ++ Piece.bytesOf body).length = lead.length + Piece.lengthOf body := by
    rw [List.length_append, Piece.length_bytesOf]
  simp only [layout, hlength]
  split
  · simp only [Piece.bytesOf, List.cons_append, List.flatMap_cons, List.flatMap_append,
      List.flatMap_nil, List.append_nil, Piece.bytes, List.append_assoc]
  · split
    · simp only [Piece.bytesOf, List.flatMap_cons, Piece.bytes, List.append_assoc]
    · simp only [Piece.bytesOf, List.flatMap_cons, Piece.bytes]

/-- A layout without a width is the text itself. -/
theorem bytes_layout_of_absent (hd : d.minWidth = 0) (zeroFill : Bool) (lead : List UInt8)
    (body : List Piece) :
    Piece.bytesOf (layout d zeroFill lead body) = lead ++ Piece.bytesOf body := by
  rw [bytesOf_layout_parts]
  simp only [hd, Nat.zero_sub, List.replicate_zero, List.append_nil, List.nil_append, ite_self]

/-- A layout with a width is the text with padding. -/
theorem bytes_layout_padded (hsplit : zeroFill = true →
      splitLead (sign ++ Piece.bytesOf body) = (sign, Piece.bytesOf body)) :
    Piece.bytesOf (layout d zeroFill sign body) =
      (Padding.ofLayout d.flags zeroFill).apply
        (d.minWidth - (sign ++ Piece.bytesOf body).length) (sign ++ Piece.bytesOf body) := by
  rw [bytesOf_layout_parts, Padding.ofLayout]
  cases d.flags.leftJustify with
  | true => rfl
  | false =>
    cases zeroFill with
    | false => rfl
    | true =>
      simp only [Bool.false_eq_true, ite_false, ite_true, Padding.apply, hsplit rfl]

/-- A layout is brought to a width by its padding. -/
theorem widened_layout (hd : d.minWidth = 0) (w : Nat)
    (hsplit : zeroFill = true →
      splitLead (sign ++ Piece.bytesOf body) = (sign, Piece.bytesOf body)) :
    Widened (Padding.ofLayout d.flags zeroFill) w (complete (layout d zeroFill sign body))
      (complete (layout (d.widened w) zeroFill sign body)) := by
  refine ⟨rfl, fun _ => ?_, fun _ h => (by cases h), fun h => absurd rfl h⟩
  rw [bytes_complete, bytes_complete, bytes_layout_of_absent hd, bytes_layout_padded hsplit]
  rfl

/-- A text without a lead is padded with spaces. -/
theorem widened_text (hd : d.minWidth = 0) (w : Nat) (text : List UInt8) :
    Widened (Padding.ofLayout d.flags false) w (complete (layout d false [] [.text text]))
      (complete (layout (d.widened w) false [] [.text text])) :=
  widened_layout hd w fun h => absurd h Bool.false_ne_true

end Layout

section Numbers

variable {d : Directive} {w : Nat} {lead digits : List UInt8}

/-- Is the byte neither a sign nor a hexadecimal mark? -/
def isPlainByte (b : UInt8) : Bool := !isSignByte b && !isHexMark b

theorem isPlainByte_digit : ∀ n < 16, isPlainByte (Digits.byte n) = true ∧
    isPlainByte (upperByte (Digits.byte n)) = true := by
  decide

theorem not_sign_of_isPlain {b : UInt8} (h : isPlainByte b = true) : isSignByte b = false := by
  rw [isPlainByte, Bool.and_eq_true, Bool.not_eq_true'] at h
  exact h.1

theorem not_hex_of_isPlain {b : UInt8} (h : isPlainByte b = true) : isHexMark b = false := by
  rw [isPlainByte, Bool.and_eq_true, Bool.not_eq_true', Bool.not_eq_true'] at h
  exact h.2

theorem isBody_of_plain {body : List UInt8} (h : ∀ b ∈ body, isPlainByte b = true) : IsBody body :=
  ⟨fun b hb => not_sign_of_isPlain (h b (List.mem_of_mem_head? hb)),
    fun b hb => not_hex_of_isPlain (h b hb)⟩

theorem isPlain_text {base : Nat} (hlow : 2 ≤ base) (hhigh : base ≤ 16) (n : Nat) :
    ∀ b ∈ Digits.text base n, isPlainByte b = true ∧ isPlainByte (upperByte b) = true := by
  intro b hb
  obtain ⟨digit, hdigit, rfl⟩ := List.mem_map.mp hb
  exact isPlainByte_digit digit
    (Nat.lt_of_lt_of_le (Digits.lt_of_mem_inBase hlow hdigit) hhigh)

/-- The bases of the conversions are between eight and sixteen. -/
theorem base_ofConversion (c : UInt8) :
    8 ≤ (Radix.ofConversion c).base ∧ (Radix.ofConversion c).base ≤ 16 := by
  rw [Radix.ofConversion]
  repeat' split
  all_goals decide

theorem isPlain_radixText {r : Radix} (hlow : 2 ≤ r.base) (hhigh : r.base ≤ 16) (n : Nat) :
    ∀ b ∈ r.text n, isPlainByte b = true := by
  intro b hb
  rw [Radix.text] at hb
  split at hb
  · obtain ⟨c, hc, rfl⟩ := List.mem_map.mp hb
    exact (isPlain_text hlow hhigh n c hc).2
  · exact (isPlain_text hlow hhigh n b hb).1

theorem isPlain_shownDigits {r : Radix} (hlow : 2 ≤ r.base) (hhigh : r.base ≤ 16)
    (d : Directive) (n : Nat) : ∀ b ∈ shownDigits d r n, isPlainByte b = true := by
  intro b hb
  rw [shownDigits] at hb
  split at hb
  · cases hb
  · exact isPlain_radixText hlow hhigh n b hb

/-- Digits behind a lead are brought to a width: with zeros behind the lead if the flag asks for
them and there is no precision. -/
theorem widened_digits {sign hex : List UInt8} (hd : d.minWidth = 0) (w : Nat) (hsign : IsSign sign)
    (hhex : IsHex hex) (hdigits : ∀ b ∈ digits, isPlainByte b = true) (minDigits : Nat) :
    Widened (.ofLayout d.flags (d.flags.zeroPad && d.precision?.isNone)) w
      (Field.digits d (sign ++ hex) digits minDigits)
      (Field.digits (d.widened w) (sign ++ hex) digits minDigits) := by
  refine widened_layout hd w fun _ => splitLead_append hsign hhex (isBody_of_plain fun b hb => ?_)
  simp only [Piece.bytesOf, List.flatMap_cons, List.flatMap_nil, Piece.bytes, List.append_nil] at hb
  rcases List.mem_append.mp hb with hzero | hdigit
  · rw [List.eq_of_mem_replicate hzero]
    rfl
  · exact hdigits b hdigit

theorem widened_signed (hd : d.minWidth = 0) (w : Nat) (n : Int) :
    Widened (.ofLayout d.flags (d.flags.zeroPad && d.precision?.isNone)) w (signed d n)
      (signed (d.widened w) n) := by
  have hwide := widened_digits hd w (isSign_signText d.flags (decide (n < 0))) .none
    (isPlain_shownDigits (r := .decimal) (by decide) (by decide) d n.natAbs) (d.precision?.getD 0)
  rw [List.append_nil] at hwide
  exact hwide

theorem isHex_radixLead (d : Directive) (n : Nat) : IsHex (radixLead d n) := by
  rw [radixLead]
  split
  · rename_i h
    refine .some ?_
    rcases h.2.2 with hc | hc <;> rw [hc] <;> rfl
  · exact .none

theorem widened_unsigned (hd : d.minWidth = 0) (w : Nat) (n : Nat) :
    Widened (.ofLayout d.flags (d.flags.zeroPad && d.precision?.isNone)) w (unsigned d n)
      (unsigned (d.widened w) n) := by
  obtain ⟨hlow, hhigh⟩ := base_ofConversion d.conversion
  exact widened_digits hd w .none (isHex_radixLead d n)
    (isPlain_shownDigits (by omega) hhigh d n) _

theorem widened_pointer (hd : d.minWidth = 0) (w : Nat) (n : Nat) :
    Widened (.ofLayout d.flags (d.flags.zeroPad && d.precision?.isNone)) w (pointer d n)
      (pointer (d.widened w) n) :=
  widened_digits hd w .none (.some rfl)
    (fun b hb => (isPlain_text (by decide) (by decide) n b hb).1) _

end Numbers

section Floats

open Numeral

variable {d : Directive} {v : Binary64} {n : Numeral} {style : Style}

/-- The case that a conversion writes letters in. -/
def cased (d : Directive) (text : List UInt8) : List UInt8 :=
  if isUpperByte d.conversion then text.map upperByte else text

/-- The field of a finite number, with the parts that its conversion gives. -/
theorem floating_of_finite (hv : v.isFinite = true) (d : Directive) :
    floating d v = complete (layout d d.flags.zeroPad
      (signText d.flags v.isNegative ++ cased d (magnitude d v).1)
      [.text (cased d (magnitude d v).2)]) :=
  if_pos hv

theorem floating_of_not_finite (hv : v.isFinite = false) (d : Directive) :
    floating d v = complete (layout d false (signText d.flags v.isNegative)
      [.text (cased d (nonFiniteWord v))]) :=
  if_neg (by rw [hv]; exact Bool.false_ne_true)

/-- The magnitude of a number is a numeral, behind `0x` where it is hexadecimal. -/
theorem exists_numeral (d : Directive) (v : Binary64) :
    ∃ style n, (style = Style.decimal ∨ style = Style.hexadecimal) ∧ n.IsIn style.base ∧
      (magnitude d v).2 = style.write n ∧
      ((magnitude d v).1 = [] ∨ (magnitude d v).1 = [zero, asciiByte 'x']) := by
  simp only [magnitude]
  split
  · exact ⟨.decimal, _, Or.inl rfl, isIn_ofInteger (by decide), Decimal.exponential_eq _ _ _,
      Or.inl rfl⟩
  · split
    · exact ⟨.decimal, _, Or.inl rfl, Decimal.isIn_generalNumeral _ _ _, Decimal.general_eq _ _ _,
        Or.inl rfl⟩
    · split
      · exact ⟨.hexadecimal, _, Or.inr rfl, Hexadecimal.isIn_numeral _ _ _,
          Hexadecimal.text_eq _ _ _, Or.inr rfl⟩
      · exact ⟨.decimal, _, Or.inl rfl, isIn_ofInteger (by decide), Decimal.fixed_eq _ _ _,
          Or.inl rfl⟩

/-- A byte that neither case makes a hexadecimal mark. -/
def isUnmarkedByte (b : UInt8) : Bool := !isHexMark b && !isHexMark (upperByte b)

theorem isUnmarked_digit : ∀ k < 16, isUnmarkedByte (Digits.byte k) = true := by
  decide

theorem isUnmarked_digits {base : Nat} (hbase : base ≤ 16) {ds : List Nat}
    (h : ∀ k ∈ ds, k < base) :
    ∀ b ∈ ds.map Digits.byte, isUnmarkedByte b = true := by
  intro b hb
  obtain ⟨k, hk, rfl⟩ := List.mem_map.mp hb
  exact isUnmarked_digit k (Nat.lt_of_lt_of_le (h k hk) hbase)

/-- No byte of an exponent is a hexadecimal mark. -/
theorem isUnmarked_exponentText {marker : UInt8} (hmarker : isUnmarkedByte marker = true) (e : Int)
    (k : Nat) : ∀ b ∈ Decimal.exponentText marker e k, isUnmarkedByte b = true := by
  intro b hb
  rw [Decimal.exponentText] at hb
  rcases List.mem_cons.mp hb with rfl | hb
  · exact hmarker
  rcases List.mem_cons.mp hb with rfl | hb
  · split <;> rfl
  · rcases List.mem_append.mp hb with hzero | hdigit
    · rw [List.eq_of_mem_replicate hzero]
      rfl
    · exact isUnmarked_digits (by decide : 10 ≤ 16)
        (fun k hk => Digits.lt_of_mem_inBase (by decide) hk) b hdigit

/-- No byte of a numeral is a hexadecimal mark, in either case of its letters. -/
theorem isUnmarked_write (hstyle : style = .decimal ∨ style = .hexadecimal)
    (hn : n.IsIn style.base) : ∀ b ∈ style.write n, isUnmarkedByte b = true := by
  have hbase : style.base ≤ 16 := by rcases hstyle with rfl | rfl <;> decide
  have hmarker : isUnmarkedByte style.marker = true := by rcases hstyle with rfl | rfl <;> rfl
  intro b hb
  rw [Style.write, List.mem_append, List.mem_append] at hb
  rcases hb with (hwhole | hfraction) | hexponent
  · exact isUnmarked_digits hbase hn.whole_lt b hwhole
  · cases hds : n.fraction with
    | none =>
      rw [hds] at hfraction
      cases hfraction
    | some ds =>
      rw [hds, Option.elim_some] at hfraction
      rcases List.mem_cons.mp hfraction with rfl | hdigit
      · rfl
      · exact isUnmarked_digits hbase (hn.fraction_lt ds hds) b hdigit
  · cases he : n.exponent with
    | none =>
      rw [he] at hexponent
      cases hexponent
    | some e =>
      rw [he, Option.elim_some] at hexponent
      exact isUnmarked_exponentText hmarker e _ b hexponent

/-- The first byte of a numeral is a digit. -/
theorem exists_head_write (style : Style) (hbase : style.base ≤ 16) (hn : n.IsIn style.base) :
    ∃ k < 16, ∃ more, style.write n = Digits.byte k :: more := by
  cases hwhole : n.whole with
  | nil => exact absurd hwhole hn.whole_ne_nil
  | cons k ks =>
    have hk := hn.whole_lt k (by rw [hwhole]; exact List.mem_cons_self)
    refine ⟨k, Nat.lt_of_lt_of_le hk hbase, (style.write { n with whole := ks }), ?_⟩
    rw [Style.write, hwhole, List.map_cons, List.cons_append, List.cons_append]
    rfl

/-- A numeral is what follows the lead of a number, in either case of its letters. -/
theorem isBody_cased (hstyle : style = .decimal ∨ style = .hexadecimal) (hn : n.IsIn style.base)
    (d : Directive) : IsBody (cased d (style.write n)) := by
  have hbase : style.base ≤ 16 := by rcases hstyle with rfl | rfl <;> decide
  obtain ⟨k, hk, more, hwrite⟩ := exists_head_write style hbase hn
  have hplain := isPlainByte_digit k hk
  have hunmarked (b : UInt8) (hb : b ∈ style.write n) :
      isHexMark b = false ∧ isHexMark (upperByte b) = false := by
    have hbyte := isUnmarked_write hstyle hn b hb
    rw [isUnmarkedByte, Bool.and_eq_true, Bool.not_eq_true', Bool.not_eq_true'] at hbyte
    exact hbyte
  rw [cased]
  split
  · constructor
    · intro b hb
      rw [hwrite, List.map_cons] at hb
      cases hb
      exact not_sign_of_isPlain hplain.2
    · intro b hb
      obtain ⟨c, hc, rfl⟩ := List.mem_map.mp hb
      exact (hunmarked c hc).2
  · constructor
    · intro b hb
      rw [hwrite] at hb
      cases hb
      exact not_sign_of_isPlain hplain.1
    · exact fun b hb => (hunmarked b hb).1

theorem isHex_cased {hex : List UInt8} (h : hex = [] ∨ hex = [zero, asciiByte 'x'])
    (d : Directive) :
    IsHex (cased d hex) := by
  rcases h with rfl | rfl
  · rw [cased, List.map_nil, ite_self]
    exact .none
  · rw [cased]
    split
    · exact .some rfl
    · exact .some rfl

/-- The lead of a finite number is taken off it. -/
theorem splitLead_magnitude (d : Directive) (v : Binary64) :
    let lead := signText d.flags v.isNegative ++ cased d (magnitude d v).1
    splitLead (lead ++ Piece.bytesOf [.text (cased d (magnitude d v).2)]) =
      (lead, Piece.bytesOf [.text (cased d (magnitude d v).2)]) := by
  obtain ⟨style, n, hstyle, hn, hwrite, hlead⟩ := exists_numeral d v
  have hbody := isBody_cased hstyle hn d
  rw [← hwrite] at hbody
  have hbytes : Piece.bytesOf [.text (cased d (magnitude d v).2)] = cased d (magnitude d v).2 :=
    List.append_nil _
  rw [hbytes]
  exact splitLead_append (isSign_signText _ _) (isHex_cased hlead d) hbody

/-- A finite number is padded with zeros behind its lead if the flag asks for them. -/
theorem widened_finite (hd : d.minWidth = 0) (w : Nat) (hv : v.isFinite = true) :
    Widened (.ofLayout d.flags d.flags.zeroPad) w (floating d v) (floating (d.widened w) v) := by
  rw [floating_of_finite hv, floating_of_finite hv]
  exact widened_layout hd w fun _ => splitLead_magnitude d v

/-- The words of other values are padded with spaces. -/
theorem widened_not_finite (hd : d.minWidth = 0) (w : Nat) (hv : v.isFinite = false) :
    Widened (.ofLayout d.flags false) w (floating d v) (floating (d.widened w) v) := by
  rw [floating_of_not_finite hv, floating_of_not_finite hv]
  exact widened_layout hd w fun h => absurd h Bool.false_ne_true

end Floats

section Texts

variable {enc : Encoding} {d : Directive}

theorem widened_string (hd : d.minWidth = 0) (w : Nat) (bytes : List UInt8) :
    Widened (.ofLayout d.flags false) w (text d bytes) (text (d.widened w) bytes) :=
  widened_text hd w _

theorem widened_wideChar (hd : d.minWidth = 0) (w : Nat) (wc : UInt32) :
    Widened (.ofLayout d.flags false) w (wideChar enc d wc) (wideChar enc (d.widened w) wc) := by
  rw [wideChar, wideChar]
  generalize enc.encodeOne (some Encoding.longestCharacter) wc .initial = encoded
  obtain ⟨result, bytes, state⟩ := encoded
  cases result with
  | ok n => exact widened_text hd w bytes
  | error e =>
    refine ⟨rfl, fun h => ?_, fun _ _ hne => absurd rfl hne, fun _ => (ite_self _).symm⟩
    cases h

/-- With a width, text is padded on its left where spaces stand before it. -/
theorem padsLeft_widened (d : Directive) (w : Nat) :
    (d.widened w).padsLeft = true ↔ Padding.ofLayout d.flags false = .before ∧ 0 < w := by
  have hflags : (d.widened w).flags = d.flags := rfl
  have hwidth : (d.widened w).minWidth = w := rfl
  rw [Directive.padsLeft, hflags, hwidth, Padding.ofLayout, Bool.and_eq_true, decide_eq_true_iff]
  cases d.flags.leftJustify with
  | true => exact ⟨fun h => (by cases h.1), fun h => (by cases h.1)⟩
  | false => exact ⟨fun h => ⟨rfl, h.2⟩, fun h => ⟨rfl, h.2⟩⟩

/-- Wide text is padded by what is measured of it, or fails at the same character. -/
theorem widened_wideText (hd : d.minWidth = 0) (w : Nat) (wide : List UInt32) :
    Widened (.ofLayout d.flags false) w (wideText enc d wide)
      (wideText enc (d.widened w) wide) := by
  obtain ⟨taken, bytes, t, hmeasured⟩ := exists_measuredAsWritten enc d.precision? wide
  by_cases hrefuses : Refuses enc d.precision? wide taken bytes t
  · obtain ⟨hmeasure, hfailure, hbytes⟩ := hmeasured.refused hrefuses
    obtain ⟨hplain, hplainBytes⟩ := failure_wideText_within (d := d) rfl hmeasure hfailure
    obtain ⟨hwide, hwideBytes⟩ :=
      failure_wideText_within (d := d.widened w) rfl hmeasure hfailure
    have hnone : d.padsLeft = false := by
      rw [Directive.padsLeft, hd]
      exact Bool.and_false _
    rw [hnone, if_neg Bool.false_ne_true] at hplainBytes
    refine ⟨hwide.trans hplain.symm, fun h => ?_, fun e he _ => ?_, fun _ => ?_⟩
    · rw [hplain] at h
      cases h
    · exact Option.some.inj (he.symm.trans hplain)
    · rw [hwideBytes, hplainBytes]
      exact if_congr (padsLeft_widened d w) rfl rfl
  · obtain ⟨hmeasure, hfailure, hbytes⟩ := hmeasured.written hrefuses
    obtain ⟨hplain, hplainBytes⟩ := bytes_wideText_within (d := d) rfl hmeasure hfailure hbytes
    obtain ⟨hwide, hwideBytes⟩ :=
      bytes_wideText_within (d := d.widened w) rfl hmeasure hfailure hbytes
    refine ⟨hwide.trans hplain.symm, fun _ => ?_, fun e he => ?_, fun h => absurd hplain h⟩
    · have hwhole : (wideText enc d wide).bytes = closedWithin d.precision? bytes t := by
        rw [hplainBytes, hd, Nat.zero_sub, padded, List.replicate_zero, List.append_nil,
          List.nil_append, ite_self]
      rw [hwhole, hwideBytes, padded, Padding.ofLayout]
      change (if d.flags.leftJustify then _ else _) = _
      cases d.flags.leftJustify with
      | true => rfl
      | false => rfl
    · rw [hplain] at he
      cases he

end Texts

end Field

end FormattedText
