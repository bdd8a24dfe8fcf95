import FormattedText.Number.Hexadecimal
import FormattedText.Proofs.Number.Places
import Mathlib.Data.List.DropRight
import Mathlib.Algebra.Order.Floor.Semifield
import Mathlib.Data.Rat.Floor
import Mathlib.Tactic.FieldSimp

/-!
# Numerals

A numeral has digits, a point with more digits behind it, and an exponent; a point and an exponent
may be missing. `Numeral.Style.write` writes one as the decimal and the hexadecimal texts do, and
`Numeral.Style.read?` reads it back (`Numeral.Style.read?_write`). An integer with a point put
into it is a numeral (`Numeral.ofInteger`) with the value of the integer in units of its last
place. Zeros at the end of the fraction may go without changing the value
(`Numeral.value_withoutZeros`), and `Decimal.stripZeros` does nothing else
(`Decimal.stripZeros_write`).
-/

namespace FormattedText

/-- Digits, the digits behind the point if there is one, and the exponent if there is one. -/
structure Numeral where
  /-- The digits before the point. -/
  whole : List Nat
  /-- The digits behind the point. -/
  fraction : Option (List Nat)
  /-- The exponent. -/
  exponent : Option Int
  deriving DecidableEq, Repr

namespace Numeral

/-- How numerals are written. -/
structure Style where
  /-- The base of the digits. -/
  base : Nat
  /-- The byte before an exponent. -/
  marker : UInt8
  /-- The number whose power an exponent gives. -/
  scale : Nat
  /-- The least number of digits of an exponent. -/
  exponentDigits : Nat

namespace Style

/-- Decimal digits and an exponent of ten. -/
def decimal : Style := ⟨10, Decimal.exponentMarker, 10, 2⟩

/-- Hexadecimal digits and an exponent of two. -/
def hexadecimal : Style := ⟨16, Hexadecimal.exponentMarker, 2, 1⟩

/-- Writes a numeral. -/
def write (style : Style) (n : Numeral) : List UInt8 :=
  n.whole.map Digits.byte ++ (n.fraction.elim [] fun ds => Decimal.point :: ds.map Digits.byte) ++
    n.exponent.elim [] (Decimal.exponentText style.marker · style.exponentDigits)

/-- Reads an exponent up to the end of a text, if the text does not end before it. -/
def readExponent? (style : Style) : List UInt8 → Option (Option Int)
  | [] => some none
  | [_] => none
  | marker :: sign :: rest =>
      let (digits, behind) := Digits.take 10 rest
      if marker = style.marker ∧ digits ≠ [] ∧ behind = [] then
        if sign = 0x2D then some (some (-Digits.value 10 digits))
        else if sign = 0x2B then some (some (Digits.value 10 digits))
        else none
      else none

/-- Reads a numeral that is all of a text. -/
def read? (style : Style) (text : List UInt8) : Option Numeral :=
  let (whole, rest) := Digits.take style.base text
  if whole = [] then none
  else match rest with
    | [] => some ⟨whole, none, none⟩
    | b :: behind =>
        if b = Decimal.point then
          let (fraction, rest) := Digits.take style.base behind
          (style.readExponent? rest).map fun e => ⟨whole, some fraction, e⟩
        else (style.readExponent? (b :: behind)).map fun e => ⟨whole, none, e⟩

end Style

/-- The number that a numeral writes. -/
def value (style : Style) (n : Numeral) : ℚ :=
  Digits.value style.base (n.whole ++ n.fraction.getD []) /
    (style.base : ℚ) ^ (n.fraction.getD []).length * (style.scale : ℚ) ^ n.exponent.getD 0

/-- The numeral has digits, and they are digits of the base. -/
structure IsIn (base : Nat) (n : Numeral) : Prop where
  /-- There is a digit before the point. -/
  whole_ne_nil : n.whole ≠ []
  /-- The digits before the point are digits of the base. -/
  whole_lt : ∀ d ∈ n.whole, d < base
  /-- The digits behind the point are digits of the base. -/
  fraction_lt : ∀ ds ∈ n.fraction, ∀ d ∈ ds, d < base

/-- The last digit behind the point, if there is one, is not zero. -/
def IsTrimmed (n : Numeral) : Prop := ∀ d ∈ (n.fraction.getD []).getLast?, d ≠ 0

/-- The integer `n` with `places` of its digits behind a point, which is left out where no digits
come behind it unless it is asked for. -/
def ofInteger (base places : Nat) (alternate : Bool) (exponent : Option Int) (n : Nat) : Numeral :=
  ⟨Digits.inBase base (n / base ^ places),
    if places = 0 ∧ ¬alternate then none else some (Digits.lowest base places n), exponent⟩

/-- The numeral without the zeros at the end of its fraction, and without the point if no digit is
left behind it. -/
def withoutZeros (n : Numeral) : Numeral :=
  { n with
    fraction := n.fraction.bind fun ds =>
      if ds.rdropWhile (· == 0) = [] then none else some (ds.rdropWhile (· == 0)) }

section Reading

variable {style : Style} {n : Numeral}

/-- An exponent is written behind the digits. -/
theorem Style.write_exponent (style : Style) (n : Numeral) :
    style.write n = style.write { n with exponent := none } ++
      n.exponent.elim [] (Decimal.exponentText style.marker · style.exponentDigits) := by
  rw [write, write, Option.elim_none, List.append_nil]

/-- Neither a point nor a marker of an exponent is taken for a digit or for one another. -/
structure Style.Separates (style : Style) : Prop where
  /-- The base has a byte for each of its digits. -/
  base_le : style.base ≤ 16
  /-- The point is no digit. -/
  point_none : Digits.digit? style.base Decimal.point = none
  /-- The marker is no digit. -/
  marker_none : Digits.digit? style.base style.marker = none
  /-- The marker is not the point. -/
  marker_ne_point : style.marker ≠ Decimal.point

theorem Style.decimal_separates : decimal.Separates := by
  refine ⟨?_, ?_, ?_, ?_⟩ <;> decide

theorem Style.hexadecimal_separates : hexadecimal.Separates := by
  refine ⟨?_, ?_, ?_, ?_⟩ <;> decide

/-- Digits of the base are read up to a byte that is none. -/
theorem Style.Separates.take (h : style.Separates) {digits : List Nat} {rest : List UInt8}
    (hdigits : ∀ d ∈ digits, d < style.base)
    (hrest : ∀ c ∈ rest.head?, Digits.digit? style.base c = none) :
    Digits.take style.base (digits.map Digits.byte ++ rest) = (digits, rest) :=
  Digits.take_map (fun d hd => Digits.digit?_byte h.base_le (hdigits d hd)) hrest

/-- An exponent is read back. -/
theorem Style.readExponent?_exponentText (style : Style) (e : Int) :
    style.readExponent? (Decimal.exponentText style.marker e style.exponentDigits) =
      some (some e) := by
  have hlt : ∀ d ∈ List.replicate (style.exponentDigits - (Digits.inBase 10 e.natAbs).length) 0 ++
      Digits.inBase 10 e.natAbs, d < 10 := by
    intro d hd
    rcases List.mem_append.mp hd with hzero | hdigit
    · rw [List.eq_of_mem_replicate hzero]
      exact Nat.succ_pos 9
    · exact Digits.lt_of_mem_inBase (by decide) hdigit
  have htake := @Digits.take_map 10 Digits.byte _ []
    (fun d hd => Digits.digit?_byte (by decide) (hlt d hd)) nofun
  rw [List.append_nil] at htake
  rw [Decimal.exponentText, Digits.text, Digits.zeroExtend_text, readExponent?, htake]
  have hne : List.replicate (style.exponentDigits - (Digits.inBase 10 e.natAbs).length) 0 ++
      Digits.inBase 10 e.natAbs ≠ [] :=
    List.append_ne_nil_of_right_ne_nil _ (Digits.inBase_ne_nil (by decide) _)
  simp only [ne_eq, hne, not_false_eq_true, and_self, ite_true]
  rw [Digits.value_zeros, Digits.value_inBase (by decide)]
  by_cases he : e < 0
  · rw [if_pos he, if_pos rfl]
    congr 2
    omega
  · rw [if_neg he, if_neg (by decide), if_pos rfl]
    congr 2
    omega

/-- The text of an exponent begins with its marker, and is read back. -/
theorem Style.readExponent?_elim (style : Style) (e : Option Int) :
    style.readExponent? (e.elim [] (Decimal.exponentText style.marker · style.exponentDigits)) =
      some e := by
  cases e with
  | none => rfl
  | some e => exact style.readExponent?_exponentText e

theorem Style.Separates.exponent_none (h : style.Separates) (e : Option Int) :
    ∀ c ∈ (e.elim [] (Decimal.exponentText style.marker · style.exponentDigits)).head?,
      Digits.digit? style.base c = none := by
  intro c hc
  cases e with
  | none => cases hc
  | some e =>
    cases hc
    exact h.marker_none

/-- A numeral is read back as it is written. -/
theorem Style.read?_write (h : style.Separates) (hn : n.IsIn style.base) :
    style.read? (style.write n) = some n := by
  obtain ⟨whole, fraction, exponent⟩ := n
  have hexponent := style.readExponent?_elim exponent
  cases fraction with
  | none =>
    have htake := h.take hn.whole_lt (h.exponent_none exponent)
    simp only [write, Option.elim_none, List.append_nil, read?, htake, hn.whole_ne_nil, ite_false]
    cases exponent with
    | none => rfl
    | some e =>
      simp only [Option.elim_some] at hexponent ⊢
      rw [Decimal.exponentText] at hexponent ⊢
      simp only [h.marker_ne_point, ite_false, hexponent]
      rfl
  | some ds =>
    have hpoint : ∀ c ∈ (Decimal.point :: ds.map Digits.byte ++ exponent.elim []
        (Decimal.exponentText style.marker · style.exponentDigits)).head?,
        Digits.digit? style.base c = none := by
      intro c hc
      cases hc
      exact h.point_none
    have htake := h.take hn.whole_lt hpoint
    have hbehind := h.take (hn.fraction_lt ds rfl) (h.exponent_none exponent)
    simp only [write, Option.elim_some, List.append_assoc, read?, htake, hn.whole_ne_nil,
      ite_false]
    simp only [List.cons_append, ite_true, hbehind, hexponent]
    rfl

end Reading

section Integers

variable {base n : Nat} {style : Style} {places : Nat} {alternate : Bool} {exponent : Option Int}

/-- The point is left out only where no digit stands behind it. -/
theorem fraction_ofInteger (base places : Nat) (alternate : Bool) (exponent : Option Int)
    (n : Nat) :
    (ofInteger base places alternate exponent n).fraction.getD [] =
      Digits.lowest base places n := by
  rw [ofInteger]
  by_cases hnone : places = 0 ∧ ¬alternate
  · rw [if_pos hnone, hnone.1]
    rfl
  · rw [if_neg hnone, Option.getD_some]

theorem isIn_ofInteger (hbase : 2 ≤ base) :
    (ofInteger base places alternate exponent n).IsIn base := by
  refine ⟨Digits.inBase_ne_nil hbase _, fun d hd => Digits.lt_of_mem_inBase hbase hd,
    fun ds hds d hd => ?_⟩
  have hfraction := fraction_ofInteger base places alternate exponent n
  rw [hds, Option.getD_some] at hfraction
  exact Digits.lt_of_mem_lowest hbase (hfraction ▸ hd)

/-- Before the point stand the digits of the whole part. -/
theorem whole_ofInteger (base places : Nat) (alternate : Bool) (exponent : Option Int) (n : Nat) :
    (ofInteger base places alternate exponent n).whole =
      Digits.inBase base ⌊(n : ℚ) / (base : ℚ) ^ places⌋₊ := by
  rw [ofInteger, ← Nat.cast_pow, Nat.floor_div_eq_div]

/-- All digits of an integer with a point are those of the integer, zeros before them. -/
theorem value_ofInteger (hbase : 2 ≤ style.base) (places : Nat) (alternate : Bool)
    (exponent : Option Int) (n : Nat) :
    (ofInteger style.base places alternate exponent n).value style =
      n / (style.base : ℚ) ^ places * (style.scale : ℚ) ^ exponent.getD 0 := by
  rw [value, fraction_ofInteger, Digits.length_lowest, ofInteger,
    Digits.value_append_lowest hbase]

/-- An integer with a point is written as its numeral. -/
theorem write_ofInteger (hbase : 2 ≤ style.base) (places : Nat) (alternate : Bool)
    (exponent : Option Int) (n : Nat) :
    style.write (ofInteger style.base places alternate exponent n) =
      Decimal.placePoint places alternate (Digits.text style.base n) ++
        exponent.elim [] (Decimal.exponentText style.marker · style.exponentDigits) := by
  rw [Decimal.placePoint_text hbase, Style.write, ofInteger, Digits.text]
  congr 1
  rw [List.append_assoc]
  congr 1
  by_cases hnone : places = 0 ∧ ¬alternate
  · rw [if_pos hnone, if_pos hnone, hnone.1]
    rfl
  · rw [if_neg hnone, if_neg hnone]
    rfl

end Integers

section Trimming

variable {base : Nat} {style : Style} {n : Numeral}

/-- Zeros at the end of digits are a factor of their value. -/
theorem value_append_zeros (base k : Nat) (digits : List Nat) :
    Digits.value base (digits ++ List.replicate k 0) = Digits.value base digits * base ^ k := by
  induction k with
  | zero => rw [List.replicate_zero, List.append_nil, pow_zero, Nat.mul_one]
  | succ k ih =>
    rw [List.replicate_succ', ← List.append_assoc, Digits.value_concat, ih, Nat.add_zero,
      Nat.mul_assoc, pow_succ]

/-- What is taken from the end of digits are zeros. -/
theorem exists_zeros_append (ds : List Nat) :
    ∃ k, ds = ds.rdropWhile (· == 0) ++ List.replicate k 0 := by
  refine ⟨(ds.rtakeWhile (· == 0)).length, ?_⟩
  have hzeros : ds.rtakeWhile (· == 0) = List.replicate (ds.rtakeWhile (· == 0)).length 0 := by
    refine List.eq_replicate_iff.mpr ⟨rfl, fun d hd => ?_⟩
    have hzero := List.mem_rtakeWhile_imp (p := (· == 0)) hd
    exact eq_of_beq hzero
  rw [← hzeros, List.rdropWhile_append_rtakeWhile]

theorem fraction_withoutZeros (n : Numeral) :
    n.withoutZeros.fraction.getD [] = (n.fraction.getD []).rdropWhile (· == 0) := by
  obtain ⟨whole, fraction, exponent⟩ := n
  cases fraction with
  | none => rfl
  | some ds =>
    simp only [withoutZeros, Option.bind_some, Option.getD_some]
    by_cases hnil : ds.rdropWhile (· == 0) = []
    · rw [if_pos hnil, hnil]
      rfl
    · rw [if_neg hnil, Option.getD_some]

/-- Zeros at the end of the fraction do not count. -/
theorem value_withoutZeros (hbase : 0 < style.base) (n : Numeral) :
    n.withoutZeros.value style = n.value style := by
  obtain ⟨k, hk⟩ := exists_zeros_append (n.fraction.getD [])
  have hpow : (style.base : ℚ) ^ k ≠ 0 := pow_ne_zero k (Nat.cast_ne_zero.mpr hbase.ne')
  rw [value, value, fraction_withoutZeros]
  generalize (n.fraction.getD []).rdropWhile (· == 0) = kept at hk
  rw [hk, ← List.append_assoc, value_append_zeros, List.length_append, List.length_replicate,
    pow_add]
  push_cast
  rw [mul_div_mul_right _ _ hpow]
  rfl

/-- No zero is left at the end, and no point without digits behind it. -/
theorem withoutZeros_isTrimmed (n : Numeral) :
    n.withoutZeros.IsTrimmed ∧ n.withoutZeros.fraction ≠ some [] := by
  constructor
  · intro d hd
    rw [fraction_withoutZeros] at hd
    have hne : (n.fraction.getD []).rdropWhile (· == 0) ≠ [] := by
      intro hnil
      rw [hnil] at hd
      cases hd
    have hlast := List.rdropWhile_last_not _ _ hne
    rw [List.getLast?_eq_getLast_of_ne_nil hne] at hd
    cases hd
    exact fun hzero => hlast (beq_iff_eq.mpr hzero)
  · obtain ⟨whole, fraction, exponent⟩ := n
    cases fraction with
    | none => exact nofun
    | some ds =>
      simp only [withoutZeros, Option.bind_some]
      by_cases hnil : ds.rdropWhile (· == 0) = []
      · rw [if_pos hnil]
        exact nofun
      · rw [if_neg hnil]
        exact fun h => hnil (Option.some.inj h)

theorem IsIn.withoutZeros (h : n.IsIn base) : n.withoutZeros.IsIn base := by
  refine ⟨h.whole_ne_nil, h.whole_lt, fun ds hds d hd => ?_⟩
  have hkept := fraction_withoutZeros n
  rw [hds, Option.getD_some] at hkept
  rw [hkept] at hd
  have hmem := (List.rdropWhile_prefix (· == 0) _).subset hd
  cases hfraction : n.fraction with
  | none =>
    rw [hfraction] at hmem
    cases hmem
  | some whole =>
    rw [hfraction] at hmem
    exact h.fraction_lt whole hfraction d hmem

/-- Of digits, a byte that is a point, and more bytes, the zeros before the point are taken. -/
theorem dropWhile_map_byte {digits : List Nat} (h : ∀ d ∈ digits, d < 16) (more : List UInt8) :
    (digits.map Digits.byte ++ Decimal.point :: more).dropWhile (· == 0x30) =
      (digits.dropWhile (· == 0)).map Digits.byte ++ Decimal.point :: more := by
  induction digits with
  | nil => rfl
  | cons d digits ih =>
    have hbyte : ∀ d < 16, (Digits.byte d == 0x30) = (d == 0) := by decide
    have hlater := ih fun e he => h e (List.mem_cons_of_mem d he)
    rw [List.map_cons, List.cons_append, List.dropWhile_cons, List.dropWhile_cons,
      hbyte d (h d List.mem_cons_self), hlater]
    split
    · rfl
    · rfl

theorem byte_ne_point {d : Nat} (hd : d < 16) : Digits.byte d ≠ Decimal.point := by
  revert d
  decide

/-- A point at the end is taken, and nothing before it. -/
theorem dropWhile_point {digits whole : List Nat} (h : ∀ d ∈ digits ++ whole, d < 16) :
    (digits.map Digits.byte ++ Decimal.point :: whole.map Digits.byte).dropWhile
        (· == Decimal.point) =
      (if digits = [] then [] else digits.map Digits.byte ++ [Decimal.point]) ++
        whole.map Digits.byte := by
  cases digits with
  | nil =>
    rw [List.map_nil, List.nil_append,
      List.dropWhile_cons_of_pos (p := (· == Decimal.point)) (beq_self_eq_true _), if_pos rfl,
      List.nil_append]
    cases whole with
    | nil => rfl
    | cons d whole =>
      have hne := byte_ne_point (h d List.mem_cons_self)
      exact List.dropWhile_cons_of_neg fun heq => hne (eq_of_beq heq)
  | cons d digits =>
    have hne := byte_ne_point (h d List.mem_cons_self)
    rw [List.map_cons, List.cons_append,
      List.dropWhile_cons_of_neg (p := (· == Decimal.point)) fun heq => hne (eq_of_beq heq),
      if_neg (List.cons_ne_nil d digits),
      List.cons_append, List.cons_append, List.append_assoc]
    rfl

end Trimming

end Numeral

namespace Decimal

variable {base : Nat} {style : Numeral.Style} {n : Numeral}

/-- Behind a point the zeros at the end are taken, and the point itself if no digit is left. -/
theorem stripZeros_point {whole ds : List Nat} (hwhole : ∀ d ∈ whole, d < 16)
    (hds : ∀ d ∈ ds, d < 16) :
    let kept := ds.rdropWhile (· == 0)
    stripZeros (whole.map Digits.byte ++ point :: ds.map Digits.byte) =
      whole.map Digits.byte ++ if kept = [] then [] else point :: kept.map Digits.byte := by
  intro kept
  have hpoint : (whole.map Digits.byte ++ point :: ds.map Digits.byte).contains point = true := by
    rw [List.contains_eq_mem, decide_eq_true_iff]
    exact List.mem_append_right _ List.mem_cons_self
  have hreverse : (whole.map Digits.byte ++ point :: ds.map Digits.byte).reverse =
      ds.reverse.map Digits.byte ++ point :: whole.reverse.map Digits.byte := by
    rw [List.reverse_append, List.reverse_cons, List.append_assoc, List.map_reverse,
      List.map_reverse]
    rfl
  have hkept : ds.reverse.dropWhile (· == 0) = kept.reverse := List.reverse_reverse _ |>.symm
  have hzeros := @Numeral.dropWhile_map_byte ds.reverse
    (fun d hd => hds d (List.mem_reverse.mp hd)) (whole.reverse.map Digits.byte)
  have hdropped := @Numeral.dropWhile_point kept.reverse whole.reverse fun d hd => by
    rcases List.mem_append.mp hd with hfraction | hbefore
    · exact hds d ((List.rdropWhile_prefix _ ds).subset (List.mem_reverse.mp hfraction))
    · exact hwhole d (List.mem_reverse.mp hbefore)
  rw [hkept] at hzeros
  simp only [stripZeros, hpoint, ite_true, hreverse, hzeros, hdropped, List.reverse_eq_nil_iff]
  by_cases hnil : kept = []
  · simp only [hnil, ite_true, List.nil_append, List.append_nil, List.map_reverse,
      List.reverse_reverse]
  · simp only [hnil, ite_false, List.map_reverse, List.reverse_append, List.reverse_reverse,
      List.reverse_singleton, List.singleton_append]

/-- Stripping a numeral takes the zeros at the end of its fraction, and the point if no digit is
left behind it; the digits before the point stay. -/
theorem stripZeros_write (hbase : base ≤ 16) (hn : n.IsIn base) (hexponent : n.exponent = none) :
    stripZeros (style.write n) = style.write n.withoutZeros := by
  obtain ⟨whole, fraction, exponent⟩ := n
  obtain rfl : exponent = none := hexponent
  have hwhole : ∀ d ∈ whole, d < 16 := fun d hd => Nat.lt_of_lt_of_le (hn.whole_lt d hd) hbase
  cases fraction with
  | none =>
    have hpoint : (whole.map Digits.byte).contains point = false := by
      rw [List.contains_eq_mem, decide_eq_false_iff_not, List.mem_map]
      rintro ⟨d, hd, heq⟩
      exact Numeral.byte_ne_point (hwhole d hd) heq
    simp only [Numeral.Style.write, Numeral.withoutZeros, Option.bind_none, Option.elim_none,
      List.append_nil, stripZeros, hpoint, Bool.false_eq_true, ite_false]
  | some ds =>
    have hstripped := stripZeros_point hwhole
      fun d hd => Nat.lt_of_lt_of_le (hn.fraction_lt ds rfl d hd) hbase
    simp only [Numeral.Style.write, Numeral.withoutZeros, Option.bind_some, Option.elim_some,
      Option.elim_none, List.append_nil, hstripped]
    by_cases hnil : ds.rdropWhile (· == 0) = []
    · rw [if_pos hnil, if_pos hnil, Option.elim_none]
    · rw [if_neg hnil, if_neg hnil, Option.elim_some]

end Decimal

end FormattedText
