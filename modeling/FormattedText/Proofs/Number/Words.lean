import FormattedText.Proofs.Number.Hexadecimal

/-!
# Hexadecimal digits in words of 64 bits

The digit before the point and the digits behind it are two words, and rounding shifts and masks
them. `HexWords.ofBits?` carries that out with checked operations: a shift by 64 or more, a sum that
overflows and a difference below zero have no result. It has one for every number and every
precision, and its text is the hexadecimal text (`HexWords.exists_ofBits?`).
-/

namespace FormattedText

namespace Word

/-- Shifts to the left by less than the width. -/
def shiftLeft? (a : UInt64) (n : Nat) : Option UInt64 :=
  if n < 64 then some (a <<< UInt64.ofNat n) else none

/-- Shifts to the right by less than the width. -/
def shiftRight? (a : UInt64) (n : Nat) : Option UInt64 :=
  if n < 64 then some (a >>> UInt64.ofNat n) else none

/-- Adds, if the sum does not overflow. -/
def add? (a b : UInt64) : Option UInt64 :=
  if a.toNat + b.toNat < UInt64.size then some (a + b) else none

/-- Subtracts, if the difference is not below zero. -/
def sub? (a b : UInt64) : Option UInt64 := if b ≤ a then some (a - b) else none

/-- The lowest `n` bits. -/
def mask? (n : Nat) : Option UInt64 := do sub? (← shiftLeft? 1 n) 1

/-- The number of zero bits below the lowest bit that is set, of `width` bits. -/
def trailingZeros : Nat → Nat → Nat
  | 0, _ => 0
  | width + 1, n => if n % 2 = 1 then 0 else trailingZeros width (n / 2) + 1

variable {a b : UInt64} {n : Nat}

theorem toNat_shiftAmount (h : n < 64) : (UInt64.ofNat n).toNat % 64 = n := by
  rw [UInt64.toNat_ofNat']
  omega

/-- A one that is shifted by less than the width is a power of two. -/
theorem shiftLeft?_one (h : n < 64) :
    ∃ w, shiftLeft? 1 n = some w ∧ w.toNat = 2 ^ n := by
  refine ⟨_, if_pos h, ?_⟩
  have hlt : 2 ^ n < 2 ^ 64 := Nat.pow_lt_pow_right (by decide) h
  rw [UInt64.toNat_shiftLeft, toNat_shiftAmount h, Nat.shiftLeft_eq, UInt64.toNat_one, Nat.one_mul,
    Nat.mod_eq_of_lt hlt]

theorem shiftRight?_eq (a : UInt64) (h : n < 64) :
    ∃ w, shiftRight? a n = some w ∧ w.toNat = a.toNat / 2 ^ n := by
  refine ⟨_, if_pos h, ?_⟩
  rw [UInt64.toNat_shiftRight, toNat_shiftAmount h, Nat.shiftRight_eq_div_pow]

theorem add?_eq (h : a.toNat + b.toNat < UInt64.size) :
    ∃ w, add? a b = some w ∧ w.toNat = a.toNat + b.toNat :=
  ⟨_, if_pos h, by rw [UInt64.toNat_add]; exact Nat.mod_eq_of_lt h⟩

theorem sub?_eq (h : b.toNat ≤ a.toNat) :
    ∃ w, sub? a b = some w ∧ w.toNat = a.toNat - b.toNat := by
  have hle : b ≤ a := UInt64.le_iff_toNat_le.mpr h
  exact ⟨_, if_pos hle, UInt64.toNat_sub_of_le a b hle⟩

/-- A mask takes the remainder by a power of two. -/
theorem mask?_eq (h : n < 64) :
    ∃ m, mask? n = some m ∧ ∀ a : UInt64, (a &&& m).toNat = a.toNat % 2 ^ n := by
  obtain ⟨one, hone, hpower⟩ := shiftLeft?_one h
  have hle : (1 : UInt64).toNat ≤ one.toNat := by
    rw [hpower]
    exact Nat.one_le_two_pow
  obtain ⟨m, hm, hsub⟩ := sub?_eq hle
  refine ⟨m, ?_, fun a => ?_⟩
  · rw [mask?, hone]
    exact hm
  · rw [UInt64.toNat_and, hsub, hpower, UInt64.toNat_one, Nat.and_two_pow_sub_one_eq_mod]

/-- The lowest bit of a word. -/
theorem and_one_eq_one (a : UInt64) : a &&& 1 = 1 ↔ a.toNat % 2 = 1 := by
  rw [← UInt64.toNat_inj, UInt64.toNat_and, UInt64.toNat_one, Nat.and_one_is_mod]

/-- Below the lowest bit that is set all bits are zeros. -/
theorem trailingZeros_spec {width : Nat} (hpos : 0 < n) (hlt : n < 2 ^ width) :
    trailingZeros width n < width ∧
      ∃ m, n = 2 ^ trailingZeros width n * (2 * m + 1) := by
  induction width generalizing n with
  | zero => omega
  | succ width ih =>
    rw [trailingZeros]
    by_cases hodd : n % 2 = 1
    · rw [if_pos hodd]
      refine ⟨Nat.succ_pos width, n / 2, ?_⟩
      omega
    · rw [if_neg hodd]
      obtain ⟨hwidth, m, hm⟩ := ih (n := n / 2) (by omega) (by omega)
      refine ⟨Nat.succ_lt_succ hwidth, m, ?_⟩
      rw [pow_succ', Nat.mul_assoc, ← hm]
      omega

end Word

/-- The digits of a number in words: the digit before the point, the digits behind it as they are
stored, and how many are shown. -/
structure HexWords where
  /-- The digit before the point. -/
  lead : UInt64
  /-- The digits behind the point. -/
  mantissa : UInt64
  /-- The number of digits that are shown behind the point. -/
  nibbles : Nat
  deriving DecidableEq, Repr

namespace HexWords

open Word Hexadecimal

/-- Counts the digits that are kept up by one, if they are to be. -/
def raise? (kept : UInt64) (up : Prop) [Decidable up] : Option UInt64 :=
  if up then add? kept 1 else some kept

/-- Moves a carry out of the `p` digits behind the point to the digit before it. -/
def carry? (lead raised : UInt64) (p : Nat) : Option HexWords := do
  let carry ← shiftRight? raised (p * 4)
  if p = 0 ∨ carry ≠ 0 then
    return ⟨← add? lead carry, raised &&& (← mask? (p * 4)), p⟩
  else return ⟨lead, raised, p⟩

/-- Rounds the digits behind the point to fewer than there are. -/
def round? (lead mantissa : UInt64) (p : Nat) : Option HexWords := do
  let shift := (fractionDigits - p) * 4
  let rest := mantissa &&& (← mask? shift)
  let half ← shiftLeft? 1 (shift - 1)
  let kept ← shiftRight? mantissa shift
  let raised ← raise? kept
    (half < rest ∨ (rest = half ∧ (kept &&& 1 = 1 ∨ (p = 0 ∧ lead &&& 1 = 1))))
  carry? lead raised p

/-- Removes the zero digits at the end. -/
def trim? (lead mantissa : UInt64) : Option HexWords := do
  if mantissa = 0 then return ⟨lead, mantissa, 0⟩
  else
    let trailing := trailingZeros 64 mantissa.toNat / 4
    let kept ← shiftRight? mantissa (trailing * 4)
    if trailing ≤ fractionDigits then return ⟨lead, kept, fractionDigits - trailing⟩ else none

/-- The digits that a precision shows, or all of them. -/
def shown? (lead mantissa : UInt64) : Option Nat → Option HexWords
  | some p => if p < fractionDigits then round? lead mantissa p else some ⟨lead, mantissa, p⟩
  | none => trim? lead mantissa

/-- The exponent that is shown, which has to fit into 32 bits. -/
def exponent? (biased mantissa : UInt64) : Option Int :=
  let e : Int := if biased = 0 then if mantissa = 0 then 0 else -1022 else biased.toNat - 1023
  if e.natAbs < 2 ^ 31 then some e else none

/-- The digits of a number and its exponent from its bits. -/
def ofBits? (bits : UInt64) (precision : Option Nat) : Option (HexWords × Int) := do
  let biased := (← shiftRight? bits 52) &&& 0x7FF
  let mantissa := bits &&& (← mask? 52)
  let exponent ← exponent? biased mantissa
  return (← shown? (if biased = 0 then 0 else 1) mantissa precision, exponent)

/-- The text of the digits and of an exponent. -/
def text (w : HexWords) (alternate : Bool) (exponent : Int) : List UInt8 :=
  let shown := min w.nibbles fractionDigits
  Digits.text 16 w.lead.toNat ++
    (if 0 < w.nibbles ∨ alternate then [Decimal.point] else []) ++
    (if 0 < w.nibbles then
      Digits.zeroExtend shown (Digits.text 16 w.mantissa.toNat) ++
        List.replicate (w.nibbles - shown) 0x30
    else []) ++
    Decimal.exponentText exponentMarker exponent 1

/-- The words hold an integer with its last `nibbles` digits behind the point; digits that are not
stored are zeros. -/
structure Holds (w : HexWords) (n : Nat) : Prop where
  /-- The digits behind the point keep to their places. -/
  mantissa_lt : w.mantissa.toNat < 16 ^ min w.nibbles fractionDigits
  /-- The two words write the integer. -/
  integer : n = (w.lead.toNat * 16 ^ min w.nibbles fractionDigits + w.mantissa.toNat) *
    16 ^ (w.nibbles - min w.nibbles fractionDigits)

section Text

variable {base m n p k : Nat} {w : HexWords}

/-- A multiple of a power of the base ends with zeros. -/
theorem lowest_mul_pow (hbase : 2 ≤ base) (p k n : Nat) :
    Digits.lowest base (p + k) (n * base ^ k) = Digits.lowest base p n ++ List.replicate k 0 := by
  induction k with
  | zero => rw [pow_zero, Nat.mul_one, List.replicate_zero, List.append_nil, Nat.add_zero]
  | succ k ih =>
    have hpos : 0 < base := by omega
    rw [← Nat.add_assoc, Digits.lowest, pow_succ, ← Nat.mul_assoc, Nat.mul_div_cancel _ hpos, ih,
      Nat.mul_mod_left, List.append_assoc, ← List.replicate_succ']

/-- What is above the lowest digits does not change them. -/
theorem lowest_add_mul (hbase : 2 ≤ base) (l : Nat) :
    Digits.lowest base p (l * base ^ p + m) = Digits.lowest base p m := by
  induction p generalizing m with
  | zero => rfl
  | succ p ih =>
    have hpos : 0 < base := by omega
    have hdiv : (l * base ^ (p + 1) + m) / base = l * base ^ p + m / base := by
      rw [pow_succ, ← Nat.mul_assoc, Nat.mul_comm _ base, Nat.mul_add_div hpos]
    have hmod : (l * base ^ (p + 1) + m) % base = m % base := by
      rw [pow_succ, ← Nat.mul_assoc, Nat.mul_add_mod_self_right]
    rw [Digits.lowest, hdiv, ih, hmod, Digits.lowest]

/-- Digits that fill their places with zeros are the lowest ones. -/
theorem zeroExtend_text_eq (hbase : 2 ≤ base) (hp : 0 < p) (hm : m < base ^ p) :
    Digits.zeroExtend p (Digits.text base m) = (Digits.lowest base p m).map Digits.byte := by
  have hlength : (Digits.inBase base m).length ≤ p := by
    rw [Digits.length_inBase hbase]
    exact Nat.log_lt_of_lt_pow' (Nat.ne_of_gt hp) hm
  have hall := Digits.inBase_append_lowest hbase p m
  rw [Nat.div_eq_of_lt hm, Digits.inBase_of_lt (by omega), Nat.sub_add_comm hlength,
    List.replicate_succ, List.cons_append, List.cons_append, List.nil_append] at hall
  rw [Digits.text, Digits.zeroExtend_text, List.tail_eq_of_cons_eq hall]

/-- Words that hold an integer have its text. -/
theorem Holds.text_eq (h : w.Holds n) (alternate : Bool) (exponent : Int) :
    w.text alternate exponent =
      Decimal.placePoint w.nibbles alternate (Digits.text 16 n) ++
        Decimal.exponentText exponentMarker exponent 1 := by
  obtain ⟨hlt, rfl⟩ := h
  have hshown : min w.nibbles fractionDigits ≤ w.nibbles := Nat.min_le_left _ _
  have hnone : 0 < w.nibbles → 0 < min w.nibbles fractionDigits :=
    fun hpos => Nat.lt_min.mpr ⟨hpos, by decide⟩
  rw [text, Decimal.placePoint_text (by decide)]
  generalize min w.nibbles fractionDigits = shown at *
  have hplaces : w.nibbles = shown + (w.nibbles - shown) := by omega
  have hwhole : (w.lead.toNat * 16 ^ shown + w.mantissa.toNat) * 16 ^ (w.nibbles - shown) /
      16 ^ w.nibbles = w.lead.toNat := by
    have hsplit : (16 : Nat) ^ w.nibbles = 16 ^ shown * 16 ^ (w.nibbles - shown) := by
      rw [← pow_add, ← hplaces]
    rw [hsplit, Nat.mul_div_mul_right _ _ (Nat.pow_pos (by decide)), Nat.mul_comm w.lead.toNat,
      Nat.mul_add_div (Nat.pow_pos (by decide)), Nat.div_eq_of_lt hlt, Nat.add_zero]
  have hfraction : Digits.lowest 16 w.nibbles
      ((w.lead.toNat * 16 ^ shown + w.mantissa.toNat) * 16 ^ (w.nibbles - shown)) =
      Digits.lowest 16 shown w.mantissa.toNat ++ List.replicate (w.nibbles - shown) 0 := by
    conv_lhs => rw [hplaces]
    rw [Nat.add_sub_cancel_left, lowest_mul_pow (by decide), lowest_add_mul (by decide)]
  rw [hwhole, hfraction, List.map_append, List.map_replicate]
  by_cases hpos : 0 < w.nibbles
  · have hpoint : ¬ (w.nibbles = 0 ∧ ¬alternate = true) := fun h => Nat.ne_of_gt hpos h.1
    rw [if_pos (Or.inl hpos), if_pos hpos, if_neg hpoint,
      zeroExtend_text_eq (by decide) (hnone hpos) hlt]
    rfl
  · have hzero : w.nibbles = 0 := Nat.eq_zero_of_not_pos hpos
    have hnothing : shown = 0 := by omega
    rw [if_neg hpos, hzero, hnothing]
    cases alternate with
    | true => rfl
    | false => rfl

end Text

section Rounding

variable {lead mantissa : UInt64} {l m p : Nat}

/-- Rounding concerns the digits behind the point; of the digit before it only the parity counts,
and only where no digit is left behind the point. -/
theorem roundHalfEven_split (hp : p < fractionDigits) (hm : m < 16 ^ fractionDigits) :
    let shift := (fractionDigits - p) * 4
    let half := 2 ^ (shift - 1)
    roundHalfEven (l * 16 ^ fractionDigits + m) (16 ^ (fractionDigits - p)) =
      l * 16 ^ p + (m / 2 ^ shift +
        if half < m % 2 ^ shift ∨
          (m % 2 ^ shift = half ∧ (m / 2 ^ shift % 2 = 1 ∨ (p = 0 ∧ l % 2 = 1)))
        then 1 else 0) := by
  intro shift half
  have hunit : 16 ^ (fractionDigits - p) = 2 ^ shift := (pow_mul' 2 (fractionDigits - p) 4).symm
  have hhalf : 2 ^ shift = 2 * half := by
    rw [← pow_succ', Nat.sub_add_cancel (by omega)]
  have hall : l * 16 ^ fractionDigits = l * 16 ^ p * 2 ^ shift := by
    rw [← hunit, Nat.mul_assoc, ← pow_add, Nat.add_sub_cancel' (Nat.le_of_lt hp)]
  have hparity : (l * 16 ^ p + m / 2 ^ shift) % 2 = 1 ↔
      m / 2 ^ shift % 2 = 1 ∨ (p = 0 ∧ l % 2 = 1) := by
    cases p with
    | zero =>
      have hnone : m / 2 ^ shift = 0 := Nat.div_eq_of_lt (hunit ▸ hm)
      rw [hnone, pow_zero, Nat.mul_one]
      omega
    | succ p =>
      have heven : l * 16 ^ (p + 1) % 2 = 0 := by
        rw [pow_succ, ← Nat.mul_assoc]
        omega
      omega
  have hmore : 2 ^ shift < 2 * (m % 2 ^ shift) ↔ half < m % 2 ^ shift := by omega
  have htie : 2 * (m % 2 ^ shift) = 2 ^ shift ↔ m % 2 ^ shift = half := by omega
  rw [hunit, hall, roundHalfEven_mul_add (Nat.pow_pos (by decide))]
  simp only [hparity, hmore, htie]

/-- What is left of the digits is counted up or not. -/
theorem exists_raise? {kept : UInt64} (hkept : kept.toNat < 2 ^ 52) (up : Prop) [Decidable up] :
    ∃ raised, raise? kept up = some raised ∧ raised.toNat = kept.toNat + if up then 1 else 0 := by
  rw [raise?]
  by_cases hup : up
  · rw [if_pos hup, if_pos hup]
    refine add?_eq (Nat.lt_trans (Nat.add_lt_add_right hkept _) (by decide))
  · rw [if_neg hup, if_neg hup]
    exact ⟨kept, rfl, rfl⟩

/-- The carry out of the digits behind the point goes to the digit before it. -/
theorem exists_carry? {raised : UInt64} (hlead : lead.toNat ≤ 1) (hp : p < fractionDigits)
    (hraised : raised.toNat ≤ 16 ^ p) :
    ∃ w, carry? lead raised p = some w ∧ w.nibbles = p ∧
      w.Holds (lead.toNat * 16 ^ p + raised.toNat) := by
  have hdigits : fractionDigits = 13 := rfl
  have hshift : p * 4 < 64 := by omega
  have hunit : 2 ^ (p * 4) = 16 ^ p := pow_mul' 2 p 4
  have hpos : 0 < 16 ^ p := Nat.pow_pos (by decide)
  have hshown : min p fractionDigits = p := Nat.min_eq_left (Nat.le_of_lt hp)
  obtain ⟨carry, hcarry, hcarryValue⟩ := shiftRight?_eq raised hshift
  obtain ⟨mask, hmask, hrest⟩ := mask?_eq hshift
  rw [hunit] at hcarryValue
  have hone : carry.toNat ≤ 1 := by
    rw [hcarryValue]
    exact Nat.div_le_of_le_mul (by rw [Nat.mul_one]; exact hraised)
  have hfits : lead.toNat + carry.toNat < UInt64.size := by
    have hsize : UInt64.size = 2 ^ 64 := rfl
    omega
  obtain ⟨sum, hsum, hsumValue⟩ := add?_eq hfits
  by_cases hmoves : p = 0 ∨ carry ≠ 0
  · refine ⟨⟨sum, raised &&& mask, p⟩, ?_, rfl, ?_, ?_⟩
    · simp only [carry?, hcarry, Option.bind_eq_bind, Option.bind_some, if_pos hmoves, hsum, hmask]
      rfl
    · rw [hshown, hrest, hunit]
      exact Nat.mod_lt _ hpos
    · have hparts := Nat.div_add_mod' raised.toNat (16 ^ p)
      rw [hshown, Nat.sub_self, pow_zero, Nat.mul_one, hrest, hunit, hsumValue, hcarryValue,
        Nat.add_mul, Nat.add_assoc, hparts]
  · rw [not_or, Decidable.not_not] at hmoves
    refine ⟨⟨lead, raised, p⟩, ?_, rfl, ?_, ?_⟩
    · have hstays : ¬ (p = 0 ∨ carry ≠ 0) := by
        rw [not_or, Decidable.not_not]
        exact hmoves
      simp only [carry?, hcarry, Option.bind_eq_bind, Option.bind_some, if_neg hstays]
      rfl
    · rw [hmoves.2] at hcarryValue
      rw [hshown]
      exact (Nat.div_eq_zero_iff_lt hpos).mp hcarryValue.symm
    · rw [hshown, Nat.sub_self, pow_zero, Nat.mul_one]

/-- Rounding in words has a result, which holds the rounded integer. -/
theorem exists_round? (hlead : lead.toNat ≤ 1) (hm : mantissa.toNat < 16 ^ fractionDigits)
    (hp : p < fractionDigits) :
    ∃ w, round? lead mantissa p = some w ∧ w.nibbles = p ∧
      w.Holds (roundHalfEven (lead.toNat * 16 ^ fractionDigits + mantissa.toNat)
        (16 ^ (fractionDigits - p))) := by
  have hdigits : fractionDigits = 13 := rfl
  have hshift : (fractionDigits - p) * 4 < 64 := by omega
  obtain ⟨mask, hmask, hrest⟩ := mask?_eq hshift
  obtain ⟨half, hhalf, hhalfValue⟩ := shiftLeft?_one (n := (fractionDigits - p) * 4 - 1) (by omega)
  obtain ⟨kept, hkept, hkeptValue⟩ := shiftRight?_eq mantissa hshift
  have hbelow : kept.toNat < 16 ^ p := by
    have hall : 16 ^ fractionDigits = 16 ^ p * 2 ^ ((fractionDigits - p) * 4) := by
      have hunit : 2 ^ ((fractionDigits - p) * 4) = 16 ^ (fractionDigits - p) :=
        pow_mul' 2 (fractionDigits - p) 4
      rw [hunit, ← pow_add, Nat.add_sub_cancel' (Nat.le_of_lt hp)]
    rw [hkeptValue, Nat.div_lt_iff_lt_mul (Nat.pow_pos (by decide)), ← hall]
    exact hm
  have hsmall : kept.toNat < 2 ^ 52 :=
    Nat.lt_of_lt_of_le hbelow (Nat.pow_le_pow_right (n := 16) (by decide) (Nat.le_of_lt hp))
  obtain ⟨raised, hraised, hraisedValue⟩ := exists_raise? hsmall (half < mantissa &&& mask ∨
    (mantissa &&& mask = half ∧ (kept &&& 1 = 1 ∨ (p = 0 ∧ lead &&& 1 = 1))))
  have hle : raised.toNat ≤ 16 ^ p := by
    rw [hraisedValue]
    split <;> omega
  obtain ⟨w, hw, hnibbles, hholds⟩ := exists_carry? hlead hp hle
  refine ⟨w, ?_, hnibbles, ?_⟩
  · simp only [round?, hmask, hhalf, hkept, hraised, Option.bind_eq_bind, Option.bind_some, hw]
  · simp only [hraisedValue, UInt64.lt_iff_toNat_lt, ← UInt64.toNat_inj (b := half),
      and_one_eq_one, hrest, hhalfValue, hkeptValue] at hholds
    rw [roundHalfEven_split hp hm]
    exact hholds

end Rounding

section Trimming

variable {lead mantissa : UInt64} {m n t : Nat}

/-- Of the zeros at the end of an integer as many are removed as there are. -/
theorem trimmed_mul_pow (ht : t ≤ n) (hm : m % 16 ≠ 0 ∨ n = t) :
    trimmed (m * 16 ^ t) n = (m, n - t) := by
  induction t generalizing n with
  | zero =>
    rw [pow_zero, Nat.mul_one]
    cases n with
    | zero => rfl
    | succ n =>
      have hne : m % 16 ≠ 0 := by omega
      rw [trimmed, if_neg hne, Nat.sub_zero]
  | succ t ih =>
    cases n with
    | zero => omega
    | succ n =>
      rw [pow_succ, ← Nat.mul_assoc, trimmed, if_pos (Nat.mul_mod_left _ 16),
        Nat.mul_div_cancel _ (by decide), ih (by omega) (by omega), Nat.add_sub_add_right]

/-- The zero digits at the end of a word that is not zero. -/
theorem exists_trailing (hpos : 0 < m) (hm : m < 16 ^ fractionDigits) :
    let t := trailingZeros 64 m / 4
    t < fractionDigits ∧ ∃ u, m = u * 16 ^ t ∧ u % 16 ≠ 0 := by
  intro t
  have hall : (16 : Nat) ^ fractionDigits = 2 ^ 52 := rfl
  rw [hall] at hm
  obtain ⟨_, k, hk⟩ := trailingZeros_spec hpos (Nat.lt_trans hm (by decide : 2 ^ 52 < 2 ^ 64))
  generalize hz : trailingZeros 64 m = z at hk
  have ht : t = z / 4 := by rw [← hz]
  have hlt : z < 52 := by
    have hle : 2 ^ z * 1 ≤ 2 ^ z * (2 * k + 1) := Nat.mul_le_mul_left _ (by omega)
    rw [← hk, Nat.mul_one] at hle
    exact (Nat.pow_lt_pow_iff_right (by decide : 1 < 2)).mp (Nat.lt_of_le_of_lt hle hm)
  have hdigits : fractionDigits = 13 := rfl
  refine ⟨by omega, 2 ^ (z % 4) * (2 * k + 1), ?_, ?_⟩
  · have hpower : 2 ^ z = 2 ^ (z % 4) * 16 ^ t := by
      have hsplit : z = z % 4 + 4 * t := by omega
      have hpow : (16 : Nat) ^ t = 2 ^ (4 * t) := (pow_mul 2 4 t).symm
      rw [hpow, ← pow_add, ← hsplit]
    rw [hk, hpower, Nat.mul_right_comm]
  · have hcases : z % 4 = 0 ∨ z % 4 = 1 ∨ z % 4 = 2 ∨ z % 4 = 3 := by omega
    rcases hcases with h | h | h | h <;> rw [h] <;> omega

/-- Removing zeros in words has a result, which holds what is left of the integer. -/
theorem exists_trim? (hm : mantissa.toNat < 16 ^ fractionDigits) :
    let r := trimmed (lead.toNat * 16 ^ fractionDigits + mantissa.toNat) fractionDigits
    ∃ w, trim? lead mantissa = some w ∧ w.nibbles = r.2 ∧ w.Holds r.1 := by
  intro r
  by_cases hzero : mantissa = 0
  · have hr : r = (lead.toNat, 0) := by
      have hnone : mantissa.toNat = 0 := by rw [hzero]; rfl
      simp only [r, hnone, Nat.add_zero]
      exact trimmed_mul_pow (Nat.le_refl _) (Or.inr rfl)
    rw [trim?, if_pos hzero, hr]
    refine ⟨_, rfl, rfl, ?_, ?_⟩
    · rw [hzero]
      exact Nat.zero_lt_one
    · rw [hzero]
      change lead.toNat = (lead.toNat * 1 + 0) * 1
      omega
  · have hpos : 0 < mantissa.toNat := by
      rw [Nat.pos_iff_ne_zero]
      exact fun h => hzero (UInt64.toNat_inj.mp h)
    obtain ⟨ht, u, hu, hlast⟩ := exists_trailing hpos hm
    rw [trim?, if_neg hzero]
    generalize trailingZeros 64 mantissa.toNat / 4 = t at ht hu
    have hdigits : fractionDigits = 13 := rfl
    obtain ⟨kept, hkept, hkeptValue⟩ := shiftRight?_eq mantissa (n := t * 4) (by omega)
    have hunit : 2 ^ (t * 4) = 16 ^ t := pow_mul' 2 t 4
    rw [hunit, hu, Nat.mul_div_cancel _ (Nat.pow_pos (by decide))] at hkeptValue
    have hall : 16 ^ fractionDigits = 16 ^ (fractionDigits - t) * 16 ^ t :=
      (pow_sub_mul_pow 16 (Nat.le_of_lt ht)).symm
    have hr : r = (lead.toNat * 16 ^ (fractionDigits - t) + u, fractionDigits - t) := by
      simp only [r]
      rw [hu, hall, ← Nat.mul_assoc, ← Nat.add_mul]
      refine trimmed_mul_pow (Nat.le_of_lt ht) (Or.inl ?_)
      have hone : fractionDigits - t = fractionDigits - t - 1 + 1 := by omega
      rw [hone, pow_succ, ← Nat.mul_assoc]
      omega
    refine ⟨⟨lead, kept, fractionDigits - t⟩, ?_, ?_, ?_, ?_⟩
    · simp only [hkept, Option.bind_eq_bind, Option.bind_some, if_pos (Nat.le_of_lt ht)]
      rfl
    · rw [hr]
    · rw [hu, hall] at hm
      rw [Nat.min_eq_left (Nat.sub_le _ _), hkeptValue]
      exact Nat.lt_of_mul_lt_mul_right hm
    · rw [hr, Nat.min_eq_left (Nat.sub_le _ _), hkeptValue, Nat.sub_self, pow_zero, Nat.mul_one]

end Trimming

section Fields

variable {v : Binary64}

/-- The stored exponent and the fraction in words. -/
theorem exists_fields (v : Binary64) :
    ∃ top mask, shiftRight? v.bits 52 = some top ∧ mask? 52 = some mask ∧
      (top &&& 0x7FF).toNat = v.biasedExponent ∧ (v.bits &&& mask).toNat = v.fraction := by
  obtain ⟨top, htop, htopValue⟩ := shiftRight?_eq v.bits (n := 52) (by decide)
  obtain ⟨mask, hmask, hrest⟩ := mask?_eq (n := 52) (by decide)
  refine ⟨top, mask, htop, hmask, ?_, hrest v.bits⟩
  have heleven : (0x7FF : UInt64).toNat = 2 ^ 11 - 1 := rfl
  rw [UInt64.toNat_and, heleven, Nat.and_two_pow_sub_one_eq_mod, htopValue]
  rfl

theorem exponent?_eq {biased mantissa : UInt64} (hbiased : biased.toNat = v.biasedExponent)
    (hmantissa : mantissa.toNat = v.fraction) :
    exponent? biased mantissa = some (shownExponent v) := by
  have hlt : v.biasedExponent < 2 ^ 11 := Nat.mod_lt _ (Nat.pow_pos (by decide))
  have hb : biased = 0 ↔ v.biasedExponent = 0 := by
    rw [← UInt64.toNat_inj, hbiased]
    rfl
  have hm : mantissa = 0 ↔ v.fraction = 0 := by
    rw [← UInt64.toNat_inj, hmantissa]
    rfl
  have he : (if biased = 0 then if mantissa = 0 then 0 else -1022
      else (biased.toNat : Int) - 1023) = shownExponent v := by
    rw [shownExponent, Binary64.isZero, Binary64.exponent, hbiased]
    by_cases hzero : v.biasedExponent = 0
    · by_cases hfraction : v.fraction = 0
      · simp only [hb, hm, hzero, hfraction, ite_true, beq_self_eq_true, Bool.and_self]
      · simp only [hb, hm, hzero, hfraction, ite_true, ite_false, beq_self_eq_true, Bool.true_and,
          beq_iff_eq]
    · simp only [hb, hzero, ite_false, Bool.and_eq_true, beq_iff_eq, false_and]
  have hfits : (shownExponent v).natAbs < 2 ^ 31 := by
    rw [shownExponent, Binary64.exponent]
    split
    · decide
    · split
      · decide
      · omega
  simp only [exponent?, he, if_pos hfits]

/-- The digits that are shown are those of the number. -/
theorem exists_shown? {lead mantissa : UInt64} (hlead : lead.toNat = v.leadBit)
    (hmantissa : mantissa.toNat = v.fraction) (precision : Option Nat) :
    ∃ w, shown? lead mantissa precision = some w ∧ w.nibbles = (digits v precision).2 ∧
      w.Holds (digits v precision).1 := by
  have hsignificand : v.significand = lead.toNat * 16 ^ fractionDigits + mantissa.toNat := by
    rw [hlead, hmantissa]
    exact v.significand_eq
  have hm : mantissa.toNat < 16 ^ fractionDigits := by
    rw [hmantissa]
    exact v.fraction_lt
  cases precision with
  | none =>
    rw [digits, hsignificand]
    exact exists_trim? hm
  | some p =>
    rw [digits, rounded, hsignificand]
    by_cases hp : p < fractionDigits
    · have hone : lead.toNat ≤ 1 := by
        rw [hlead]
        exact v.leadBit_le_one
      have hnone : p - fractionDigits = 0 := Nat.sub_eq_zero_of_le (Nat.le_of_lt hp)
      rw [shown?, if_pos hp, hnone, Nat.pow_eq, Nat.pow_eq, pow_zero, Nat.mul_one]
      exact exists_round? hone hm hp
    · have hstored : min p fractionDigits = fractionDigits := Nat.min_eq_right (Nat.not_lt.mp hp)
      have hnone : fractionDigits - p = 0 := Nat.sub_eq_zero_of_le (Nat.not_lt.mp hp)
      rw [shown?, if_neg hp]
      refine ⟨_, rfl, rfl, ?_, ?_⟩
      · rw [hstored]
        exact hm
      · rw [hstored, hnone, Nat.pow_eq, Nat.pow_eq, pow_zero, roundHalfEven_one]

/-- No shift amount reaches the width and nothing overflows: for every number and every precision
the words have a result, and its text is the hexadecimal text. -/
theorem exists_ofBits? (v : Binary64) (precision : Option Nat) (alternate : Bool) :
    ∃ w e, ofBits? v.bits precision = some (w, e) ∧
      w.text alternate e = Hexadecimal.text v precision alternate := by
  obtain ⟨top, mask, htop, hmask, hbiased, hmantissa⟩ := exists_fields v
  have hexponent := exponent?_eq hbiased hmantissa
  have hlead : (if top &&& 0x7FF = 0 then 0 else 1 : UInt64).toNat = v.leadBit := by
    have hzero : top &&& 0x7FF = 0 ↔ v.biasedExponent = 0 := by
      rw [← UInt64.toNat_inj, hbiased]
      rfl
    simp only [hzero, Binary64.leadBit]
    split <;> rfl
  obtain ⟨w, hw, hnibbles, hholds⟩ := exists_shown? hlead hmantissa precision
  refine ⟨w, shownExponent v, ?_, ?_⟩
  · simp only [ofBits?, htop, hmask, hexponent, hw, Option.bind_eq_bind, Option.bind_some]
    rfl
  · rw [hholds.text_eq, hnibbles]
    rfl

end Fields

end HexWords

end FormattedText
