import FormattedText.Proofs.Field.Padding
import FormattedText.Proofs.Memory.Record
import FormattedText.Proofs.Number.Places

/-!
# The digits of an integer

A directive reduces an integer to the type that its length and its conversion name, and the result
is the only number of the type that is congruent to it (`Directive.Reduces.iff_eq`). The digits of
the magnitude are written from the end of a buffer, which has room for those of every word in the
bases that there are (`DigitBuffer.digits?_eq`). They are shown with as many zeros before them as
the precision and the alternative form ask for (`Field.showsDigits_zeroedDigits`).
-/

namespace FormattedText

namespace Digits

/-- The byte of a digit, letters in either case. -/
def casedByte (upper : Bool) (digit : Nat) : UInt8 :=
  if upper then upperByte (byte digit) else byte digit

theorem digit?_casedByte {base digit : Nat} (upper : Bool) (hbase : base ≤ 16)
    (hdigit : digit < base) : digit? base (casedByte upper digit) = some digit := by
  have hread : ∀ digit < 16, ofByte? (casedByte upper digit) = some digit := by
    cases upper <;> decide
  exact digit?_eq_some (hread digit (Nat.lt_of_lt_of_le hdigit hbase)) hdigit

end Digits

theorem Radix.text_eq (r : Radix) (n : Nat) :
    r.text n = (Digits.inBase r.base n).map (Digits.casedByte r.upper) := by
  rw [text, Digits.text]
  cases r.upper with
  | true => exact List.map_map
  | false => rfl

theorem Radix.upper_ofConversion (conversion : UInt8) :
    (Radix.ofConversion conversion).upper = decide (conversion = asciiByte 'X') := by
  rw [Radix.ofConversion]
  split
  · rename_i h
    rw [h]
    rfl
  · split
    · rename_i h
      rw [h]
      rfl
    · split
      · rename_i h
        rw [h]
        rfl
      · rename_i h
        exact (decide_eq_false h).symm

namespace DigitBuffer

open Digits

/-- The room for digits. -/
def capacity : Nat := 24

/-- The bytes of the digits. -/
def table (upper : Bool) : List UInt8 :=
  (if upper then "0123456789ABCDEF" else "0123456789abcdef").toList.map asciiByte

/-- Writes the digits of a number before an index of the buffer, the last one first, and gives the
index of the first one. Nothing is given where the buffer or the table is left. -/
def fill? (table : List UInt8) (base : UInt64) :
    Nat → UInt64 → List UInt8 → Option (Nat × List UInt8)
  | 0, _, _ => none
  | i + 1, value, buffer => do
      let byte ← table[(value % base).toNat]?
      let buffer ← Slice.store? buffer i byte
      if value / base = 0 then return (i, buffer)
      fill? table base i (value / base) buffer

/-- The digits of a number that are written into a buffer. -/
def digits? (r : Radix) (value : UInt64) : Option (List UInt8) := do
  let (i, buffer) ← fill? (table r.upper) (UInt64.ofNat r.base) capacity value
    (List.replicate capacity 0)
  Slice.back? buffer i

theorem table_get (upper : Bool) :
    ∀ digit < 16, (table upper)[digit]? = some (casedByte upper digit) := by
  cases upper <;> decide

variable {r : Radix}

theorem toNat_base (hhigh : r.base ≤ 16) : (UInt64.ofNat r.base).toNat = r.base :=
  UInt64.toNat_ofNat_of_lt' (Nat.lt_of_le_of_lt hhigh (by decide))

/-- One digit is written before what is in the buffer; it is the first one if the number has no
others. -/
theorem fill?_concat (hlow : 2 ≤ r.base) (hhigh : r.base ≤ 16) (front : List UInt8) (last : UInt8)
    (value : UInt64) (back : List UInt8) :
    let written := front ++ casedByte r.upper (value.toNat % r.base) :: back
    fill? (table r.upper) (UInt64.ofNat r.base) (front.length + 1) value (front ++ last :: back) =
      if value.toNat < r.base then some (front.length, written)
      else fill? (table r.upper) (UInt64.ofNat r.base) front.length (value / UInt64.ofNat r.base)
        written := by
  have hdigit : (value % UInt64.ofNat r.base).toNat = value.toNat % r.base := by
    rw [UInt64.toNat_mod, toNat_base hhigh]
  have hlast : value / UInt64.ofNat r.base = 0 ↔ value.toNat < r.base := by
    rw [← UInt64.toNat_inj, UInt64.toNat_div, toNat_base hhigh]
    exact Nat.div_eq_zero_iff_lt (by omega)
  have hbyte := table_get r.upper (value.toNat % r.base)
    (Nat.lt_of_lt_of_le (Nat.mod_lt _ (by omega)) hhigh)
  rw [fill?, hdigit, hbyte, Option.bind_eq_bind, Option.bind_some, Slice.store?_append,
    Option.bind_eq_bind, Option.bind_some]
  simp only [hlast]
  rfl

/-- The digits of a number are written before what is in the buffer, if there is room for them. -/
theorem fill?_append (hlow : 2 ≤ r.base) (hhigh : r.base ≤ 16) {front : List UInt8} {value : UInt64}
    (hroom : (inBase r.base value.toNat).length ≤ front.length) (back : List UInt8) :
    ∃ i unused, fill? (table r.upper) (UInt64.ofNat r.base) front.length value (front ++ back) =
      some (i, unused ++ (r.text value.toNat ++ back)) ∧ unused.length = i := by
  -- the digits that are written so far stand at the head of `back`
  induction front using List.reverseRecOn generalizing value back with
  | nil =>
    have hsome := List.length_pos_of_ne_nil (inBase_ne_nil hlow value.toNat)
    rw [List.length_nil] at hroom
    omega
  | append_singleton front last ih =>
    rw [List.length_append, List.length_singleton] at hroom ⊢
    rw [List.append_assoc, List.singleton_append, fill?_concat hlow hhigh]
    by_cases hlast : value.toNat < r.base
    · rw [if_pos hlast, Radix.text_eq, inBase_of_lt hlast, Nat.mod_eq_of_lt hlast]
      exact ⟨front.length, front, rfl, rfl⟩
    · have hquotient : (value / UInt64.ofNat r.base).toNat = value.toNat / r.base := by
        rw [UInt64.toNat_div, toNat_base hhigh]
      have hdigits := inBase_of_le hlow (Nat.not_lt.mp hlast)
      rw [hdigits, List.length_append, List.length_singleton, ← hquotient] at hroom
      obtain ⟨i, unused, hfill, hi⟩ :=
        ih (Nat.le_of_add_le_add_right hroom) (casedByte r.upper (value.toNat % r.base) :: back)
      rw [if_neg hlast, hfill, Radix.text_eq, Radix.text_eq, hdigits, hquotient]
      refine ⟨i, unused, ?_, hi⟩
      rw [List.map_append, List.append_assoc]
      rfl

/-- The buffer has room for the digits of every word. -/
theorem digits?_eq (hlow : 8 ≤ r.base) (hhigh : r.base ≤ 16) (value : UInt64) :
    digits? r value = some (r.text value.toNat) := by
  have hlt : value.toNat < r.base ^ capacity :=
    Nat.lt_of_lt_of_le (Nat.lt_of_lt_of_le value.toNat_lt (by decide : 2 ^ 64 ≤ 8 ^ capacity))
      (Nat.pow_le_pow_left hlow capacity)
  have hroom : (inBase r.base value.toNat).length ≤
      (List.replicate capacity (0 : UInt8)).length := by
    rw [length_inBase (by omega), List.length_replicate]
    exact Nat.log_lt_of_lt_pow' (by decide) hlt
  obtain ⟨i, unused, hfill, hi⟩ := fill?_append (by omega) hhigh hroom []
  rw [List.append_nil, List.append_nil, List.length_replicate] at hfill
  rw [digits?, hfill, Option.bind_eq_bind, Option.bind_some, ← hi]
  exact Slice.back?_append _ _

end DigitBuffer

section Reduction

/-- A number has the type that a length names: signed or unsigned, of 8, 16, 32 or 64 bits. -/
def Length.Holds (length : Length) (isSigned : Bool) (value : Int) : Prop :=
  if isSigned then -2 ^ (length.bits - 1) ≤ value ∧ value < 2 ^ (length.bits - 1)
  else 0 ≤ value ∧ value < 2 ^ length.bits

variable {length : Length} {isSigned : Bool} {a b n : Int}

theorem Length.two_pow_bits (length : Length) :
    (2 : Int) ^ length.bits = 2 * 2 ^ (length.bits - 1) := by
  cases length <;> rfl

/-- Congruent numbers of a type are equal. -/
theorem Length.Holds.unique (ha : length.Holds isSigned a) (hb : length.Holds isSigned b)
    (h : (2 : Int) ^ length.bits ∣ a - b) : a = b := by
  have hpow := length.two_pow_bits
  have hclose : |a - b| < 2 ^ length.bits := by
    rw [abs_sub_lt_iff]
    cases isSigned with
    | true =>
      simp only [Holds, ite_true] at ha hb
      omega
    | false =>
      simp only [Holds, Bool.false_eq_true, ite_false] at ha hb
      omega
  exact Int.sub_eq_zero.mp (Int.eq_zero_of_abs_lt_dvd h hclose)

theorem Length.holds_narrowSigned (length : Length) (n : Int) :
    length.Holds true (length.narrowSigned n) := by
  have hlow := Int.le_bmod (x := n) (m := Nat.pow 2 length.bits) (Nat.pow_pos (by decide))
  have hhigh := Int.bmod_lt (x := n) (m := Nat.pow 2 length.bits) (Nat.pow_pos (by decide))
  rw [Holds, narrowSigned, if_pos rfl]
  cases length <;> exact ⟨hlow, hhigh⟩

theorem Length.dvd_narrowSigned (length : Length) (n : Int) :
    (2 : Int) ^ length.bits ∣ length.narrowSigned n - n := by
  have hdvd := Int.dvd_bmod_sub_self (x := n) (m := Nat.pow 2 length.bits)
  rw [narrowSigned]
  cases length <;> exact hdvd

theorem Length.narrowUnsigned_eq (length : Length) (n : Int) :
    (length.narrowUnsigned n : Int) = n % 2 ^ length.bits := by
  have hpos : (0 : Int) < 2 ^ length.bits := pow_pos (by decide) _
  rw [narrowUnsigned]
  exact Int.toNat_of_nonneg (Int.emod_nonneg n hpos.ne')

theorem Length.holds_narrowUnsigned (length : Length) (n : Int) :
    length.Holds false (length.narrowUnsigned n) := by
  have hpos : (0 : Int) < 2 ^ length.bits := pow_pos (by decide) _
  rw [Holds, if_neg Bool.false_ne_true, narrowUnsigned_eq]
  exact ⟨Int.emod_nonneg n hpos.ne', Int.emod_lt_of_pos n hpos⟩

theorem Length.dvd_narrowUnsigned (length : Length) (n : Int) :
    (2 : Int) ^ length.bits ∣ length.narrowUnsigned n - n := by
  rw [narrowUnsigned_eq]
  exact Int.dvd_emod_sub_self

end Reduction

namespace Directive

/-- Does the conversion take a signed integer? -/
def takesSigned (d : Directive) : Bool := (['d', 'i'].map asciiByte).contains d.conversion

/-- Does the conversion take an unsigned integer? -/
def takesUnsigned (d : Directive) : Bool :=
  (['u', 'o', 'x', 'X'].map asciiByte).contains d.conversion

/-- Do its digits begin with a zero that shows that they are octal? -/
def marksOctal (d : Directive) : Prop := d.conversion = asciiByte 'o' ∧ d.flags.alternate = true

/-- A value is an integer reduced to the type that the length and the conversion name. -/
structure Reduces (d : Directive) (n value : Int) : Prop where
  /-- The value has the type. -/
  holds : d.length.Holds d.takesSigned value
  /-- The value is congruent to the integer. -/
  congruent : (2 : Int) ^ d.length.bits ∣ value - n

/-- What stands before the digits of an integer: a sign before a signed one, and a mark before a
hexadecimal one in the alternative form, if it is not zero. -/
def integerLead (d : Directive) (value : Int) : List UInt8 :=
  if d.takesSigned then
    if value < 0 then [asciiByte '-']
    else if d.flags.forceSign then [asciiByte '+']
    else if d.flags.spaceSign then [asciiByte ' ']
    else []
  else if d.flags.alternate ∧ value ≠ 0 ∧
      (d.conversion = asciiByte 'x' ∨ d.conversion = asciiByte 'X') then
    [asciiByte '0', d.conversion]
  else []

/-- The number of digits that the precision asks for: as many as the number has, or more, and none
for zero with precision zero. -/
def digitCount (d : Directive) (n : Nat) : Nat :=
  if n = 0 ∧ d.precision? = some 0 then 0
  else max (d.precision?.getD 0) (Nat.log (Radix.ofConversion d.conversion).base n + 1)

/-- Digits show a number as a directive has it. -/
structure ShowsDigits (d : Directive) (n : Nat) (digits : List UInt8) : Prop where
  /-- All of them are digits of the base, with letters in the case of the conversion, and they write
  the number. -/
  reads : ∃ ds, Digits.take (Radix.ofConversion d.conversion).base digits = (ds, []) ∧
    Digits.value (Radix.ofConversion d.conversion).base ds = n ∧
    digits = ds.map (Digits.casedByte (d.conversion = asciiByte 'X'))
  /-- Their number. -/
  count : ¬ d.marksOctal → digits.length = d.digitCount n
  /-- The alternative form of an octal number begins with a zero, its digits behind it if this takes
  one more. -/
  octal : d.marksOctal → digits.head? = some (asciiByte '0') ∧
    digits.length = max (d.digitCount n) (if n = 0 then 1 else Nat.log 8 n + 2) ∧
    digits.length ≤ d.digitCount n + 1
  /-- But for zeros before them, they are those that are written into the buffer, which has room for
  them. -/
  buffered : ∃ (word : UInt64) (zeros : Nat) (text : List UInt8), word.toNat = n ∧
    DigitBuffer.digits? (.ofConversion d.conversion) word = some text ∧
    digits = List.replicate zeros Field.zero ++
      if n = 0 ∧ d.precision? = some 0 then [] else text

variable {d : Directive} {n value : Int}

/-- An integer is reduced to one value only. -/
theorem Reduces.iff_eq (h : d.Reduces n value) (k : Int) : d.Reduces n k ↔ k = value := by
  constructor
  · intro hk
    refine hk.holds.unique h.holds ?_
    have hdvd := Int.dvd_sub hk.congruent h.congruent
    rwa [sub_sub_sub_cancel_right] at hdvd
  · rintro rfl
    exact h

theorem Reduces.natAbs_lt (h : d.Reduces n value) : value.natAbs < 2 ^ 64 := by
  have hholds := h.holds
  rw [Length.Holds] at hholds
  cases hlength : d.length <;> rw [hlength] at hholds <;> split at hholds <;>
    simp only [Length.bits] at hholds <;> omega

theorem reduces_narrowSigned (h : d.takesSigned = true) (n : Int) :
    d.Reduces n (d.length.narrowSigned n) :=
  ⟨by rw [h]; exact d.length.holds_narrowSigned n, d.length.dvd_narrowSigned n⟩

theorem reduces_narrowUnsigned (h : d.takesSigned = false) (n : Int) :
    d.Reduces n (d.length.narrowUnsigned n) :=
  ⟨by rw [h]; exact d.length.holds_narrowUnsigned n, d.length.dvd_narrowUnsigned n⟩

end Directive

namespace Field

open Digits

variable {d : Directive}

/-- The digits of an integer, with the zeros before them. -/
def zeroedDigits (d : Directive) (n : Nat) : List UInt8 :=
  let shown := shownDigits d (.ofConversion d.conversion) n
  List.replicate (unsignedMinDigits d shown - shown.length) zero ++ shown

theorem length_zeroedDigits (d : Directive) (n : Nat) :
    let shown := shownDigits d (.ofConversion d.conversion) n
    (zeroedDigits d n).length = max (unsignedMinDigits d shown) shown.length := by
  intro shown
  rw [zeroedDigits, List.length_append, List.length_replicate, Nat.sub_add_eq_max]

/-- The digits of a number that are shown behind the zeros: none of zero with precision zero. -/
def numberDigits (d : Directive) (n : Nat) : List Nat :=
  if n = 0 ∧ d.precision? = some 0 then [] else inBase (Radix.ofConversion d.conversion).base n

theorem shownDigits_eq (d : Directive) (n : Nat) :
    shownDigits d (.ofConversion d.conversion) n =
      (numberDigits d n).map (casedByte (d.conversion = asciiByte 'X')) := by
  rw [shownDigits, numberDigits]
  split
  · rfl
  · rw [Radix.text_eq, Radix.upper_ofConversion]

theorem length_shownDigits (d : Directive) (n : Nat) :
    (shownDigits d (.ofConversion d.conversion) n).length =
      if n = 0 ∧ d.precision? = some 0 then 0
      else Nat.log (Radix.ofConversion d.conversion).base n + 1 := by
  obtain ⟨hlow, _⟩ := base_ofConversion d.conversion
  rw [shownDigits_eq, List.length_map, numberDigits]
  split
  · rfl
  · exact length_inBase (by omega) n

theorem lt_of_mem_numberDigits {n k : Nat} (h : k ∈ numberDigits d n) :
    k < (Radix.ofConversion d.conversion).base := by
  obtain ⟨hlow, _⟩ := base_ofConversion d.conversion
  rw [numberDigits] at h
  split at h
  · cases h
  · exact lt_of_mem_inBase (by omega) h

/-- The digits that are shown write the number. -/
theorem value_numberDigits (d : Directive) (n : Nat) :
    value (Radix.ofConversion d.conversion).base (numberDigits d n) = n := by
  obtain ⟨hlow, _⟩ := base_ofConversion d.conversion
  rw [numberDigits]
  split
  · rename_i h
    rw [h.1]
    rfl
  · exact value_inBase (by omega) n

/-- The zeros are digits too. -/
theorem exists_zeroedDigits_eq (d : Directive) (n : Nat) :
    ∃ zeros, zeroedDigits d n =
      (List.replicate zeros 0 ++ numberDigits d n).map
        (casedByte (d.conversion = asciiByte 'X')) := by
  have hzero : casedByte (d.conversion = asciiByte 'X') 0 = zero := by
    cases decide (d.conversion = asciiByte 'X') <;> rfl
  let shown := shownDigits d (.ofConversion d.conversion) n
  refine ⟨unsignedMinDigits d shown - shown.length, ?_⟩
  rw [List.map_append, List.map_replicate, hzero, ← shownDigits_eq]
  rfl

/-- The digits and the zeros before them write the number. -/
theorem exists_take_zeroedDigits (d : Directive) (n : Nat) :
    ∃ ds, take (Radix.ofConversion d.conversion).base (zeroedDigits d n) = (ds, []) ∧
      value (Radix.ofConversion d.conversion).base ds = n ∧
      zeroedDigits d n = ds.map (casedByte (d.conversion = asciiByte 'X')) := by
  obtain ⟨hlow, hhigh⟩ := base_ofConversion d.conversion
  obtain ⟨zeros, hmap⟩ := exists_zeroedDigits_eq d n
  have hlt : ∀ k ∈ List.replicate zeros 0 ++ numberDigits d n,
      k < (Radix.ofConversion d.conversion).base := by
    intro k hk
    rcases List.mem_append.mp hk with hzero | hdigit
    · rw [List.eq_of_mem_replicate hzero]
      omega
    · exact lt_of_mem_numberDigits hdigit
  have htake := @take_map _ _ _ []
    (fun k hk => digit?_casedByte (d.conversion = asciiByte 'X') hhigh (hlt k hk)) nofun
  rw [List.append_nil, ← hmap] at htake
  exact ⟨_, htake, (value_zeros _ _ _).trans (value_numberDigits d n), hmap⟩

/-- The number of digits where none is added for the base. -/
theorem length_zeroedDigits_of_not_octal {n : Nat} (h : ¬ d.marksOctal) :
    (zeroedDigits d n).length = d.digitCount n := by
  have hmin (shown : List UInt8) : unsignedMinDigits d shown = d.precision?.getD 0 :=
    if_neg fun hoctal => h ⟨hoctal.1, hoctal.2.1⟩
  rw [length_zeroedDigits, hmin, length_shownDigits, Directive.digitCount]
  split
  · rename_i hnone
    rw [hnone.2]
    rfl
  · rfl

/-- The digits of a number begin with a zero only where the number is zero and is shown. -/
theorem head?_shownDigits (d : Directive) (n : Nat) :
    (shownDigits d (.ofConversion d.conversion) n).head? = some zero ↔
      n = 0 ∧ d.precision? ≠ some 0 := by
  obtain ⟨hlow, hhigh⟩ := base_ofConversion d.conversion
  have hbyte : ∀ upper, ∀ k < 16, casedByte upper k = zero → k = 0 := by decide
  rw [shownDigits_eq, numberDigits]
  split
  · rename_i hnone
    exact iff_of_false nofun fun h => h.2 hnone.2
  · rename_i hsome
    obtain ⟨k, more, hcons, hk⟩ := exists_inBase_cons
      (by omega : 2 ≤ (Radix.ofConversion d.conversion).base) n
    have hlt : k < (Radix.ofConversion d.conversion).base :=
      lt_of_mem_inBase (by omega) (hcons ▸ List.mem_cons_self)
    rw [hcons, List.map_cons, List.head?_cons, Option.some.injEq]
    constructor
    · intro h
      have hzero := hbyte _ k (by omega) h
      have hn : n = 0 := Nat.eq_zero_of_not_pos fun hpos => hk hpos hzero
      exact ⟨hn, fun hprecision => hsome ⟨hn, hprecision⟩⟩
    · rintro ⟨rfl, -⟩
      have hsingle : inBase (Radix.ofConversion d.conversion).base 0 = [0] :=
        inBase_of_lt (by omega)
      rw [hsingle] at hcons
      cases hcons
      cases decide (d.conversion = asciiByte 'X') <;> rfl

theorem head?_zeros_append {k : Nat} {text : List UInt8}
    (h : 0 < k ∨ text.head? = some zero) : (List.replicate k zero ++ text).head? = some zero := by
  cases k with
  | zero => exact h.resolve_left (Nat.lt_irrefl 0)
  | succ k => rfl

/-- The digits of a marked octal number: a zero is the first of them, which is one more than the
number has unless the precision asks for it anyway. -/
theorem zeroedDigits_octal (h : d.marksOctal) (n : Nat) :
    (zeroedDigits d n).head? = some (asciiByte '0') ∧
      (zeroedDigits d n).length = max (d.digitCount n) (if n = 0 then 1 else Nat.log 8 n + 2) := by
  have hbase : (Radix.ofConversion d.conversion).base = 8 := by rw [h.1]; rfl
  have hlength := length_shownDigits d n
  have hhead := head?_shownDigits d n
  rw [length_zeroedDigits, zeroedDigits, Directive.digitCount]
  generalize shownDigits d (.ofConversion d.conversion) n = shown at hlength hhead ⊢
  rw [hbase] at hlength ⊢
  by_cases hzero : shown.head? = some zero
  · obtain ⟨rfl, hprecision⟩ := hhead.mp hzero
    have hmin : unsignedMinDigits d shown = d.precision?.getD 0 :=
      if_neg fun hmark => hmark.2.2 hzero
    refine ⟨head?_zeros_append (Or.inr hzero), ?_⟩
    rw [if_neg fun hnone => hprecision hnone.2] at hlength ⊢
    rw [hmin, hlength, Nat.log_zero_right, if_pos rfl]
    omega
  · have hmin : unsignedMinDigits d shown = max (d.precision?.getD 0) (shown.length + 1) :=
      if_pos ⟨h.1, h.2, hzero⟩
    refine ⟨head?_zeros_append (Or.inl (by omega)), ?_⟩
    rw [hmin, hlength]
    by_cases hnone : n = 0 ∧ d.precision? = some 0
    · rw [if_pos hnone, if_pos hnone, if_pos hnone.1, hnone.2]
      rfl
    · have hn : n ≠ 0 := fun hn => hzero (hhead.mpr ⟨hn, fun hp => hnone ⟨hn, hp⟩⟩)
      rw [if_neg hnone, if_neg hnone, if_neg hn]
      omega

theorem showsDigits_zeroedDigits (d : Directive) {n : Nat} (hn : n < 2 ^ 64) :
    d.ShowsDigits n (zeroedDigits d n) := by
  obtain ⟨hlow, hhigh⟩ := base_ofConversion d.conversion
  constructor
  · exact exists_take_zeroedDigits d n
  · exact length_zeroedDigits_of_not_octal
  · intro h
    obtain ⟨hhead, hlength⟩ := zeroedDigits_octal h n
    refine ⟨hhead, hlength, ?_⟩
    have hbase : (Radix.ofConversion d.conversion).base = 8 := by rw [h.1]; rfl
    rw [hlength, Directive.digitCount, hbase]
    split
    · rename_i hnone
      rw [if_pos hnone.1]
      exact Nat.le_refl 1
    · split <;> omega
  · have hword : (UInt64.ofNat n).toNat = n := UInt64.toNat_ofNat_of_lt' hn
    have hbuffer := DigitBuffer.digits?_eq hlow hhigh (UInt64.ofNat n)
    exact ⟨UInt64.ofNat n, _, _, hword, hbuffer, by rw [hword]; rfl⟩

/-- Digits behind a lead, without a width. -/
theorem bytes_digits (hd : d.minWidth = 0) (lead shown : List UInt8) (minDigits : Nat) :
    (digits d lead shown minDigits).bytes =
      lead ++ (List.replicate (minDigits - shown.length) zero ++ shown) := by
  rw [digits, bytes_complete, bytes_layout_of_absent hd]
  simp only [Piece.bytesOf, List.flatMap_cons, List.flatMap_nil, Piece.bytes, List.append_nil]

/-- The field of a signed integer without a width. -/
theorem bytes_signed (hd : d.minWidth = 0) (hsigned : d.takesSigned = true) (n : Int) :
    (signed d n).bytes = d.integerLead n ++ zeroedDigits d n.natAbs := by
  have hdecimal : d.conversion ≠ asciiByte 'o' ∧ Radix.ofConversion d.conversion = .decimal := by
    rcases List.mem_pair.mp (List.contains_iff_mem.mp hsigned) with hc | hc <;> rw [hc] <;>
      exact ⟨by decide, rfl⟩
  have hmin (shown : List UInt8) : unsignedMinDigits d shown = d.precision?.getD 0 :=
    if_neg fun hoctal => hdecimal.1 hoctal.1
  rw [signed, bytes_digits hd, zeroedDigits, hdecimal.2, hmin, Directive.integerLead,
    if_pos hsigned, signText]
  simp only [decide_eq_true_eq]
  rfl

/-- The field of an unsigned integer without a width. -/
theorem bytes_unsigned (hd : d.minWidth = 0) (hunsigned : d.takesSigned = false) (n : Nat) :
    (unsigned d n).bytes = d.integerLead n ++ zeroedDigits d n := by
  rw [unsigned, bytes_digits hd, zeroedDigits, Directive.integerLead,
    if_neg (by rw [hunsigned]; exact Bool.false_ne_true), radixLead]
  simp only [ne_eq, Int.natCast_eq_zero]
  rfl

end Field

end FormattedText
