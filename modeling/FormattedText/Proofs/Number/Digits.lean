import FormattedText.Number.Digits

/-!
# Digits of a number

A number of several digits has its last one behind those of the quotient by the base
(`Digits.inBase_of_le`), so what holds of a digit and passes from the quotient to the number holds
of every number (`Digits.induction`). The digits write the number (`Digits.value_inBase`), and the
first of them is not zero. `Digits.take` reads the longest run of digits of a base, in either case
of the letters; it reads back what is written.
-/

namespace FormattedText

namespace Digits

variable {base n d : Nat}

theorem pushDigits_of_lt (h : n < base ∨ base < 2) (tail : List Nat) :
    pushDigits base n tail = n :: tail := by
  rw [pushDigits, dif_pos h]

theorem pushDigits_of_le (h : ¬ (n < base ∨ base < 2)) (tail : List Nat) :
    pushDigits base n tail = pushDigits base (n / base) (n % base :: tail) := by
  rw [pushDigits, dif_neg h]

/-- Digits that stand behind others do not change them. -/
theorem pushDigits_eq (base n : Nat) (tail : List Nat) :
    pushDigits base n tail = inBase base n ++ tail := by
  induction n using Nat.strongRecOn generalizing tail with
  | ind n ih =>
    rw [inBase]
    by_cases hn : n < base ∨ base < 2
    · rw [pushDigits_of_lt hn, pushDigits_of_lt hn]
      rfl
    · have hlt : n / base < n := Nat.div_lt_self (by omega) (by omega)
      rw [pushDigits_of_le hn, pushDigits_of_le hn, ih _ hlt, ih _ hlt, List.append_assoc]
      rfl

/-- A number below the base is its own digit. -/
theorem inBase_of_lt (h : n < base) : inBase base n = [n] := by
  exact pushDigits_of_lt (Or.inl h) []

/-- The last digit is the remainder, and the quotient has the others. -/
theorem inBase_of_le (hbase : 2 ≤ base) (h : base ≤ n) :
    inBase base n = inBase base (n / base) ++ [n % base] := by
  have hn : ¬ (n < base ∨ base < 2) := by omega
  rw [inBase, pushDigits_of_le hn, pushDigits_eq]

/-- What holds below the base and passes from the quotient to the number holds of every number. -/
theorem induction {motive : Nat → Prop} (hbase : 2 ≤ base)
    (digit : ∀ n, n < base → motive n)
    (digits : ∀ n, base ≤ n → motive (n / base) → motive n) (n : Nat) : motive n := by
  induction n using Nat.strongRecOn with
  | ind n ih =>
    by_cases hn : n < base
    · exact digit n hn
    · apply digits n (Nat.not_lt.mp hn)
      exact ih _ (Nat.div_lt_self (by omega) (by omega))

theorem value_concat (base : Nat) (digits : List Nat) (d : Nat) :
    value base (digits ++ [d]) = value base digits * base + d := by
  rw [value, List.foldl_append]
  rfl

/-- The digits of a number write it. -/
theorem value_inBase (hbase : 2 ≤ base) (n : Nat) : value base (inBase base n) = n := by
  induction n using induction hbase with
  | digit n hn =>
    rw [inBase_of_lt hn, value, List.foldl_cons, Nat.zero_mul, Nat.zero_add]
    rfl
  | digits n hn ih => rw [inBase_of_le hbase hn, value_concat, ih, Nat.div_add_mod']

theorem lt_of_mem_inBase (hbase : 2 ≤ base) (hd : d ∈ inBase base n) : d < base := by
  induction n using induction hbase with
  | digit n hn =>
    rw [inBase_of_lt hn] at hd
    exact List.mem_singleton.mp hd ▸ hn
  | digits n hn ih =>
    rw [inBase_of_le hbase hn] at hd
    rcases List.mem_append.mp hd with hfirst | hlast
    · exact ih hfirst
    · rw [List.mem_singleton.mp hlast]
      exact Nat.mod_lt n (by omega)

/-- A number does not begin with the digit zero, unless it is zero. -/
theorem exists_inBase_cons (hbase : 2 ≤ base) (n : Nat) :
    ∃ d more, inBase base n = d :: more ∧ (0 < n → d ≠ 0) := by
  induction n using induction hbase with
  | digit n hn => exact ⟨n, [], inBase_of_lt hn, Nat.ne_of_gt⟩
  | digits n hn ih =>
    obtain ⟨d, more, hcons, hd⟩ := ih
    refine ⟨d, more ++ [n % base], ?_, fun _ => hd (Nat.div_pos hn (by omega))⟩
    rw [inBase_of_le hbase hn, hcons, List.cons_append]

theorem inBase_ne_nil (hbase : 2 ≤ base) (n : Nat) : inBase base n ≠ [] := by
  obtain ⟨d, more, hcons, _⟩ := exists_inBase_cons hbase n
  rw [hcons]
  exact List.cons_ne_nil d more

section Reading

/-- What a byte stands for as a digit, letters in either case standing for ten and more. -/
def ofByte? (b : UInt8) : Option Nat :=
  if 0x30 ≤ b ∧ b ≤ 0x39 then some (b.toNat - 0x30)
  else if 0x61 ≤ b ∧ b ≤ 0x7A then some (b.toNat - 0x57)
  else if 0x41 ≤ b ∧ b ≤ 0x5A then some (b.toNat - 0x37)
  else none

/-- The digit of a base that a byte stands for. -/
def digit? (base : Nat) (b : UInt8) : Option Nat := (ofByte? b).filter (· < base)

/-- Takes the longest run of digits of a base. -/
def take (base : Nat) : List UInt8 → List Nat × List UInt8
  | [] => ([], [])
  | b :: rest =>
      match digit? base b with
      | none => ([], b :: rest)
      | some d => (d :: (take base rest).1, (take base rest).2)

theorem ofByte?_byte : ∀ d < 16, ofByte? (byte d) = some d := by
  decide

theorem digit?_eq_some {b : UInt8} (hb : ofByte? b = some d) (hd : d < base) :
    digit? base b = some d := by
  rw [digit?, hb]
  exact if_pos (decide_eq_true hd)

theorem digit?_byte (hbase : base ≤ 16) (hd : d < base) : digit? base (byte d) = some d :=
  digit?_eq_some (ofByte?_byte d (Nat.lt_of_lt_of_le hd hbase)) hd

/-- Digits end before a byte that is none. -/
theorem take_of_none {rest : List UInt8} (h : ∀ c ∈ rest.head?, digit? base c = none) :
    take base rest = ([], rest) := by
  cases rest with
  | nil => rfl
  | cons c rest => rw [take, h c rfl]

/-- Digits are read back as they are written, up to a byte that is none. -/
theorem take_map {write : Nat → UInt8} {digits : List Nat} {rest : List UInt8}
    (hwrite : ∀ d ∈ digits, digit? base (write d) = some d)
    (hrest : ∀ c ∈ rest.head?, digit? base c = none) :
    take base (digits.map write ++ rest) = (digits, rest) := by
  induction digits with
  | nil => exact take_of_none hrest
  | cons d digits ih =>
    have hlater := ih fun e he => hwrite e (List.mem_cons_of_mem d he)
    rw [List.map_cons, List.cons_append, take, hwrite d List.mem_cons_self]
    simp only [hlater]

end Reading

end Digits

end FormattedText
