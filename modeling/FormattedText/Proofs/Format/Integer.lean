import FormattedText.Proofs.Field.Integer
import FormattedText.Proofs.Format.Single

/-!
# Prints of an integer

A directive that converts an integer, without a width, prints the value to which the integer is
reduced: the sign or the mark that the value has there, and digits that write its magnitude
(`printToMemory_integer`).
-/

namespace FormattedText

namespace Directive

variable {options : FormatOptions} {d : Directive} {a : Argument} {rest : List Argument}
  {position : Nat} {n : Int}

theorem takesSigned_eq_false (h : d.takesUnsigned = true) : d.takesSigned = false := by
  have hmem := List.contains_iff_mem.mp h
  simp only [List.map_cons, List.map_nil, List.mem_cons, List.not_mem_nil, or_false] at hmem
  rcases hmem with hc | hc | hc | hc <;> rw [takesSigned, hc] <;> rfl

theorem kind_of_takesSigned (h : d.takesSigned = true) (writer : Writer) :
    d.kind writer = .signed :=
  if_pos h

theorem kind_of_takesUnsigned (h : d.takesUnsigned = true) (writer : Writer) :
    d.kind writer = .unsigned := by
  have hsigned := takesSigned_eq_false h
  rw [takesSigned] at hsigned
  rw [kind]
  simp only [hsigned, Bool.false_eq_true, ite_false]
  exact if_pos h

/-- The field of an integer shows the value to which the directive reduces it. -/
theorem exists_expand_integer (hd : d.minWidth = 0)
    (hconversion : d.takesSigned = true ∨ d.takesUnsigned = true) (ha : a.integer? = some n) :
    ∃ f value, d.expand options ⟨a :: rest, position⟩ = .ok (.field f, ⟨rest, position + 1⟩) ∧
      f.failure = none ∧ d.Reduces n value ∧
      f.bytes = d.integerLead value ++ Field.zeroedDigits d value.natAbs := by
  rcases hconversion with hsigned | hunsigned
  · have htake : a.signed? d.length = some (d.length.narrowSigned n) := by
      rw [Argument.signed?, ha]
      rfl
    refine ⟨Field.signed d (d.length.narrowSigned n), _, ?_, rfl, reduces_narrowSigned hsigned n,
      Field.bytes_signed hd hsigned _⟩
    rw [expand, kind_of_takesSigned hsigned]
    simp only [Arguments.expect, Arguments.take, htake]
    rfl
  · have hsigned := takesSigned_eq_false hunsigned
    have htake : a.unsigned? d.length = some (d.length.narrowUnsigned n) := by
      cases a <;> cases ha <;> rfl
    refine ⟨Field.unsigned d (d.length.narrowUnsigned n), _, ?_, rfl,
      reduces_narrowUnsigned hsigned n, Field.bytes_unsigned hd hsigned _⟩
    rw [expand, kind_of_takesUnsigned hunsigned]
    simp only [Arguments.expect, Arguments.take, htake]
    rfl

end Directive

section Printing

variable {options : FormatOptions} {s : List UInt8} {args : List Argument} {d : Directive}
  {a : Argument} {rest : List Argument} {position : Nat} {n : Int}

/-- A directive that converts an integer, without a width, prints one value: the only number of the
type that its length and its conversion name that is congruent to the integer. It prints the sign or
the mark that the value has there and digits that show its magnitude, as many as the precision and
the alternative form ask for. -/
theorem printToMemory_integer (h : Format.IsDirective s args d ⟨a :: rest, position⟩)
    (hd : d.minWidth = 0) (hconversion : d.takesSigned = true ∨ d.takesUnsigned = true)
    (ha : a.integer? = some n) :
    ∃ value digits, (∀ k, d.Reduces n k ↔ k = value) ∧ d.ShowsDigits value.natAbs digits ∧
      (printToMemory options (percentByte :: s) args).Shows (d.integerLead value ++ digits) := by
  obtain ⟨f, value, hexpand, hfailure, hreduces, hbytes⟩ :=
    @Directive.exists_expand_integer options d a rest position n hd hconversion ha
  have hpercent : d.conversion ≠ percentByte := by
    rintro hc
    rw [Directive.takesSigned, Directive.takesUnsigned, hc] at hconversion
    exact absurd hconversion (by decide)
  have hshows := h.shows hpercent hexpand hfailure
  rw [hbytes] at hshows
  exact ⟨value, _, hreduces.iff_eq, Field.showsDigits_zeroedDigits d hreduces.natAbs_lt, hshows⟩

/-- `%#llo` of the greatest word: a zero and the 22 octal digits of the word, which the buffer has
room for. -/
theorem printToMemory_integer_greatest :
    let d : Directive := ⟨Flags.none.set .alternate, .absent, .absent, .longLong, asciiByte 'o'⟩
    ∃ digits, d.ShowsDigits (2 ^ 64 - 1) digits ∧ digits.length = 23 ∧
      (printToMemory ⟨.full, .utf8⟩ [0x25, 0x23, 0x6C, 0x6C, 0x6F] [.uint 0xFFFFFFFFFFFFFFFF]).Gives
        (.ok 23) digits := by
  intro d
  have hdirective : Format.IsDirective [0x23, 0x6C, 0x6C, 0x6F] [.uint 0xFFFFFFFFFFFFFFFF] d
      ⟨[.uint 0xFFFFFFFFFFFFFFFF], 0⟩ :=
    ⟨by decide, d, eq_ok_of_toOption (by decide +kernel), rfl⟩
  obtain ⟨value, digits, hvalue, hdigits, hprint⟩ :=
    @printToMemory_integer ⟨.full, .utf8⟩ _ _ _ _ _ _ (2 ^ 64 - 1) hdirective rfl (Or.inr rfl) rfl
  have hgreatest : (2 ^ 64 - 1 : Int) = value := by
    refine (hvalue _).mp ⟨?_, ?_⟩
    · exact ⟨by decide, by decide⟩
    · rw [sub_self]
      exact dvd_zero _
  subst hgreatest
  have hlog : Nat.log 8 (2 ^ 64 - 1) = 21 :=
    Nat.log_eq_of_pow_le_of_lt_pow (by decide) (by decide)
  have hlength : digits.length = 23 := by
    obtain ⟨_, hcount, _⟩ := hdigits.octal ⟨rfl, rfl⟩
    rw [hcount]
    change max (max 0 (Nat.log 8 (2 ^ 64 - 1) + 1)) (Nat.log 8 (2 ^ 64 - 1) + 2) = 23
    rw [hlog]
    rfl
  have hshort : digits.length ≤ Directive.maxMeasure := by
    rw [hlength]
    decide
  exact ⟨digits, hdigits, hlength, hlength ▸ hprint.fits hshort⟩

end Printing

end FormattedText
