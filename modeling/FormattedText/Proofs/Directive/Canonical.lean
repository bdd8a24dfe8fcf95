import FormattedText.Proofs.Format.Spelling

/-!
# The canonical spelling of a directive

A directive is written back with its flags in the order of `Flag.all`, with the digits of its
numbers, and with one spelling of its length modifier (`Directive.canonical`). This may differ from
the bytes that were read: a flag may have stood there twice, a precision without digits is zero,
and `q` is `ll`.

What is written back is read as the same directive (`Directive.parse_canonical`). It could only be
misread where a part goes on in the conversion. A modifier keeps the conversion apart from the
other parts; without one they end before the byte that ended them already.
-/

namespace FormattedText

/-- The bytes of the modifier of a length. -/
def Length.modifier (length : Length) : List UInt8 :=
  ((spellings.find? (·.2 == length)).map (·.1)).getD []

/-- A width or a precision as it is written back. -/
def MeasureSpelling.canonical : Measure → MeasureSpelling
  | .absent => .absent
  | .fixed n => .digits (Digits.text 10 n)
  | .fromArgument => .star

/-- A directive as it is written back. -/
def Directive.canonical (d : Directive) : DirectiveSpelling :=
  ⟨Flag.all.filter d.flags.has, .canonical d.width, .canonical d.precision, d.length.modifier,
    d.length, d.conversion⟩

section Numbers

variable {digits next : List UInt8} {m : MeasureSpelling}

/-- Digits that do not begin with a zero do not write zero. -/
theorem decimalValue_pos (hdigits : ∀ b ∈ digits, isDigitByte b = true)
    (hzero : ∃ b ∈ digits.head?, b ≠ Field.zero) : 0 < decimalValue digits := by
  have hmono (more : List UInt8) (v : Nat) :
      v ≤ more.foldl (fun v d => v * 10 + (d.toNat - (asciiByte '0').toNat)) v := by
    induction more generalizing v with
    | nil => exact Nat.le_refl v
    | cons d more ih =>
      have hstep : v ≤ v * 10 + (d.toNat - (asciiByte '0').toNat) := by omega
      exact Nat.le_trans hstep (ih _)
  obtain ⟨b, hb, hne⟩ := hzero
  obtain ⟨more, rfl⟩ := List.head?_eq_some_iff.mp hb
  have hdigit := hdigits b List.mem_cons_self
  rw [isDigitByte, Bool.and_eq_true, decide_eq_true_eq, UInt8.le_iff_toNat_le] at hdigit
  have hne' : b.toNat ≠ (asciiByte '0').toNat := fun h => hne (UInt8.toNat_inj.mp h)
  have hfirst : 0 < 0 * 10 + (b.toNat - (asciiByte '0').toNat) := by omega
  exact Nat.lt_of_lt_of_le hfirst (hmono more _)

namespace MeasureSpelling

theorem measure_canonical (m : Measure) : (canonical m).measure = m := by
  cases m with
  | absent | fromArgument => rfl
  | fixed n => exact congrArg Measure.fixed (Digits.decimalValue_text n)

theorem number_canonical (m : MeasureSpelling) : (canonical m.measure).number = m.number := by
  rw [number, number, measure_canonical]

theorem IsWidth.canonical (h : m.IsWidth) : (canonical m.measure).IsWidth := by
  cases m with
  | absent | star => exact trivial
  | digits ds => exact isWidth_text (decimalValue_pos h.1 h.2)

theorem eq_absent_of_canonical (h : canonical m.measure = .absent) : m = .absent := by
  cases m with
  | absent => rfl
  | digits | star => cases h

/-- A width that is written back ends where the first one ended. -/
theorem IsWidthBefore.canonical (h : m.IsWidthBefore next) :
    (canonical m.measure).IsWidthBefore next := by
  cases m with
  | absent | star => exact h
  | digits ds => exact ⟨Digits.text_ne_nil _, h.2.text _⟩

theorem isPrecision_canonical (m : Measure) : (canonical m).IsPrecision := by
  cases m with
  | absent | fromArgument => exact trivial
  | fixed n => exact Digits.isDigitByte_text

/-- A precision that is written back ends where the first one ended. -/
theorem IsPrecisionBefore.canonical (h : m.IsPrecisionBefore next) :
    (canonical m.measure).IsPrecisionBefore next := by
  cases m with
  | absent | star => exact h
  | digits ds => exact h.text _

/-- A precision that is written back begins as the first one did. -/
theorem head?_pointed_canonical (m : MeasureSpelling) (next : List UInt8) :
    ((canonical m.measure).pointed ++ next).head? = (m.pointed ++ next).head? := by
  cases m <;> rfl

end MeasureSpelling

end Numbers

section Modifiers

variable {l : Length} {modifier : List UInt8} {c : UInt8}

theorem Directive.takeLength_cases (s : List UInt8) :
    takeLength s = (.plain, s) ∨
      ∃ p ∈ Length.spellings, ∃ rest, s = p.1 ++ rest ∧ takeLength s = (p.2, rest) := by
  rw [takeLength]
  cases hfind : Length.spellings.find? fun p => p.1.isPrefixOf s with
  | none => exact Or.inl rfl
  | some p =>
    have hbegins := List.find?_some hfind
    rw [List.isPrefixOf_iff_prefix] at hbegins
    obtain ⟨rest, rfl⟩ := hbegins
    refine Or.inr ⟨p, List.mem_of_find?_eq_some hfind, rest, rfl, ?_⟩
    simp only [List.drop_left]

/-- A modifier that is written back is read as the same length. -/
theorem Length.takeLength_modifier (h : Directive.takeLength (modifier ++ [c]) = (l, [c])) :
    Directive.takeLength (l.modifier ++ [c]) = (l, [c]) := by
  have hsame : ∀ p ∈ spellings, p.2.modifier = p.1 ∨ p.2 = longLong := by decide
  rcases Directive.takeLength_cases (modifier ++ [c]) with hplain | ⟨p, hp, rest, hs, htake⟩
  · rw [h] at hplain
    obtain ⟨rfl, hs⟩ := Prod.mk.inj hplain
    rw [← hs] at h
    exact h
  · rw [h] at htake
    obtain ⟨rfl, rfl⟩ := Prod.mk.inj htake
    rcases hsame p hp with hmodifier | hlong
    · rw [hmodifier, ← hs]
      exact h
    · rw [hlong]
      rfl

/-- A modifier that is written back keeps what follows apart from what precedes. -/
theorem Length.isOutside_modifier (hl : l ≠ .plain) (next : List UInt8) :
    ∀ c ∈ (l.modifier ++ next).head?, IsOutside c := by
  intro c hc
  cases l with
  | plain => exact absurd rfl hl
  | _ =>
    cases hc
    exact ⟨by decide, by decide, by decide, by decide⟩

end Modifiers

namespace DirectiveSpelling

variable {sp : DirectiveSpelling}

theorem directive_canonical (d : Directive) : d.canonical.directive = d := by
  have hflags : (Flag.all.filter d.flags.has).foldl Flags.set .none = d.flags := by
    apply Flags.eq_of_has
    intro flag
    have hall : flag ∈ Flag.all := by
      cases flag <;> decide
    rw [Flags.has_foldl, Flags.has_none, Bool.false_or, Bool.eq_iff_iff, List.contains_iff_mem,
      List.mem_filter]
    exact and_iff_right hall
  rw [directive, Directive.canonical]
  simp only [hflags, MeasureSpelling.measure_canonical]

/-- Without a modifier the conversion alone follows the precision. -/
theorem IsApart.tail_of_plain (h : sp.IsApart) (hl : sp.length = .plain) :
    sp.tail = [sp.conversion] := by
  have hspelled : ∀ p ∈ Length.spellings, p.2 ≠ .plain := by decide
  rcases Directive.takeLength_cases sp.tail with hplain | ⟨p, hp, rest, hs, htake⟩
  · rw [h.modifier] at hplain
    exact (Prod.mk.inj hplain).2.symm
  · rw [h.modifier, hl] at htake
    exact absurd (Prod.mk.inj htake).1.symm (hspelled p hp)

/-- The parts that are written back are apart, as those were that were read. -/
theorem IsApart.canonical (h : sp.IsApart) : sp.directive.canonical.IsApart := by
  have hmodifier := Length.takeLength_modifier h.modifier
  by_cases hl : sp.length = .plain
  · have htail : sp.directive.canonical.tail = sp.tail := by
      rw [h.tail_of_plain hl, tail]
      simp only [Directive.canonical, directive, hl]
      rfl
    have hafter : sp.directive.canonical.afterWidth.head? = sp.afterWidth.head? := by
      rw [afterWidth, htail]
      exact sp.precision.head?_pointed_canonical sp.tail
    refine ⟨?_, h.width.canonical.congr hafter.symm, ?_, hmodifier⟩
    · refine h.isWidth.canonical.head?_bytes fun habsent => ?_
      have hflags := h.flags
      rw [afterFlags, MeasureSpelling.eq_absent_of_canonical habsent] at hflags
      rw [hafter]
      exact hflags
    · rw [htail]
      exact h.precision.canonical
  · exact isApart_of_outside (Length.isOutside_modifier hl _) h.isWidth.canonical
      (MeasureSpelling.isPrecision_canonical _) hmodifier

theorem IsMet.canonical (h : sp.IsMet) : sp.directive.canonical.IsMet := by
  constructor
  · exact (MeasureSpelling.number_canonical sp.width).symm ▸ h.width
  · exact (MeasureSpelling.number_canonical sp.precision).symm ▸ h.precision

end DirectiveSpelling

/-- A directive that was read is read again from what is written back, whatever follows. -/
theorem Directive.parse_canonical {s rest : List UInt8} {d : Directive}
    (h : parse s = .ok (d, rest)) (g : List UInt8) :
    parse (d.canonical.bytes ++ g) = .ok (d, g) := by
  obtain ⟨sp, _, rfl, hapart, hmet⟩ := exists_spelling h
  have hparse := hapart.canonical.parse_bytes hmet.canonical g
  rw [DirectiveSpelling.directive_canonical] at hparse
  exact hparse

end FormattedText
