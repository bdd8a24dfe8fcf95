import FormattedText.Proofs.Directive.Canonical
import FormattedText.Proofs.Directive.Parts

/-!
# What the parser of directives accepts

A directive stands at a percent sign of a format exactly if the bytes behind the sign, up to some
offset, are cut into the parts of the grammar and a conversion; without a conversion the format is
malformed there, and with a number that is too large the parser overflows. Nothing behind the
conversion is looked at, and a directive that is written back is read again
(`Directive.parseAt_followsGrammar`).

The parser sees the whole format, while the grammar cuts only what belongs to the directive. Both
find the same parts, since a part is ended by the byte behind it
(`DirectiveParts.Splits.congr`).
-/

namespace FormattedText

/-- What is cut out behind `k` elements is a beginning of what stands there. -/
theorem take_drop_eq_iff {α : Type} {s front : List α} (k stop : Nat) (hfront : front ≠ []) :
    (stop ≤ s.length ∧ (s.take stop).drop k = front) ↔
      ∃ after, s.drop k = front ++ after ∧ stop = s.length - after.length := by
  have hpos := List.length_pos_iff.mpr hfront
  constructor
  · rintro ⟨hstop, hcut⟩
    have hlength := congrArg List.length hcut
    rw [List.length_drop, List.length_take, Nat.min_eq_left hstop] at hlength
    refine ⟨s.drop stop, ?_, ?_⟩
    · rw [← hcut, ← List.drop_append_of_le_length, List.take_append_drop]
      rw [List.length_take, Nat.min_eq_left hstop]
      omega
    · rw [List.length_drop]
      omega
  · rintro ⟨after, hdrop, rfl⟩
    have hlength := congrArg List.length hdrop
    rw [List.length_drop, List.length_append] at hlength
    have htaken : s.length - after.length - k = front.length := by omega
    exact ⟨Nat.sub_le _ _, by rw [List.drop_take, htaken, hdrop, List.take_left]⟩

theorem head?_append_congr {α : Type} (s : List α) {t t' : List α} (h : t'.head? = t.head?) :
    (s ++ t').head? = (s ++ t).head? := by
  rw [List.head?_append, List.head?_append, h]

/-- Of what follows the parts only the first byte is looked at. -/
theorem DirectiveParts.Splits.congr {p : DirectiveParts} {s rest rest' : List UInt8}
    (h : p.Splits s rest) (hhead : rest'.head? = rest.head?) :
    p.Splits (p.bytes ++ rest') rest' := by
  have hmodifier := head?_append_congr p.modifier hhead
  have hprecision := head?_append_congr p.precision hmodifier
  have hwidth := head?_append_congr p.width hprecision
  have hflags := h.flags.congr Directive.isBeginningClosed_flagText hwidth
  refine ⟨?_, h.width.congr Directive.isBeginningClosed_measureText hprecision,
    h.precision.congr Directive.isBeginningClosed_precisionText hmodifier,
    h.modifier.congr Directive.isBeginningClosed_modifierText hhead⟩
  rw [bytes, List.append_assoc, List.append_assoc, List.append_assoc]
  exact hflags

namespace Directive

section Reading

variable {format rest : List UInt8} {offset stop : Nat} {d : Directive}

theorem parseAt_eq_ok_iff : parseAt format offset = .ok (d, stop) ↔
    ∃ rest, parse (format.drop (offset + 1)) = .ok (d, rest) ∧
      stop = format.length - rest.length := by
  rw [parseAt]
  cases parse (format.drop (offset + 1)) with
  | error e =>
    constructor
    · intro h
      cases h
    · rintro ⟨rest, hparse, _⟩
      cases hparse
  | ok p =>
    constructor
    · intro h
      cases h
      exact ⟨p.2, rfl, rfl⟩
    · rintro ⟨rest, hparse, rfl⟩
      cases hparse
      rfl

theorem parseAt_eq_error_iff {e : DirectiveError} :
    parseAt format offset = .error (e.failure offset) ↔
      parse (format.drop (offset + 1)) = .error e := by
  rw [parseAt]
  cases parse (format.drop (offset + 1)) with
  | error e' => cases e' <;> cases e <;> simp [DirectiveError.failure]
  | ok p =>
    refine iff_of_false (fun h => ?_) fun h => ?_
    · cases h
    · cases h

/-- A directive is read exactly from the bytes behind its sign that are cut into its parts and its
conversion. -/
theorem parseAt_eq_ok_iff_splits : parseAt format offset = .ok (d, stop) ↔
    stop ≤ format.length ∧ ∃ p : DirectiveParts,
      p.Splits ((format.take stop).drop (offset + 1)) [d.conversion] ∧ p.IsMet ∧
        p.directive d.conversion = d := by
  rw [parseAt_eq_ok_iff]
  constructor
  · rintro ⟨rest, hparse, hstop⟩
    obtain ⟨p, hsplits, hmet, hd⟩ := parse_eq_ok_iff_splits.mp hparse
    have hdrop : format.drop (offset + 1) = (p.bytes ++ [d.conversion]) ++ rest := by
      rw [hsplits.eq_append, List.append_assoc, List.singleton_append]
    obtain ⟨hle, hcut⟩ := (take_drop_eq_iff (offset + 1) stop (by simp)).mpr ⟨rest, hdrop, hstop⟩
    refine ⟨hle, p, ?_, hmet, hd⟩
    rw [hcut]
    exact hsplits.congr rfl
  · rintro ⟨hle, p, hsplits, hmet, hd⟩
    obtain ⟨rest, hdrop, hstop⟩ := (take_drop_eq_iff (offset + 1) stop (by simp)).mp
      ⟨hle, hsplits.eq_append⟩
    refine ⟨rest, parse_eq_ok_iff_splits.mpr ⟨p, ?_, hmet, hd⟩, hstop⟩
    rw [hdrop, List.append_assoc, List.singleton_append]
    exact hsplits.congr rfl

/-- What was read is read wherever the same bytes stand behind a sign. -/
theorem parseAt_of_prefix (h : parseAt format offset = .ok (d, stop)) {other : List UInt8}
    {start : Nat} (hbegins : (format.take stop).drop (offset + 1) <+: other.drop (start + 1)) :
    parseAt other start = .ok (d, start + (stop - offset)) := by
  obtain ⟨hle, p, hsplits, hmet, hd⟩ := parseAt_eq_ok_iff_splits.mp h
  have hlength := congrArg List.length hsplits.eq_append
  obtain ⟨rest, hdrop⟩ := hbegins
  have hlength' := congrArg List.length hdrop
  rw [List.length_drop, List.length_take, Nat.min_eq_left hle, List.length_append,
    List.length_singleton] at hlength
  rw [List.length_append, List.length_drop, List.length_drop, List.length_take,
    Nat.min_eq_left hle] at hlength'
  refine parseAt_eq_ok_iff.mpr ⟨rest, ?_, by omega⟩
  rw [← hdrop]
  exact parse_append (parse_eq_ok_iff_splits.mpr ⟨p, hsplits, hmet, hd⟩) rest

/-- A directive that is written back behind a sign is read again. -/
theorem parseAt_canonical (h : parseAt format offset = .ok (d, stop)) (front behind : List UInt8) :
    parseAt (front ++ percentByte :: (d.canonical.bytes ++ behind)) front.length =
      .ok (d, front.length + 1 + d.canonical.bytes.length) := by
  obtain ⟨rest, hparse, _⟩ := parseAt_eq_ok_iff.mp h
  refine parseAt_eq_ok_iff.mpr ⟨behind, ?_, ?_⟩
  · rw [← List.drop_drop, List.drop_left]
    exact parse_canonical hparse behind
  · simp only [List.length_append, List.length_cons]
    omega

end Reading

/-- The parser of directives follows the grammar at an offset of a format. -/
structure FollowsGrammar (format : List UInt8) (offset : Nat) : Prop where
  /-- A directive is read up to an offset exactly if the bytes between are its longest parts, with
  numbers that can be met, and its conversion. -/
  reads : ∀ d stop, parseAt format offset = .ok (d, stop) ↔
    stop ≤ format.length ∧ ∃ p : DirectiveParts,
      p.Splits ((format.take stop).drop (offset + 1)) [d.conversion] ∧ p.IsMet ∧
        p.directive d.conversion = d
  /-- The parser overflows exactly if one of the numbers cannot be met. -/
  overflows : parseAt format offset = .error .overflow ↔
    ∃ (p : DirectiveParts) (rest : List UInt8), p.Splits (format.drop (offset + 1)) rest ∧
      ¬ p.IsMet
  /-- The format is malformed exactly if it ends with the parts, and the numbers can be met. -/
  malformed : parseAt format offset = .error (.malformedDirective offset) ↔
    ∃ p : DirectiveParts, p.Splits (format.drop (offset + 1)) [] ∧ p.IsMet
  /-- The parser fails in no other way. -/
  fails : ∀ e, parseAt format offset = .error e → e = .overflow ∨ e = .malformedDirective offset
  /-- Only the bytes of the directive are looked at: where they stand behind another sign, the
  same directive is read. -/
  anywhere : ∀ d stop, parseAt format offset = .ok (d, stop) → ∀ (other : List UInt8) start,
    (format.take stop).drop (offset + 1) <+: other.drop (start + 1) →
      parseAt other start = .ok (d, start + (stop - offset))
  /-- The directive is read again from its canonical spelling. -/
  rewritten : ∀ d stop, parseAt format offset = .ok (d, stop) → ∀ front behind : List UInt8,
    parseAt (front ++ percentByte :: (d.canonical.bytes ++ behind)) front.length =
      .ok (d, front.length + 1 + d.canonical.bytes.length)

/-- The parser accepts exactly the grammar, at every offset of every format. -/
theorem parseAt_followsGrammar (format : List UInt8) (offset : Nat) :
    FollowsGrammar format offset where
  reads _ _ := parseAt_eq_ok_iff_splits
  overflows := (parseAt_eq_error_iff (e := .tooLarge)).trans parse_eq_tooLarge_iff
  malformed := (parseAt_eq_error_iff (e := .truncated)).trans parse_eq_truncated_iff
  fails e he := by
    rw [parseAt] at he
    cases hparse : parse (format.drop (offset + 1)) with
    | ok p => simp [hparse] at he
    | error e' =>
      simp only [hparse] at he
      cases he
      cases e' with
      | truncated => exact Or.inr rfl
      | tooLarge => exact Or.inl rfl
  anywhere _ _ h _ _ hbegins := parseAt_of_prefix h hbegins
  rewritten _ _ h := parseAt_canonical h

/-- `<%0012.*qd>`: the zeros before the width are flags, and what is written back is `012.*lld`. -/
theorem parseAt_followsGrammar_zeros :
    let format : List UInt8 := [0x3C, 0x25, 0x30, 0x30, 0x31, 0x32, 0x2E, 0x2A, 0x71, 0x64, 0x3E]
    let d : Directive :=
      ⟨Flags.none.set .zeroPad, .fixed 12, .fromArgument, .longLong, 0x64⟩
    parseAt format 1 = .ok (d, 10) ∧
      (∃ p : DirectiveParts,
        p.Splits [0x30, 0x30, 0x31, 0x32, 0x2E, 0x2A, 0x71, 0x64] [0x64] ∧ p.IsMet ∧
          p.directive 0x64 = d) ∧
      ∀ behind, parseAt (0x25 :: ([0x30, 0x31, 0x32, 0x2E, 0x2A, 0x6C, 0x6C, 0x64] ++ behind)) 0 =
        .ok (d, 9) := by
  intro format d
  have hread : parseAt format 1 = .ok (d, 10) := rfl
  have hbytes : d.canonical.bytes = [0x30, 0x31, 0x32, 0x2E, 0x2A, 0x6C, 0x6C, 0x64] := by
    decide +kernel
  obtain ⟨_, hsplits⟩ := ((parseAt_followsGrammar format 1).reads d 10).mp hread
  refine ⟨hread, hsplits, fun behind => ?_⟩
  have hagain := (parseAt_followsGrammar format 1).rewritten d 10 hread [] behind
  rw [hbytes] at hagain
  exact hagain

end Directive

end FormattedText
