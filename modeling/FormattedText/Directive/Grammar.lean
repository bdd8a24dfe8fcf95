import FormattedText.Directive.Basic

/-!
# The grammar of directives

After its percent sign a directive has flags, a width, a precision after a
point, a length modifier, and one byte that is the conversion. Each part is
taken as long as possible; all but the conversion may be missing.
`Directive.parse` reads one directive from the bytes after the percent sign and
gives the bytes that follow it.
-/

namespace FormattedText

/-- Why no directive could be read. -/
inductive DirectiveError where
  /-- The format ends before the conversion. -/
  | truncated
  /-- A width or a precision is greater than any that can be met. -/
  | tooLarge
  deriving DecidableEq, Repr

/-- The flag that a byte sets. -/
def Flag.ofByte? (b : UInt8) : Option Flag := Flag.all.find? (·.byte == b)

/-- Is the byte a decimal digit? -/
def isDigitByte (b : UInt8) : Bool := asciiByte '0' ≤ b && b ≤ asciiByte '9'

/-- The number that decimal digits write. -/
def decimalValue (digits : List UInt8) : Nat :=
  digits.foldl (fun value d => value * 10 + (d.toNat - (asciiByte '0').toNat)) 0

/-- The length modifiers and their spellings; where one spelling begins another, the
longer one comes first. -/
def Length.spellings : List (List UInt8 × Length) :=
  [([asciiByte 'h', asciiByte 'h'], char), ([asciiByte 'h'], short),
   ([asciiByte 'l', asciiByte 'l'], longLong), ([asciiByte 'l'], long),
   ([asciiByte 'q'], longLong), ([asciiByte 'j'], intMax), ([asciiByte 'z'], size),
   ([asciiByte 't'], difference), ([asciiByte 'L'], longDouble)]

/-- The byte of a width or a precision that an argument gives. -/
def starByte : UInt8 := asciiByte '*'

/-- The byte before a precision. -/
def pointByte : UInt8 := asciiByte '.'

namespace Directive

/-- Takes the flags, on top of those that are set already. -/
def takeFlags (flags : Flags) : List UInt8 → Flags × List UInt8
  | [] => (flags, [])
  | b :: rest =>
      match Flag.ofByte? b with
      | some flag => takeFlags (flags.set flag) rest
      | none => (flags, b :: rest)

/-- Takes a run of digits, which may be empty and then writes zero. -/
def takeNumber (s : List UInt8) : Except DirectiveError (Nat × List UInt8) :=
  let n := decimalValue (s.takeWhile isDigitByte)
  if maxMeasure < n then .error .tooLarge else .ok (n, s.dropWhile isDigitByte)

/-- Takes a star or a number. -/
def takeMeasure : List UInt8 → Except DirectiveError (Measure × List UInt8)
  | [] => (takeNumber []).map fun (n, rest) => (.fixed n, rest)
  | b :: rest =>
      if b = starByte then .ok (.fromArgument, rest)
      else (takeNumber (b :: rest)).map fun (n, rest) => (.fixed n, rest)

/-- Takes the width, if the next byte begins one. -/
def takeWidth : List UInt8 → Except DirectiveError (Measure × List UInt8)
  | [] => .ok (.absent, [])
  | b :: rest =>
      if b = starByte ∨ isDigitByte b then takeMeasure (b :: rest) else .ok (.absent, b :: rest)

/-- Takes the precision, if the next byte is a point. -/
def takePrecision : List UInt8 → Except DirectiveError (Measure × List UInt8)
  | [] => .ok (.absent, [])
  | b :: rest => if b = pointByte then takeMeasure rest else .ok (.absent, b :: rest)

/-- Takes the length modifier, if one is spelled next. -/
def takeLength (s : List UInt8) : Length × List UInt8 :=
  match Length.spellings.find? fun p => p.1.isPrefixOf s with
  | some (spelling, length) => (length, s.drop spelling.length)
  | none => (.plain, s)

/-- Takes the byte of the conversion. -/
def takeConversion : List UInt8 → Except DirectiveError (UInt8 × List UInt8)
  | [] => .error .truncated
  | b :: rest => .ok (b, rest)

/-- Reads a directive from the bytes after its percent sign. -/
def parse (s : List UInt8) : Except DirectiveError (Directive × List UInt8) := do
  let (flags, s) := takeFlags .none s
  let (width, s) ← takeWidth s
  let (precision, s) ← takePrecision s
  let (length, s) := takeLength s
  let (conversion, s) ← takeConversion s
  return (⟨flags, width, precision, length, conversion⟩, s)

theorem length_takeFlags_le (flags : Flags) (s : List UInt8) :
    (takeFlags flags s).2.length ≤ s.length := by
  induction s generalizing flags with
  | nil => exact Nat.le_refl _
  | cons b rest ih =>
      unfold takeFlags
      split
      · exact Nat.le_succ_of_le (ih _)
      · exact Nat.le_refl _

theorem length_takeNumber_le {s rest : List UInt8} {n : Nat}
    (h : takeNumber s = .ok (n, rest)) : rest.length ≤ s.length := by
  simp only [takeNumber] at h
  split at h
  · cases h
  · cases h
    exact (List.dropWhile_sublist _).length_le

theorem length_takeMeasure_le {s rest : List UInt8} {m : Measure}
    (h : takeMeasure s = .ok (m, rest)) : rest.length ≤ s.length := by
  have number {s : List UInt8} (h : (takeNumber s).map (fun (n, rest) => (Measure.fixed n, rest)) =
      .ok (m, rest)) : rest.length ≤ s.length := by
    cases hn : takeNumber s with
    | error e => simp [hn, Except.map] at h
    | ok p =>
        obtain ⟨n, r⟩ := p
        simp only [hn, Except.map, Except.ok.injEq, Prod.mk.injEq] at h
        exact h.2 ▸ length_takeNumber_le hn
  unfold takeMeasure at h
  split at h
  · exact number h
  · split at h
    · cases h
      exact Nat.le_succ _
    · exact number h

theorem length_takeWidth_le {s rest : List UInt8} {m : Measure}
    (h : takeWidth s = .ok (m, rest)) : rest.length ≤ s.length := by
  unfold takeWidth at h
  split at h
  · cases h
    exact Nat.le_refl _
  · split at h
    · exact length_takeMeasure_le h
    · cases h
      exact Nat.le_refl _

theorem length_takePrecision_le {s rest : List UInt8} {m : Measure}
    (h : takePrecision s = .ok (m, rest)) : rest.length ≤ s.length := by
  unfold takePrecision at h
  split at h
  · cases h
    exact Nat.le_refl _
  · split at h
    · exact Nat.le_succ_of_le (length_takeMeasure_le h)
    · cases h
      exact Nat.le_refl _

theorem length_takeLength_le (s : List UInt8) : (takeLength s).2.length ≤ s.length := by
  unfold takeLength
  split <;> simp only [List.length_drop] <;> omega

/-- A directive takes at least the byte of its conversion. -/
theorem length_lt_of_parse {s rest : List UInt8} {d : Directive}
    (h : parse s = .ok (d, rest)) : rest.length < s.length := by
  have hf := length_takeFlags_le .none s
  simp only [parse, bind, Except.bind] at h
  generalize takeFlags .none s = f at h hf
  obtain ⟨flags, s₁⟩ := f
  cases hw : takeWidth s₁ with
  | error e => simp [hw] at h
  | ok w =>
    obtain ⟨width, s₂⟩ := w
    have hw' := length_takeWidth_le hw
    simp only [hw] at h
    cases hp : takePrecision s₂ with
    | error e => simp [hp] at h
    | ok p =>
      obtain ⟨precision, s₃⟩ := p
      have hp' := length_takePrecision_le hp
      have hl := length_takeLength_le s₃
      simp only [hp] at h
      generalize takeLength s₃ = l at h hl
      obtain ⟨length, s₄⟩ := l
      cases s₄ with
      | nil => simp [takeConversion] at h
      | cons b r =>
        simp only [takeConversion, pure, Except.pure, Except.ok.injEq, Prod.mk.injEq] at h
        simp only [List.length_cons] at hf hw' hp' hl
        rw [← h.2]
        omega

end Directive

end FormattedText
