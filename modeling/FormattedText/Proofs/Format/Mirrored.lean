import FormattedText.Proofs.Format.Letters
import FormattedText.Proofs.Format.Reached

/-!
# The same arguments at other places

Arguments mirror others if the next ones are the same and stand at other places
(`Arguments.Mirrors`). A directive reads both alike: it comes to the same values, or fails alike
but for the number of the argument (`ReadsAlike`). The writer without floating-point conversions
passes the letter of such a conversion through; the other writer does the same with a character
directive and the letter behind the arguments of the stars
(`Directive.expandResolved_lowered`). So a segment and the lowered one are rendered alike
(`Rendering.ofSegment_lowered`).
-/

namespace FormattedText

/-- The next `n` arguments are the same as other ones, with the letters behind them, and `index`
says where each of them stands there. -/
structure Arguments.Mirrors (index : Nat → Nat) (n : Nat) (letters : List Argument)
    (args args' : Arguments) : Prop where
  /-- The arguments are the same, if there are as many. -/
  same : args'.rest.take n = args.rest.take n
  /-- The letters follow. -/
  letters : n ≤ args.rest.length → letters <+: args'.rest.drop n
  /-- The places are known, also of arguments that are missing. -/
  index : ∀ i < n, index (args.position + i) = args'.position + i

/-- Two readings of arguments go alike: both fail alike but for the numbers, or `f` leads from
what the first has read to what the second has, and the arguments that are left are related. -/
inductive ReadsAlike (index offset : Nat → Nat) {α β : Type} (f : α → β)
    (left : Arguments → Arguments → Prop) :
    Except Failure (α × Arguments) → Except Failure (β × Arguments) → Prop
  /-- Both fail. -/
  | failed (e : Failure) :
      ReadsAlike index offset f left (.error e) (.error (e.renumbered index offset))
  /-- Both come to a value. -/
  | read (v : α) {args args' : Arguments} (h : left args args') :
      ReadsAlike index offset f left (.ok (v, args)) (.ok (f v, args'))

namespace ReadsAlike

variable {index offset : Nat → Nat} {α β γ δ : Type} {f : α → β} {g : γ → δ}
  {left left' : Arguments → Arguments → Prop} {x : Except Failure (α × Arguments)}
  {x' : Except Failure (β × Arguments)}

/-- One reading after another goes alike if both do. -/
theorem bind {k : α × Arguments → Except Failure (γ × Arguments)}
    {k' : β × Arguments → Except Failure (δ × Arguments)} (h : ReadsAlike index offset f left x x')
    (hk : ∀ v args args', x = .ok (v, args) → left args args' →
      ReadsAlike index offset g left' (k (v, args)) (k' (f v, args'))) :
    ReadsAlike index offset g left' (x >>= k) (x' >>= k') := by
  cases h with
  | failed e => exact .failed e
  | read v hleft => exact hk v _ _ rfl hleft

/-- What is made of the values goes alike. -/
theorem map {k : α × Arguments → γ × Arguments} {k' : β × Arguments → δ × Arguments}
    (h : ReadsAlike index offset f left x x')
    (hk : ∀ v args args', left args args' → (k' (f v, args')).1 = g (k (v, args)).1 ∧
      left' (k (v, args)).2 (k' (f v, args')).2) :
    ReadsAlike index offset g left' (x.map k) (x'.map k') := by
  cases h with
  | failed e => exact .failed e
  | @read v args args' h =>
    obtain ⟨hvalue, hleft⟩ := hk v args args' h
    have hboth : k' (f v, args') = (g (k (v, args)).1, (k' (f v, args')).2) :=
      Prod.ext hvalue rfl
    rw [Except.map, Except.map, hboth]
    exact .read _ hleft

end ReadsAlike

/-- The next argument is the same on both sides, or missing on both. -/
theorem Arguments.Mirrors.expect {α : Type} {index : Nat → Nat} {n : Nat}
    {letters : List Argument} {args args' : Arguments}
    (h : Mirrors index (n + 1) letters args args') (offset : Nat → Nat)
    (pick : Argument → Option α) :
    ReadsAlike index offset id (Mirrors index n letters) (args.expect pick)
      (args'.expect pick) := by
  obtain ⟨rest, p⟩ := args
  obtain ⟨rest', p'⟩ := args'
  obtain ⟨hsame, hletters, hindex⟩ := h
  have hhere : index p = p' := hindex 0 (Nat.succ_pos n)
  cases rest with
  | nil =>
    obtain rfl : rest' = [] := by simpa using hsame
    rw [Arguments.expect, Arguments.expect]
    simp only [Arguments.take, ← hhere]
    exact .failed (.argumentMismatch p)
  | cons a rest =>
    cases rest' with
    | nil => simp at hsame
    | cons a' rest' =>
      simp only [List.take_succ_cons, List.cons.injEq] at hsame
      obtain ⟨rfl, hsame⟩ := hsame
      simp only [Arguments.expect, Arguments.take]
      cases pick a' with
      | none =>
        simp only [← hhere]
        exact .failed (.argumentMismatch p)
      | some v =>
        refine .read v ⟨hsame, fun hn => hletters (Nat.succ_le_succ hn), fun i hi => ?_⟩
        have hnext := hindex (i + 1) (Nat.succ_lt_succ hi)
        rw [← Nat.add_assoc, ← Nat.add_assoc] at hnext
        rw [Nat.add_right_comm, Nat.add_right_comm p' 1 i]
        exact hnext

/-- A character is read as its byte. -/
theorem Argument.byte?_char (b : UInt8) : (Argument.char b).byte? = some b := by
  have hlt := b.toNat_lt
  have hsame : ((b.toNat : Int) % 2 ^ 8).toNat = b.toNat := by omega
  have hbyte : UInt8.ofInt b.toNat = b := by
    rw [UInt8.ofInt, hsame, UInt8.ofNat_toNat]
  exact congrArg some hbyte

namespace Directive

section Reading

variable {index : Nat → Nat} {n : Nat} {letters : List Argument} {args args' : Arguments}
  {d : Directive} (offset : Nat → Nat)

theorem resolveWidth_lowered
    (h : Arguments.Mirrors index ((if d.width = .fromArgument then 1 else 0) + n) letters args
      args') :
    ReadsAlike index offset lowered (Arguments.Mirrors index n letters) (d.resolveWidth args)
      (d.lowered.resolveWidth args') := by
  rw [resolveWidth, resolveWidth, lowered_width]
  by_cases hstar : d.width = .fromArgument
  · rw [if_pos hstar, Nat.add_comm] at h
    rw [if_pos hstar, if_pos hstar]
    refine (h.expect offset _).bind fun w left left' _ hleft => ?_
    simp only [id, lowered_withWidth]
    cases hw : d.withWidth w with
    | error e =>
      rw [withWidth] at hw
      split at hw
      · cases hw
        exact .failed .overflow
      · cases hw
    | ok d' => exact .read d' hleft
  · rw [if_neg hstar, Nat.zero_add] at h
    rw [if_neg hstar, if_neg hstar]
    exact .read d h

theorem resolvePrecision_lowered
    (h : Arguments.Mirrors index ((if d.precision = .fromArgument then 1 else 0) + n) letters args
      args') :
    ReadsAlike index offset lowered (Arguments.Mirrors index n letters) (d.resolvePrecision args)
      (d.lowered.resolvePrecision args') := by
  rw [resolvePrecision, resolvePrecision, lowered_precision]
  by_cases hstar : d.precision = .fromArgument
  · rw [if_pos hstar, Nat.add_comm] at h
    rw [if_pos hstar, if_pos hstar]
    refine (h.expect offset _).bind fun p left left' _ hleft => ?_
    simp only [id, lowered_withPrecision]
    exact .read _ hleft
  · rw [if_neg hstar, Nat.zero_add] at h
    rw [if_neg hstar, if_neg hstar]
    exact .read d h

/-- A conversion that both writers have reads its argument alike. -/
theorem expand_same (enc : Encoding) (hkind : d.kind .integerOnly = d.kind .full)
    (h : Arguments.Mirrors index (if d.kind .integerOnly = .unknown then 0 else 1) letters args
      args') :
    ReadsAlike index offset (Expansion.renumbered index) (fun _ _ => True)
      (d.expand ⟨.integerOnly, enc⟩ args) (d.expand ⟨.full, enc⟩ args') := by
  rw [hkind] at h
  rw [expand, expand]
  simp only [hkind]
  cases hk : d.kind .full with
  | unknown => exact .read _ trivial
  | count =>
    rw [hk] at h
    have hplace : index args.position = args'.position := h.index 0 Nat.one_pos
    exact (h.expect offset _).map fun _ _ _ _ =>
      ⟨congrArg Expansion.count hplace.symm, trivial⟩
  | _ =>
    rw [hk] at h
    exact (h.expect offset _).map fun _ _ _ _ => ⟨rfl, trivial⟩

/-- A letter that passes through is written as a character is. -/
theorem expand_lowered (enc : Encoding)
    (h : Arguments.Mirrors index (if d.kind .integerOnly = .unknown then 0 else 1) d.letters args
      args') :
    ReadsAlike index offset (Expansion.renumbered index) (fun _ _ => True)
      (d.expand ⟨.integerOnly, enc⟩ args) (d.lowered.expand ⟨.full, enc⟩ args') := by
  cases hfloating : d.isFloating with
  | false =>
    rw [lowered_of_not_isFloating hfloating]
    exact expand_same offset enc (kind_integerOnly_of_not_isFloating hfloating) h
  | true =>
    have hkind := kind_integerOnly_of_isFloating hfloating
    have hletters : d.letters = [.char d.conversion] := if_pos hfloating
    rw [hkind, hletters] at h
    obtain ⟨later, hrest⟩ := h.letters (Nat.zero_le _)
    obtain ⟨rest', p'⟩ := args'
    obtain rfl : .char d.conversion :: later = rest' := hrest
    have hcharacter : d.asCharacter.kind .full = .char := rfl
    have htaken : (⟨.char d.conversion :: later, p'⟩ : Arguments).expect Argument.byte? =
        .ok (d.conversion, ⟨later, p' + 1⟩) := by
      simp only [Arguments.expect, Arguments.take, Argument.byte?_char]
    rw [lowered_of_isFloating hfloating, expand, expand]
    simp only [hkind, hcharacter, htaken]
    exact .read _ trivial

/-- A directive and the lowered one read alike, where the same arguments and then the letter
stand. -/
theorem expandResolved_lowered (enc : Encoding)
    (h : Arguments.Mirrors index (d.argumentCount .integerOnly) d.letters args args') :
    ReadsAlike index offset (Expansion.renumbered index) (fun _ _ => True)
      (d.expandResolved ⟨.integerOnly, enc⟩ args)
      (d.lowered.expandResolved ⟨.full, enc⟩ args') := by
  rw [argumentCount, Nat.add_assoc] at h
  rw [expandResolved, expandResolved]
  refine (resolveWidth_lowered offset h).bind fun d₁ left₁ left₁' hwidth h₁ => ?_
  obtain ⟨⟨hprecision, hsame₁⟩, _⟩ := resolveWidth_skip hwidth
  rw [← hprecision] at h₁
  refine (resolvePrecision_lowered offset h₁).bind fun d₂ left₂ left₂' hprecise h₂ => ?_
  obtain ⟨hsame₂, _⟩ := resolvePrecision_skip hprecise
  have hsame := And.intro (hsame₂.1.trans hsame₁.1) (hsame₂.2.trans hsame₁.2)
  have hletters : d₂.letters = d.letters := by
    rw [letters, letters, isFloating, isFloating, hsame.2]
  rw [← kind_congr _ hsame, ← hletters] at h₂
  exact expand_lowered offset enc h₂

/-- The letter of a floating-point conversion passes through: the arguments of the stars are taken,
and no other. -/
theorem expandResolved_of_isFloating (enc : Encoding) (h : d.isFloating = true)
    (args : Arguments) :
    d.expandResolved ⟨.integerOnly, enc⟩ args =
      (d.resolve args).map fun p => (.field (Field.char p.1 d.conversion), p.2) := by
  rw [expandResolved_eq]
  cases hresolve : d.resolve args with
  | error e => rfl
  | ok p =>
    obtain ⟨d', left⟩ := p
    have hsame := resolve_ok hresolve
    have hkind : d'.kind .integerOnly = .unknown := by
      rw [kind_congr _ hsame]
      exact kind_integerOnly_of_isFloating h
    simp only [bind, Except.bind, expand, hkind, hsame.2, Except.map]

/-- No letter that passes through stores a count. -/
theorem lowered_of_count {enc : Encoding} {i : Nat} {left : Arguments}
    (h : d.expandResolved ⟨.integerOnly, enc⟩ args = .ok (.count i, left)) : d.lowered = d := by
  refine lowered_of_not_isFloating (Bool.eq_false_iff.mpr fun hfloating => ?_)
  rw [expandResolved_of_isFloating enc hfloating] at h
  cases hresolve : d.resolve args with
  | error e =>
    rw [hresolve] at h
    cases h
  | ok p =>
    rw [hresolve] at h
    cases h

end Reading

end Directive

namespace Rendering

section Segments

variable {index : Nat → Nat} (offset : Nat → Nat) {args args' : Arguments}

/-- A segment and the lowered one are rendered alike, where the same arguments and then the letter
stand. -/
theorem ofSegment_lowered (enc : Encoding) (total : Nat) {segment : Segment}
    (h : Arguments.Mirrors index (segment.argumentCount .integerOnly) segment.letters args args') :
    (ofSegment ⟨.full, enc⟩ total args' segment.lowered).1 =
      (ofSegment ⟨.integerOnly, enc⟩ total args segment).1.renumbered index offset := by
  cases segment with
  | literal | percent =>
    exact (renumbered_ofField index offset total (Field.isPlaceless_complete _)).symm
  | directive d =>
    have halike := d.expandResolved_lowered offset enc h
    rw [Segment.lowered, ofSegment, ofSegment]
    generalize hx' : d.lowered.expandResolved ⟨.full, enc⟩ args' = x' at halike
    generalize hx : d.expandResolved ⟨.integerOnly, enc⟩ args = x at halike
    cases halike with
    | failed e => rfl
    | read expansion =>
      cases expansion with
      | field f =>
        exact (renumbered_ofField index offset total (Directive.isPlaceless_expandResolved hx)).symm
      | count i =>
        rw [Directive.lowered_of_count hx]
        rfl

end Segments

end Rendering

end FormattedText
