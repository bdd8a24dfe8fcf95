import FormattedText.Proofs.Field.Padding
import FormattedText.Proofs.Format.WideCharacter

/-!
# A width is padding

A directive with a width takes the same arguments as the same directive without one, fails where
that one fails, and otherwise writes its text with padding (`Directive.expandResolved_widened`).
So a print of it gives the output of the other print with padding, which is as long as the width
or as the output, whichever is longer (`printToMemory_widened`).
-/

namespace FormattedText

namespace Directive

/-- Does the conversion of an argument pad with zeros behind the lead of the number? -/
def zeroPads (writer : Writer) (d : Directive) (arg : Option Argument) : Bool :=
  d.flags.zeroPad &&
    match d.kind writer with
    | .signed | .unsigned | .pointer => d.precision?.isNone
    | .floating => (arg.bind Argument.float?).any (·.isFinite)
    | _ => false

/-- The padding of the conversion of an argument. -/
def padding (writer : Writer) (d : Directive) (arg : Option Argument) : Padding :=
  .ofLayout d.flags (d.zeroPads writer arg)

/-- The padding of a directive that takes its precision and its argument from those of a call. -/
def resolvedPadding (writer : Writer) (d : Directive) (args : Arguments) : Padding :=
  match d.resolve args with
  | .ok (d', left) => d'.padding writer left.rest.head?
  | .error _ => .before

/-- What two directives give that differ in their width: the same failure, or a field and this field
brought to the width, with the same arguments left. -/
inductive Widens (padding : Padding) (w : Nat) : Except Failure (Expansion × Arguments) →
    Except Failure (Expansion × Arguments) → Prop
  /-- Both fail alike. -/
  | failed (e : Failure) : Widens padding w (.error e) (.error e)
  /-- Both write a field. -/
  | field {f g : Field} {left : Arguments} (h : Field.Widened padding w f g) :
      Widens padding w (.ok (.field f, left)) (.ok (.field g, left))

section Expanding

variable {options : FormatOptions} {d : Directive} {args : Arguments} {padding : Padding} {w : Nat}

/-- Two fields of the same argument are related if they are for each value of it. -/
theorem widens_expect {α : Type} {pick : Argument → Option α} {F G : α → Field}
    (h : ∀ a v, args.rest.head? = some a → pick a = some v → Field.Widened padding w (F v) (G v)) :
    Widens padding w ((args.expect pick).map fun (v, args') => (Expansion.field (F v), args'))
      ((args.expect pick).map fun (v, args') => (Expansion.field (G v), args')) := by
  obtain ⟨rest, position⟩ := args
  cases rest with
  | nil => exact .failed _
  | cons a rest =>
    cases hv : pick a with
    | none =>
      simp only [Arguments.expect, Arguments.take, hv]
      exact .failed _
    | some v =>
      simp only [Arguments.expect, Arguments.take, hv]
      exact .field (h a v rfl hv)

/-- A directive with a width gives what it gives without one, brought to the width. -/
theorem expand_widened (hd : d.minWidth = 0) (hcount : d.kind options.writer ≠ .count) (w : Nat)
    (args : Arguments) :
    Widens (d.padding options.writer args.rest.head?) w (d.expand options args)
      ((d.widened w).expand options args) := by
  have hkind : (d.widened w).kind options.writer = d.kind options.writer := rfl
  rw [expand, expand, hkind, padding, zeroPads]
  cases hk : d.kind options.writer with
  | signed => exact widens_expect fun a v _ _ => Field.widened_signed hd w v
  | unsigned => exact widens_expect fun a v _ _ => Field.widened_unsigned hd w v
  | pointer => exact widens_expect fun a v _ _ => Field.widened_pointer hd w v
  | char =>
    rw [Bool.and_false]
    exact widens_expect fun a v _ _ => Field.widened_text hd w [v]
  | wideChar =>
    rw [Bool.and_false]
    exact widens_expect fun a v _ _ => Field.widened_wideChar hd w v
  | text =>
    rw [Bool.and_false]
    exact widens_expect fun a (t : Option (List UInt8)) _ _ =>
      Field.widened_string hd w (t.getD Field.nullText)
  | wideText =>
    rw [Bool.and_false]
    change Widens _ _ (Except.map _ (args.expect Argument.wideText?))
      (Except.map _ (args.expect Argument.wideText?))
    cases args.expect Argument.wideText? with
    | error e => exact .failed e
    | ok p =>
      obtain ⟨t, left⟩ := p
      cases t with
      | none => exact .field (Field.widened_string hd w Field.nullText)
      | some wide => exact .field (Field.widened_wideText hd w wide)
  | floating =>
    refine widens_expect fun a v ha hv => ?_
    simp only [ha, Option.bind_some, hv, Option.any_some]
    cases hfinite : v.isFinite with
    | true =>
      rw [Bool.and_true]
      exact Field.widened_finite hd w hfinite
    | false =>
      rw [Bool.and_false]
      exact Field.widened_not_finite hd w hfinite
  | unknown =>
    rw [Bool.and_false]
    exact .field (Field.widened_text hd w [d.conversion])
  | count => exact absurd hk hcount

/-- A width that the directive gives does not change what it takes from the arguments. -/
theorem resolve_widened (hd : d.width = .absent) (w : Nat) (args : Arguments) :
    (d.widened w).resolve args = (d.resolve args).map fun p => (p.1.widened w, p.2) := by
  have hplain : d.resolveWidth args = .ok (d, args) := if_neg (by rw [hd]; exact nofun)
  have hwide : (d.widened w).resolveWidth args = .ok (d.widened w, args) := if_neg nofun
  rw [resolve, resolve, hplain, hwide]
  change (d.widened w).resolvePrecision args = (d.resolvePrecision args).map _
  have hprecision : (d.widened w).precision = d.precision := rfl
  rw [resolvePrecision, resolvePrecision, hprecision]
  split
  · cases args.expect (Argument.signed? .plain) with
    | error e => rfl
    | ok p => rfl
  · rfl

/-- A directive without a width keeps none. -/
theorem minWidth_of_resolve {d' : Directive} {left : Arguments} (hd : d.width = .absent)
    (h : d.resolve args = .ok (d', left)) : d'.minWidth = 0 := by
  have hplain : d.resolveWidth args = .ok (d, args) := if_neg (by rw [hd]; exact nofun)
  rw [resolve, hplain] at h
  change d.resolvePrecision args = _ at h
  have hwidth : d'.width = .absent := by
    rw [resolvePrecision] at h
    split at h
    · obtain ⟨p, _, hp⟩ := exists_of_bind_eq_ok h
      cases hp
      exact hd
    · cases h
      exact hd
  rw [minWidth, hwidth]
  rfl

/-- A directive with a width gives what it gives without one, brought to the width, whatever it
takes from the arguments. -/
theorem expandResolved_widened (hd : d.width = .absent) (hcount : d.kind options.writer ≠ .count)
    (w : Nat) (args : Arguments) :
    Widens (d.resolvedPadding options.writer args) w (d.expandResolved options args)
      ((d.widened w).expandResolved options args) := by
  have hwide := resolve_widened hd w args
  rw [expandResolved_eq, expandResolved_eq, hwide, resolvedPadding]
  cases hresolve : d.resolve args with
  | error e => exact .failed e
  | ok p =>
    obtain ⟨d', left⟩ := p
    have hkind : d'.kind options.writer = d.kind options.writer := by
      obtain ⟨hlength, hconversion⟩ := resolve_ok hresolve
      exact kind_congr _ ⟨hlength, hconversion⟩
    exact expand_widened (minWidth_of_resolve hd hresolve) (by rw [hkind]; exact hcount) w left

end Expanding

/-- Only `n` stores a count. -/
theorem kind_ne_count {writer : Writer} {d : Directive} (h : d.conversion ≠ asciiByte 'n') :
    d.kind writer ≠ .count := by
  have hletter : (['n'].map asciiByte).contains d.conversion = false := by
    rw [List.contains_eq_mem, decide_eq_false_iff_not]
    exact fun hmem => h (List.mem_singleton.mp hmem)
  rw [kind]
  simp only [hletter, Bool.false_eq_true, ite_false]
  repeat' split
  all_goals decide

end Directive

section Printing

variable {options : FormatOptions} {s : List UInt8} {d : Directive} {args : List Argument}
  {w n : Nat} {f g : Field} {padding : Padding} {left : Arguments}

/-- The rendering of a format of one directive that fails. -/
theorem Rendering.ofFormat_error {e : Failure} (hzero : 0 ∉ s)
    (hparse : Directive.parse s = .ok (d, [])) (hpercent : d.conversion ≠ percentByte)
    (h : d.expandResolved options (.start args) = .error e) :
    ofFormat options (percentByte :: s) args = ⟨[], .error e⟩ := by
  rw [ofFormat_segment hzero hparse (Directive.ofDirective_of_ne hpercent), ofSegment, h]

/-- The rendering of a format of one directive that writes a field. -/
theorem Rendering.ofFormat_written (hzero : 0 ∉ s)
    (hparse : Directive.parse s = .ok (d, [])) (hpercent : d.conversion ≠ percentByte)
    (h : d.expandResolved options (.start args) = .ok (.field f, left)) :
    ofFormat options (percentByte :: s) args = ofField 0 f := by
  rw [ofFormat_segment hzero hparse (Directive.ofDirective_of_ne hpercent), ofSegment, h]

/-- What is rendered of a field: all of it, all of it up to its failure, or as much as can be
reported. -/
theorem Rendering.ofField_cases (f : Field) :
    (f.failure = none ∧ f.bytes.length ≤ Directive.maxMeasure ∧ (ofField 0 f).bytes = f.bytes ∧
        (ofField 0 f).result = .ok f.bytes.length) ∨
      (∃ e, f.failure = some e ∧ f.bytes.length ≤ Directive.maxMeasure ∧
        (ofField 0 f).result = .error e) ∨
      (Directive.maxMeasure < f.bytes.length ∧ (ofField 0 f).result = .error .overflow) := by
  by_cases hfits : f.bytes.length ≤ Directive.maxMeasure
  · have hsum : 0 + f.bytes.length ≤ Directive.maxMeasure := by rwa [Nat.zero_add]
    cases hf : f.failure with
    | none =>
      obtain ⟨hbytes, hresult⟩ := ofField_all hf hsum
      rw [Nat.zero_add] at hresult
      exact Or.inl ⟨rfl, hfits, hbytes, hresult⟩
    | some e => exact Or.inr (Or.inl ⟨e, rfl, hfits, (ofField_failed hf hsum).2⟩)
  · have hlong : Directive.maxMeasure < 0 + f.bytes.length := by omega
    exact Or.inr (Or.inr ⟨by omega, ofField_tooLong (Nat.zero_le _) hlong⟩)

/-- A field that is written to its end is also written to its end with a width. -/
theorem Field.Widened.ofField_ok (h : Widened padding w f g) (hw : w ≤ Directive.maxMeasure)
    (hn : (Rendering.ofField 0 f).result = .ok n) :
    (Rendering.ofField 0 f).bytes.length = n ∧
      (Rendering.ofField 0 g).result = .ok (max w n) ∧
      (Rendering.ofField 0 g).bytes = padding.apply (w - n) (Rendering.ofField 0 f).bytes := by
  rcases Rendering.ofField_cases f with ⟨hnone, hfits, hbytes, hresult⟩ | ⟨e, _, _, hresult⟩ |
    ⟨_, hresult⟩
  · rw [hresult] at hn
    cases hn
    have hg := h.padded hnone
    have hlength : g.bytes.length = max w f.bytes.length := by
      rw [hg, Padding.length_apply, Nat.sub_add_eq_max]
    have hsum : 0 + g.bytes.length ≤ Directive.maxMeasure := by
      rw [Nat.zero_add, hlength]
      exact Nat.max_le.mpr ⟨hw, hfits⟩
    obtain ⟨hgBytes, hgResult⟩ := Rendering.ofField_all (h.failure.trans hnone) hsum
    rw [hgBytes, hgResult, Nat.zero_add, hlength, hbytes]
    exact ⟨rfl, rfl, hg⟩
  · rw [hresult] at hn
    cases hn
  · rw [hresult] at hn
    cases hn

/-- A field is measured before its length is seen to be too much: it comes to a character without
bytes behind more than can be reported, and its padding would stand before it. -/
def Field.MeasuredFirst (padding : Padding) (w : Nat) (f : Field) : Prop :=
  padding = .before ∧ 0 < w ∧ f.failure ≠ none ∧ Directive.maxMeasure < f.bytes.length

/-- A field that is measured first fails for its length without a width, and at the character
with one. -/
theorem Field.Widened.ofField_measuredFirst (h : Widened padding w f g)
    (hfirst : f.MeasuredFirst padding w) :
    (Rendering.ofField 0 f).result = .error .overflow ∧
      (Rendering.ofField 0 g).result = .error .invalidSequence := by
  obtain ⟨hpadding, hw, hfails, hlong⟩ := hfirst
  obtain ⟨e, he⟩ := Option.ne_none_iff_exists'.mp hfails
  have hne : f.bytes ≠ [] := List.ne_nil_of_length_pos (Nat.zero_lt_of_lt hlong)
  have hnil := h.refused hfails
  rw [if_pos ⟨hpadding, hw⟩] at hnil
  have hshort : 0 + g.bytes.length ≤ Directive.maxMeasure := by
    rw [hnil]
    exact Nat.zero_le _
  constructor
  · exact Rendering.ofField_tooLong (Nat.zero_le _) (by rwa [Nat.zero_add])
  · rw [(Rendering.ofField_failed (h.failure.trans he) hshort).2, h.invalid e he hne]

/-- A field that fails also fails with a width, and for the same reason unless it is measured
first. -/
theorem Field.Widened.ofField_error {e : Failure} (h : Widened padding w f g)
    (he : (Rendering.ofField 0 f).result = .error e) (hfirst : ¬ f.MeasuredFirst padding w) :
    (Rendering.ofField 0 g).result = .error e := by
  rcases Rendering.ofField_cases f with ⟨_, _, _, hresult⟩ | ⟨e₁, hsome, hfits, hresult⟩ |
    ⟨hlong, hresult⟩
  · rw [hresult] at he
    cases he
  · rw [hresult] at he
    cases he
    have hshort : 0 + g.bytes.length ≤ Directive.maxMeasure := by
      rw [Nat.zero_add, h.refused (by rw [hsome]; exact nofun)]
      split
      · exact Nat.zero_le _
      · exact hfits
    exact (Rendering.ofField_failed (h.failure.trans hsome) hshort).2
  · rw [hresult] at he
    cases he
    refine Rendering.ofField_tooLong (Nat.zero_le _) ?_
    cases hf : f.failure with
    | none =>
      -- with padding the field is no shorter
      have hg := congrArg List.length (h.padded hf)
      rw [Padding.length_apply] at hg
      omega
    | some e₁ =>
      have hfails : f.failure ≠ none := by
        rw [hf]
        exact nofun
      have hsame := h.refused hfails
      rw [if_neg fun hbefore => hfirst ⟨hbefore.1, hbefore.2, hfails, hlong⟩] at hsame
      rwa [Nat.zero_add, hsame]

/-- A width is padding. Take two directives that differ only in the width of the second, neither for
a percent sign nor for a count. Where the first cannot take or encode its argument, the second fails
alike, and otherwise its field is that of the first brought to the width (`Directive.Widens`). So
where the print of the first succeeds, that of the second does, its length is that of the output or
the width, whichever is greater, and its output is that of the first with the padding: behind it,
between its lead and its digits, or before it. Where the print of the first fails, so does that of
the second, and for the same reason, but for text with a character that has no bytes behind more
bytes than can be reported: without a width it is written and ends at the limit, and with spaces
before it is measured first and not begun (`Field.MeasuredFirst`). -/
theorem printToMemory_widened {plain wide : List UInt8} (hzero : 0 ∉ plain ∧ 0 ∉ wide)
    (hplain : Directive.parse plain = .ok (d, []))
    (hwide : Directive.parse wide = .ok (d.widened w, [])) (habsent : d.width = .absent)
    (hpercent : d.conversion ≠ percentByte) (hcount : d.conversion ≠ asciiByte 'n')
    (args : List Argument) :
    let first := printToMemory options (percentByte :: plain) args
    let second := printToMemory options (percentByte :: wide) args
    let padding := d.resolvedPadding options.writer (.start args)
    let field := d.expandResolved options (.start args)
    Directive.Widens padding w field ((d.widened w).expandResolved options (.start args)) ∧
      (∀ n, first.result = .ok n → first.sink.content.length = n ∧
        second.Gives (.ok (max w n)) (padding.apply (w - n) first.sink.content)) ∧
      (∀ e, first.result = .error e →
        (∀ f left, field = .ok (.field f, left) → ¬ f.MeasuredFirst padding w) →
          second.result = .error e) ∧
      ∀ f left, field = .ok (.field f, left) → f.MeasuredFirst padding w →
        first.result = .error .overflow ∧ second.result = .error .invalidSequence := by
  intro first second padding field
  have hwidens : Directive.Widens padding w field
      ((d.widened w).expandResolved options (.start args)) :=
    Directive.expandResolved_widened habsent (Directive.kind_ne_count hcount) w (.start args)
  refine ⟨hwidens, ?_⟩
  have hwidth : w ≤ Directive.maxMeasure := Directive.minWidth_le_of_parse hwide
  have hfield : d.expandResolved options (.start args) = field := rfl
  clear_value field
  cases hwideField : (d.widened w).expandResolved options (.start args) with
  | error e =>
    rw [hwideField] at hwidens
    cases hwidens
    have hfirst := printToMemory_gives (Rendering.ofFormat_error hzero.1 hplain hpercent hfield)
    have hsecond := printToMemory_gives
      (Rendering.ofFormat_error hzero.2 hwide hpercent hwideField)
    refine ⟨fun n hn => ?_, fun e' he' _ => ?_, fun f left hf => ?_⟩
    · cases hfirst.1.symm.trans hn
    · cases hfirst.1.symm.trans he'
      exact hsecond.1
    · cases hf
  | ok p =>
    rw [hwideField] at hwidens
    cases hwidens with
    | field h =>
      have hfirst := printToMemory_gives
        (Rendering.ofFormat_written hzero.1 hplain hpercent hfield)
      have hsecond := printToMemory_gives
        (Rendering.ofFormat_written hzero.2 hwide hpercent hwideField)
      refine ⟨fun n hn => ?_, fun e he hmeasured => ?_, fun f left hf hmeasured => ?_⟩
      · obtain ⟨hlength, hresult, hbytes⟩ := h.ofField_ok hwidth (hfirst.1.symm.trans hn)
        rw [hresult, hbytes] at hsecond
        rw [← hfirst.2] at hlength hsecond
        exact ⟨hlength, hsecond⟩
      · exact hsecond.1.trans (h.ofField_error (hfirst.1.symm.trans he) (hmeasured _ _ rfl))
      · cases hf
        obtain ⟨hlong, hrefused⟩ := h.ofField_measuredFirst hmeasured
        exact ⟨hfirst.1.trans hlong, hsecond.1.trans hrefused⟩

/-- The zeros that the flag `0` asks for stand behind the `0x` of `%#0x`: ten columns of `0xff` are
`0x000000ff`. -/
theorem printToMemory_widened_zeros :
    let options : FormatOptions := ⟨.full, .utf8⟩
    let first := printToMemory options [0x25, 0x23, 0x30, 0x78] [.uint 255]
    let second := printToMemory options [0x25, 0x23, 0x30, 0x31, 0x30, 0x78] [.uint 255]
    first.Gives (.ok 4) [0x30, 0x78, 0x66, 0x66] ∧
      second.Gives (.ok 10) [0x30, 0x78, 0x30, 0x30, 0x30, 0x30, 0x30, 0x30, 0x66, 0x66] := by
  intro options first second
  let d : Directive :=
    ⟨(Flags.none.set .alternate).set .zeroPad, .absent, .absent, .plain, 0x78⟩
  have hplain : Directive.parse [0x23, 0x30, 0x78] = .ok (d, []) :=
    eq_ok_of_toOption (by decide +kernel)
  have hwide : Directive.parse [0x23, 0x30, 0x31, 0x30, 0x78] = .ok (d.widened 10, []) :=
    eq_ok_of_toOption (by decide +kernel)
  have hfirst : first.Gives (.ok 4) [0x30, 0x78, 0x66, 0x66] :=
    ⟨eq_ok_of_toOption (by decide +kernel), by decide +kernel⟩
  obtain ⟨_, hsecond, _⟩ := @printToMemory_widened options d 10 _ _
    ⟨by decide, by decide⟩ hplain hwide rfl (by decide) (by decide) [.uint 255]
  obtain ⟨_, hresult, hbytes⟩ := hsecond 4 hfirst.1
  exact ⟨hfirst, hresult, hbytes.trans (by decide +kernel)⟩

/-- More letters than can be reported fail for their length, but in five columns the surrogate
behind them is found before. And a width that cannot be reported is refused, where without it a
digit is written. -/
theorem printToMemory_widened_measured :
    let options : FormatOptions := ⟨.full, .utf8⟩
    let args : List Argument := [.wideText (some (surrogateBehind (Directive.maxMeasure + 1)))]
    let excess : List UInt8 :=
      [0x25, 0x32, 0x31, 0x34, 0x37, 0x34, 0x38, 0x33, 0x36, 0x34, 0x38, 0x64]
    (printToMemory options [0x25, 0x6C, 0x73] args).result = .error .overflow ∧
      (printToMemory options [0x25, 0x35, 0x6C, 0x73] args).result = .error .invalidSequence ∧
      (printToMemory options [0x25, 0x64] [.int 5]).result = .ok 1 ∧
      (printToMemory options excess [.int 5]).result = .error .overflow := by
  intro options args excess
  let d : Directive := ⟨.none, .absent, .absent, .long, asciiByte 's'⟩
  have hplain : Directive.parse [0x6C, 0x73] = .ok (d, []) := eq_ok_of_toOption (by decide +kernel)
  have hwide : Directive.parse [0x35, 0x6C, 0x73] = .ok (d.widened 5, []) :=
    eq_ok_of_toOption (by decide +kernel)
  have hlong : Directive.maxMeasure < Directive.maxMeasure + 1 := Nat.lt_succ_self _
  have hreaches := Format.reaches_wideText (by decide) hplain nofun nofun options
    (surrogateBehind (Directive.maxMeasure + 1))
  have hreaches' := Format.reaches_wideText (by decide) hwide nofun nofun options
    (surrogateBehind (Directive.maxMeasure + 1))
  exact ⟨hreaches.result_surrogateBehind rfl rfl hlong,
    hreaches'.result_surrogateBehind rfl rfl hlong, by decide +kernel, by decide +kernel⟩

end Printing

end FormattedText
