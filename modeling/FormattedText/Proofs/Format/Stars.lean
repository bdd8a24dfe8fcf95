import FormattedText.Proofs.Format.Reached
import FormattedText.Proofs.Format.Spelling
import FormattedText.Proofs.Format.Taken

/-!
# Stars and the numbers in their place

A star takes the width or the precision from an argument. The number itself can be written in
its place: nothing for the width zero, the flag `-` and the digits for a negative width, no
point for a negative precision (`DirectiveSpelling.written`). If what is written is still read
part by part, as it is before every modifier and every letter
(`DirectiveSpelling.IsApart.written`), the directive does the same with the arguments that are
left (`DirectiveSpelling.expandResolved_stars`). So the whole format prints the same, and says
the same of its arguments and offsets but for their numbers (`printToMemory_stars`).
-/

namespace FormattedText

/-- A width as a number is written in its place: zero is no width. -/
def MeasureSpelling.ofWidth (w : Int) : MeasureSpelling :=
  if w = 0 then .absent else .digits (Digits.text 10 w.natAbs)

/-- A precision as a number is written in its place: a negative one is no precision. -/
def MeasureSpelling.ofPrecision (p : Int) : MeasureSpelling :=
  if p < 0 then .absent else .digits (Digits.text 10 p.toNat)

namespace DirectiveSpelling

/-- The numbers written in the places of the stars. -/
def written (sp : DirectiveSpelling) (w p : Int) : DirectiveSpelling :=
  { sp with
    flags := if sp.width = .star ∧ w < 0 then sp.flags ++ [.leftJustify] else sp.flags
    width := if sp.width = .star then .ofWidth w else sp.width
    precision := if sp.precision = .star then .ofPrecision p else sp.precision }

/-- The arguments that the stars take, of a width and a precision. -/
def stars (sp : DirectiveSpelling) (x y : Argument) : List Argument :=
  (if sp.width = .star then [x] else []) ++ if sp.precision = .star then [y] else []

/-- The directive with the numbers that its stars take. -/
def given (sp : DirectiveSpelling) (w p : Int) : Directive :=
  { sp.directive with
    flags := if sp.width = .star ∧ w < 0 then sp.directive.flags.set .leftJustify
      else sp.directive.flags
    width := if sp.width = .star then .fixed w.natAbs else sp.directive.width
    precision := if sp.precision = .star then (if p < 0 then .absent else .fixed p.toNat)
      else sp.directive.precision }

end DirectiveSpelling

theorem MeasureSpelling.measure_eq_fromArgument_iff {m : MeasureSpelling} :
    m.measure = .fromArgument ↔ m = .star := by
  cases m with
  | star => exact ⟨fun _ => rfl, fun _ => rfl⟩
  | absent | digits =>
    constructor
    · intro h
      cases h
    · intro h
      cases h

/-- The numbers that a star can take. -/
theorem Argument.signed?_plain_bounds {a : Argument} {v : Int}
    (h : a.signed? .plain = some v) :
    -(Directive.maxMeasure + 1 : Int) ≤ v ∧ v ≤ Directive.maxMeasure := by
  obtain ⟨n, _, rfl⟩ := Option.map_eq_some_iff.mp h
  have hmax : (Directive.maxMeasure : Int) = 2147483647 := rfl
  have hbits : Nat.pow 2 Length.plain.bits = 4294967296 := rfl
  have hlow := Int.le_bmod (x := n) (m := 4294967296) (by decide)
  have hhigh := Int.bmod_lt (x := n) (m := 4294967296) (by decide)
  rw [Length.narrowSigned, hbits, hmax]
  omega

namespace Directive

variable {d : Directive} {x y : Argument} {w p : Int}

theorem resolveWidth_star (hd : d.width = .fromArgument) (hx : x.signed? .plain = some w)
    (rest : List Argument) (k : Nat) :
    d.resolveWidth ⟨x :: rest, k⟩ = (d.withWidth w).map fun e => (e, ⟨rest, k + 1⟩) := by
  rw [resolveWidth, if_pos hd]
  simp only [Arguments.expect, Arguments.take, hx, bind, Except.bind]
  cases d.withWidth w <;> rfl

theorem resolvePrecision_star (hd : d.precision = .fromArgument)
    (hy : y.signed? .plain = some p) (rest : List Argument) (k : Nat) :
    d.resolvePrecision ⟨y :: rest, k⟩ = .ok (d.withPrecision p, ⟨rest, k + 1⟩) := by
  rw [resolvePrecision, if_pos hd]
  simp only [Arguments.expect, Arguments.take, hy]
  rfl

/-- The width zero is no width. -/
theorem expand_width_zero (options : FormatOptions) (d : Directive) (args : Arguments) :
    ({ d with width := .fixed 0 } : Directive).expand options args =
      ({ d with width := .absent } : Directive).expand options args := by
  obtain ⟨flags, width, precision, length, conversion⟩ := d
  have hkind : ({ flags, width := .fixed 0, precision, length, conversion } : Directive).kind
      options.writer = ({ flags, width := .absent, precision, length, conversion } :
        Directive).kind options.writer := rfl
  rw [expand, expand, hkind]
  cases ({ flags, width := .absent, precision, length, conversion } : Directive).kind
    options.writer <;> rfl

end Directive

namespace DirectiveSpelling

variable {sp : DirectiveSpelling} {x y : Argument} {w p : Int}

/-- A star of a precision takes its argument from the front. -/
theorem resolvePrecision_stars (hy : y.signed? .plain = some p) {d : Directive}
    (hd : d.precision = sp.precision.measure) (after : List Argument) (k : Nat) :
    d.resolvePrecision ⟨(if sp.precision = .star then [y] else []) ++ after, k⟩ =
      .ok ({ d with
        precision := if sp.precision = .star then (if p < 0 then .absent else .fixed p.toNat)
          else d.precision }, ⟨after, k + if sp.precision = .star then 1 else 0⟩) := by
  by_cases hstar : sp.precision = .star
  · have hres := Directive.resolvePrecision_star
      (hd.trans (MeasureSpelling.measure_eq_fromArgument_iff.mpr hstar)) hy after k
    simp only [if_pos hstar]
    exact hres
  · have hgiven : d.precision ≠ .fromArgument := by
      rw [hd, Ne, MeasureSpelling.measure_eq_fromArgument_iff]
      exact hstar
    simp only [if_neg hstar]
    exact if_neg hgiven

theorem length_stars (sp : DirectiveSpelling) (x y : Argument) :
    (sp.stars x y).length =
      (if sp.width = .star then 1 else 0) + if sp.precision = .star then 1 else 0 := by
  rw [stars, List.length_append]
  congr 1
  · split <;> rfl
  · split <;> rfl

/-- The stars take their arguments from the front. -/
theorem resolve_stars (hx : x.signed? .plain = some w) (hy : y.signed? .plain = some p)
    (hw : sp.width = .star → w.natAbs ≤ Directive.maxMeasure) (after : List Argument) (k : Nat) :
    sp.directive.resolve ⟨sp.stars x y ++ after, k⟩ =
      .ok (sp.given w p, ⟨after, k + (sp.stars x y).length⟩) := by
  rw [Directive.resolve, length_stars, ← Nat.add_assoc]
  by_cases hstar : sp.width = .star
  · have hd : sp.directive.width = .fromArgument :=
      MeasureSpelling.measure_eq_fromArgument_iff.mpr hstar
    have hwidth : sp.directive.withWidth w = .ok { sp.directive with
        flags := if w < 0 then sp.directive.flags.set .leftJustify else sp.directive.flags
        width := .fixed w.natAbs } := if_neg (Nat.not_lt.mpr (hw hstar))
    rw [stars, if_pos hstar, List.append_assoc, List.singleton_append,
      Directive.resolveWidth_star hd hx, hwidth]
    simp only [Except.map, bind, Except.bind]
    rw [resolvePrecision_stars hy rfl]
    simp only [given, hstar, true_and, if_true]
  · have hd : sp.directive.width ≠ .fromArgument := fun h =>
      hstar (MeasureSpelling.measure_eq_fromArgument_iff.mp h)
    have hwidth (args : Arguments) : sp.directive.resolveWidth args = .ok (sp.directive, args) :=
      if_neg hd
    rw [stars, if_neg hstar, List.nil_append, hwidth]
    simp only [bind, Except.bind]
    rw [resolvePrecision_stars hy rfl]
    simp only [given, hstar, false_and, if_false, Nat.add_zero]

/-- A width that cannot be met fails when the star takes it. -/
theorem expandResolved_tooLong (hx : x.signed? .plain = some w) (hstar : sp.width = .star)
    (hw : Directive.maxMeasure < w.natAbs) (options : FormatOptions) (y : Argument)
    (after : List Argument) (k : Nat) :
    sp.directive.expandResolved options ⟨sp.stars x y ++ after, k⟩ = .error .overflow := by
  have hd : sp.directive.width = .fromArgument :=
    MeasureSpelling.measure_eq_fromArgument_iff.mpr hstar
  have hwidth : sp.directive.withWidth w = .error .overflow := if_pos hw
  rw [Directive.expandResolved, stars, if_pos hstar, List.append_assoc, List.singleton_append,
    Directive.resolveWidth_star hd hx, hwidth]
  rfl

section Written

/-- What is written in the places of the stars gives the same numbers, but for a width of zero. -/
theorem directive_written (sp : DirectiveSpelling) (w p : Int) :
    (sp.written w p).directive = { sp.given w p with
      width := if sp.width = .star ∧ w = 0 then .absent else (sp.given w p).width } := by
  have hflags : (sp.written w p).flags.foldl Flags.set .none = (sp.given w p).flags := by
    simp only [written, given, directive]
    split
    · rw [List.foldl_append]
      rfl
    · rfl
  have hwidth : (sp.written w p).width.measure =
      if sp.width = .star ∧ w = 0 then .absent else (sp.given w p).width := by
    by_cases hstar : sp.width = .star
    · by_cases hzero : w = 0
      · simp only [written, hstar, if_true, hzero, and_self, MeasureSpelling.ofWidth]
        rfl
      · simp only [written, given, hstar, if_true, hzero, and_false, if_false,
          MeasureSpelling.ofWidth, MeasureSpelling.measure, Digits.decimalValue_text]
    · simp only [written, given, directive, hstar, false_and, if_false]
  have hprecision : (sp.written w p).precision.measure = (sp.given w p).precision := by
    by_cases hstar : sp.precision = .star
    · by_cases hneg : p < 0
      · simp only [written, given, hstar, if_true, hneg, MeasureSpelling.ofPrecision]
        rfl
      · simp only [written, given, hstar, if_true, hneg, if_false, MeasureSpelling.ofPrecision,
          MeasureSpelling.measure, Digits.decimalValue_text]
    · simp only [written, given, directive, hstar, if_false]
  rw [directive, hflags, hwidth, hprecision]
  rfl

theorem expand_given (sp : DirectiveSpelling) (w p : Int) (options : FormatOptions)
    (args : Arguments) :
    (sp.given w p).expand options args = (sp.written w p).directive.expand options args := by
  rw [directive_written]
  by_cases hzero : sp.width = .star ∧ w = 0
  · have hgiven : sp.given w p = { sp.given w p with width := .fixed 0 } := by
      simp only [given, hzero.1, hzero.2, if_true]
      rfl
    rw [if_pos hzero, ← Directive.expand_width_zero, ← hgiven]
  · rw [if_neg hzero]

theorem measure_ofWidth_ne (w : Int) : (MeasureSpelling.ofWidth w).measure ≠ .fromArgument := by
  rw [MeasureSpelling.ofWidth]
  split <;> exact fun h => (by cases h)

theorem measure_ofPrecision_ne (p : Int) :
    (MeasureSpelling.ofPrecision p).measure ≠ .fromArgument := by
  rw [MeasureSpelling.ofPrecision]
  split <;> exact fun h => (by cases h)

/-- Nothing is left to the arguments where numbers are written. -/
theorem written_ne_fromArgument (sp : DirectiveSpelling) (w p : Int) :
    (sp.written w p).directive.width ≠ .fromArgument ∧
      (sp.written w p).directive.precision ≠ .fromArgument := by
  constructor
  · simp only [directive, written]
    split
    · exact measure_ofWidth_ne w
    · rename_i hstar
      rw [Ne, MeasureSpelling.measure_eq_fromArgument_iff]
      exact hstar
  · simp only [directive, written]
    split
    · exact measure_ofPrecision_ne p
    · rename_i hstar
      rw [Ne, MeasureSpelling.measure_eq_fromArgument_iff]
      exact hstar

/-- Behind the arguments of its stars a directive does what it does with the numbers written. -/
theorem expandResolved_stars (hx : x.signed? .plain = some w) (hy : y.signed? .plain = some p)
    (hw : sp.width = .star → w.natAbs ≤ Directive.maxMeasure) (options : FormatOptions)
    (after : List Argument) (k : Nat) :
    sp.directive.expandResolved options ⟨sp.stars x y ++ after, k⟩ =
      (sp.written w p).directive.expandResolved options
        ⟨after, k + (sp.stars x y).length⟩ := by
  obtain ⟨hwidth, hprecision⟩ := sp.written_ne_fromArgument w p
  rw [Directive.expandResolved_of_resolve options (resolve_stars hx hy hw after k), expand_given,
    Directive.expandResolved_given hwidth hprecision]

theorem number_ofWidth (w : Int) : (MeasureSpelling.ofWidth w).number = w.natAbs := by
  rw [MeasureSpelling.ofWidth]
  split
  · rename_i hzero
    rw [hzero]
    rfl
  · exact Digits.decimalValue_text _

theorem number_ofPrecision (p : Int) : (MeasureSpelling.ofPrecision p).number = p.toNat := by
  rw [MeasureSpelling.ofPrecision]
  split
  · rename_i hneg
    exact (Int.toNat_of_nonpos (Int.le_of_lt hneg)).symm
  · exact Digits.decimalValue_text _

/-- The numbers that can be met in a directive with stars can be met where others are written in
the places of the stars, but for one width. -/
theorem isMet_written_iff (sp : DirectiveSpelling) (w : Int) (hy : y.signed? .plain = some p) :
    (sp.written w p).IsMet ↔
      sp.IsMet ∧ (sp.width = .star → w.natAbs ≤ Directive.maxMeasure) := by
  have hwidth : (sp.written w p).width.number ≤ Directive.maxMeasure ↔
      sp.width.number ≤ Directive.maxMeasure ∧
        (sp.width = .star → w.natAbs ≤ Directive.maxMeasure) := by
    simp only [written]
    split
    · rename_i hstar
      rw [number_ofWidth, hstar]
      exact ⟨fun h => ⟨Nat.zero_le _, fun _ => h⟩, fun h => h.2 rfl⟩
    · rename_i hstar
      exact ⟨fun h => ⟨h, fun heq => absurd heq hstar⟩, fun h => h.1⟩
  have hprecision : (sp.written w p).precision.number ≤ Directive.maxMeasure ↔
      sp.precision.number ≤ Directive.maxMeasure := by
    simp only [written]
    split
    · rename_i hstar
      have hbounds := Argument.signed?_plain_bounds hy
      rw [number_ofPrecision, hstar]
      exact ⟨fun _ => Nat.zero_le _, fun _ => by omega⟩
    · exact Iff.rfl
  constructor
  · rintro ⟨hw, hp⟩
    exact ⟨⟨(hwidth.mp hw).1, hprecision.mp hp⟩, (hwidth.mp hw).2⟩
  · rintro ⟨⟨hw, hp⟩, hlong⟩
    exact ⟨hwidth.mpr ⟨hw, hlong⟩, hprecision.mpr hp⟩

theorem zero_not_mem_text (n : Nat) : 0 ∉ Digits.text 10 n := by
  intro hmem
  exact absurd (Digits.isDigitByte_text 0 hmem) (by decide)

/-- Numbers do not end the format. -/
theorem zero_not_mem_written (h : 0 ∉ sp.bytes) (w p : Int) : 0 ∉ (sp.written w p).bytes := by
  simp only [bytes, afterFlags, afterWidth, List.mem_append, not_or] at h ⊢
  obtain ⟨_, hwidth, hprecision, htail⟩ := h
  refine ⟨fun hmem => ?_, ?_, ?_, htail⟩
  · obtain ⟨flag, _, hbyte⟩ := List.mem_map.mp hmem
    cases flag <;> exact absurd hbyte (by decide)
  · simp only [written, MeasureSpelling.ofWidth]
    split
    · split
      · exact List.not_mem_nil
      · exact zero_not_mem_text _
    · exact hwidth
  · simp only [written, MeasureSpelling.ofPrecision]
    split
    · split
      · exact List.not_mem_nil
      · exact List.not_mem_cons_of_ne_of_not_mem (by decide) (zero_not_mem_text _)
    · exact hprecision

theorem zero_not_mem_format {f : List UInt8} (h : 0 ∉ f ++ percentByte :: sp.bytes) (w p : Int) :
    0 ∉ f ++ percentByte :: (sp.written w p).bytes := by
  simp only [List.mem_append, List.mem_cons, not_or] at h ⊢
  exact ⟨h.1, h.2.1, zero_not_mem_written h.2.2 w p⟩

/-- A spelled directive is the first segment. -/
theorem IsApart.itemsFrom (h : sp.IsApart) (hmet : sp.IsMet) (hconv : sp.conversion ≠ percentByte)
    (offset : Nat) (g : List UInt8) :
    let stop := offset + 1 + sp.bytes.length
    Format.itemsFrom offset (percentByte :: sp.bytes ++ g) =
      ⟨.ok (.directive sp.directive), stop⟩ :: Format.itemsFrom stop g := by
  intro stop
  have hparse := h.parse_bytes hmet []
  rw [List.append_nil] at hparse
  have hsegment : Segment.ofDirective sp.directive = .directive sp.directive := if_neg hconv
  have hstop : offset + (sp.bytes.length + 1 - ([] : List UInt8).length) = stop := by
    simp only [stop, List.length_nil]
    omega
  rw [Format.itemsFrom_directive_append offset hparse, hsegment, hstop, List.nil_append]

/-- A spelled directive with a number that cannot be met ends the format. -/
theorem IsApart.itemsFrom_tooLarge (h : sp.IsApart) (hmet : ¬ sp.IsMet) (offset : Nat)
    (g : List UInt8) :
    ∃ stop, Format.itemsFrom offset (percentByte :: sp.bytes ++ g) =
      [⟨.error .overflow, stop⟩] := by
  rw [List.cons_append, Format.itemsFrom_unread offset (h.parse_tooLarge hmet g)]
  exact ⟨_, rfl⟩

end Written

end DirectiveSpelling

/-- A failure of a format with numbers in the places of stars, as one of the format with the stars:
from the `k`-th on arguments come `taken` later, and behind the directive the offsets are those of
a directive with `starred` bytes in place of one with `written`. -/
def Failure.restarred (k taken starred written : Nat) : Failure → Failure
  | .argumentMismatch index => .argumentMismatch (if index < k then index else index + taken)
  | .malformedDirective offset => .malformedDirective (offset + starred - written)
  | e => e

/-- The value of a count in the format with the stars. -/
def restarredCount (k taken : Nat) (count : Nat × Int) : Nat × Int :=
  (if count.1 < k then count.1 else count.1 + taken, count.2)

namespace Rendering

/-- The rendering of a format with stars, against that with numbers in their places. -/
structure Restarred (k taken starred written : Nat) (numbers stars : Rendering) : Prop where
  /-- The output is the same. -/
  bytes : stars.bytes = numbers.bytes
  /-- The result is the same, but for the numbers of arguments and offsets. -/
  result : stars.result = numbers.result.mapError (Failure.restarred k taken starred written)
  /-- The counts have the same values. -/
  counts : stars.counts = numbers.counts.map (restarredCount k taken)

variable {options : FormatOptions} {n k taken starred written : Nat}

/-- What comes behind the directive is the same further on in a format, behind more arguments. -/
theorem restarred_ofItems (hn : n ≤ Directive.maxMeasure) (options : FormatOptions)
    (args : Arguments) (items : List FormatItem) (k taken starred written offset : Nat) :
    Restarred k taken starred written
      (ofItems options n (args.shifted k) (items.map (.shifted k (offset + written))))
      (ofItems options n (args.shifted (k + taken))
        (items.map (.shifted (k + taken) (offset + starred)))) := by
  have hfits : 0 + n + (ofItems options n args items).bytes.length ≤ Directive.maxMeasure := by
    rw [Nat.zero_add]
    exact length_ofItems_le hn options args items
  obtain ⟨hbytes, hresult, hstores⟩ := ofItems_add 0 k (offset + written) hfits
  obtain ⟨hbytes', hresult', hstores'⟩ :=
    ofItems_add 0 (k + taken) (offset + starred) hfits
  rw [Nat.zero_add] at hbytes hresult hstores hbytes' hresult' hstores'
  refine ⟨hbytes'.trans hbytes.symm, ?_, ?_⟩
  · rw [hresult, hresult']
    cases (ofItems options n args items).result with
    | ok m => rfl
    | error e =>
      refine congrArg Except.error ?_
      cases e with
      | argumentMismatch index =>
        have hlater : ¬ k + index < k := by omega
        simp only [Failure.shifted, Failure.restarred, if_neg hlater]
        congr 1
        omega
      | malformedDirective place =>
        simp only [Failure.shifted, Failure.restarred]
        congr 1
        omega
      | _ => rfl
  · rw [counts_eq, counts_eq, counts_ofItems, counts_ofItems, hstores, hstores', ← List.map_reverse,
      ← List.map_reverse, List.map_map, List.map_map, ← List.map_reverse, List.map_map]
    refine List.map_congr_left fun c _ => ?_
    have hlater : ¬ k + c.index < k := by omega
    have hindex : k + taken + c.index = k + c.index + taken := by omega
    exact Prod.ext (hindex.trans (if_neg hlater).symm) rfl

/-- What stands before the directive says nothing of what is renumbered. -/
theorem Restarred.of_concerns {r : Rendering} (hr : ∀ e, r.result = .error e → e.Concerns k)
    (hc : ∀ c ∈ r.counts, c.1 < k) : Restarred k taken starred written r r := by
  refine ⟨rfl, ?_, ?_⟩
  · cases hresult : r.result with
    | ok m => rfl
    | error e =>
      have hconcerns := hr e hresult
      cases e with
      | argumentMismatch index =>
        have hsame : (Failure.argumentMismatch index).restarred k taken starred written =
            .argumentMismatch index := by
          have hindex : index < k := hconcerns
          rw [Failure.restarred, if_pos hindex]
        exact congrArg Except.error hsame.symm
      | malformedDirective offset => exact absurd hconcerns id
      | _ => rfl
  · refine (List.map_id _).symm.trans (List.map_congr_left fun c hmem => ?_)
    simp only [id, restarredCount, if_pos (hc c hmem)]

/-- Output before both. -/
theorem Restarred.joins {first second second' whole whole' : Rendering}
    (hfirst : Restarred k taken starred written first first)
    (h : Restarred k taken starred written second second') (hj : Joins first second whole)
    (hj' : Joins first second' whole') : Restarred k taken starred written whole whole' := by
  refine ⟨?_, ?_, ?_⟩
  · rw [hj.bytes, hj'.bytes, h.bytes]
  · rw [hj.result, hj'.result, h.result]
  · rw [hj.counts, hj'.counts, List.map_append, ← h.counts, ← hfirst.counts]

/-- A directive that does the same with other arguments is rendered alike. -/
theorem ofItems_directive_congr {d e : Directive} {args args' : Arguments}
    (hsame : d.expandResolved options args = e.expandResolved options args')
    (hlength : d.length = e.length) (total stop : Nat) (items : List FormatItem) :
    ofItems options total args (⟨.ok (.directive d), stop⟩ :: items) =
      ofItems options total args' (⟨.ok (.directive e), stop⟩ :: items) := by
  cases he : e.expandResolved options args' with
  | error f =>
    rw [he] at hsame
    simp only [ofItems, ofSegment, hsame, he]
  | ok p =>
    obtain ⟨expansion, left⟩ := p
    rw [he] at hsame
    cases expansion with
    | field f => simp only [ofItems, ofSegment, hsame, he]
    | count index => simp only [ofItems, ofSegment, hsame, he, hlength]

section Stars

variable {f g : List UInt8} {segments : List Segment} {sp : DirectiveSpelling} {x y : Argument}
  {w p : Int} {before after : List Argument}

/-- What a format with stars before which something stands has in common with the one that has the
numbers in their places. -/
theorem ofFormat_front (hzero : 0 ∉ f ++ percentByte :: sp.bytes)
    (hf : Format.parse f = .ok segments)
    (hbefore : before.length = Format.argumentCount options.writer segments)
    (left : List Argument) :
    Continues (ofFormat options f before)
      (ofFormat options (f ++ percentByte :: sp.bytes ++ g) (before ++ left)) [] fun n =>
        ofItems options n ⟨left, before.length⟩
          (Format.itemsFrom f.length (percentByte :: sp.bytes ++ Format.text g)) := by
  have hjoin := @ofFormat_percent options (before ++ left) f sp.bytes segments g hzero hf
  have hskip : (Arguments.start (before ++ left)).skip
      (Format.argumentCount options.writer segments) = ⟨left, before.length⟩ := by
    rw [← hbefore, Arguments.skip, Arguments.start, List.drop_left', Nat.zero_add]
    rfl
  rw [ofFormat_followed left hf (Nat.le_of_eq hbefore.symm), hskip] at hjoin
  exact hjoin

/-- The rendering of what stands before the directive names none of the arguments behind. -/
theorem restarred_front (hf : Format.parse f = .ok segments)
    (hbefore : before.length = Format.argumentCount options.writer segments)
    (taken starred written : Nat) :
    Restarred before.length taken starred written (ofFormat options f before)
      (ofFormat options f before) := by
  obtain ⟨hfailure, hstores⟩ :=
    @ofItems_concerns options 0 (.start before) (Format.items f) segments hf
  simp only [Arguments.start, Nat.zero_add, ← hbefore] at hfailure hstores
  refine Restarred.of_concerns hfailure fun c hmem => ?_
  rw [counts_ofFormat, List.mem_reverse] at hmem
  obtain ⟨store, hstore, rfl⟩ := List.mem_map.mp hmem
  exact hstores store hstore

/-- The segments that a directive begins, from an offset on. -/
theorem items_shifted (k offset : Nat) (d : Directive) (s : List UInt8) :
    (⟨.ok (.directive d), 0⟩ :: Format.itemsFrom 0 s).map (.shifted k offset) =
      ⟨.ok (.directive d), offset⟩ :: Format.itemsFrom offset s := by
  rw [List.map_cons, ← Format.itemsFrom_add]
  rfl

/-- The directive and what follows it, with stars and with numbers in their places. -/
theorem restarred_second (hapart : sp.IsApart) (hconv : sp.conversion ≠ percentByte)
    (hwritten : (sp.written w p).IsApart) (hx : x.signed? .plain = some w)
    (hy : y.signed? .plain = some p) (hn : n ≤ Directive.maxMeasure) (after : List Argument)
    (k offset : Nat) (s : List UInt8) :
    Restarred k (sp.stars x y).length sp.bytes.length (sp.written w p).bytes.length
      (ofItems options n ⟨after, k⟩
        (Format.itemsFrom offset (percentByte :: (sp.written w p).bytes ++ s)))
      (ofItems options n ⟨sp.stars x y ++ after, k⟩
        (Format.itemsFrom offset (percentByte :: sp.bytes ++ s))) := by
  have hiff := sp.isMet_written_iff w hy
  by_cases hmet : sp.IsMet
  · rw [hapart.itemsFrom hmet hconv]
    by_cases hw : sp.width = .star → w.natAbs ≤ Directive.maxMeasure
    · rw [hwritten.itemsFrom (hiff.mpr ⟨hmet, hw⟩) hconv, ofItems_directive_congr
        (DirectiveSpelling.expandResolved_stars hx hy hw options after k) rfl]
      have hrenumbered := restarred_ofItems hn options ⟨after, 0⟩
        (⟨.ok (.directive (sp.written w p).directive), 0⟩ :: Format.itemsFrom 0 s) k
        (sp.stars x y).length sp.bytes.length (sp.written w p).bytes.length (offset + 1)
      rw [items_shifted, items_shifted] at hrenumbered
      exact hrenumbered
    · -- the width is read before it is found too large, the digits are not
      rw [Classical.not_imp, Nat.not_le] at hw
      obtain ⟨stop, hitems⟩ := hwritten.itemsFrom_tooLarge
        (fun h => Nat.not_le.mpr hw.2 ((hiff.mp h).2 hw.1)) offset s
      have hsegment : (ofSegment options n ⟨sp.stars x y ++ after, k⟩
          (.directive sp.directive)).1 = ⟨[], .error .overflow⟩ := by
        rw [ofSegment, sp.expandResolved_tooLong hx hw.1 hw.2]
      rw [hitems, ofItems_of_unread rfl, ofItems_of_failed rfl (by rw [hsegment]), hsegment]
      exact ⟨rfl, rfl, rfl⟩
  · obtain ⟨stop, hitems⟩ := hapart.itemsFrom_tooLarge hmet offset s
    obtain ⟨stop', hitems'⟩ :=
      hwritten.itemsFrom_tooLarge (fun h => hmet (hiff.mp h).1) offset s
    rw [hitems, hitems', ofItems_of_unread rfl, ofItems_of_unread rfl]
    exact ⟨rfl, rfl, rfl⟩

/-- A format with stars in a directive is rendered as with the numbers in their places. -/
theorem ofFormat_stars (hzero : 0 ∉ f ++ percentByte :: sp.bytes)
    (hf : Format.parse f = .ok segments)
    (hbefore : before.length = Format.argumentCount options.writer segments)
    (hapart : sp.IsApart) (hconv : sp.conversion ≠ percentByte)
    (hwritten : (sp.written w p).IsApart) (hx : x.signed? .plain = some w)
    (hy : y.signed? .plain = some p) (after : List Argument) (g : List UInt8) :
    Restarred before.length (sp.stars x y).length sp.bytes.length (sp.written w p).bytes.length
      (ofFormat options (f ++ percentByte :: (sp.written w p).bytes ++ g) (before ++ after))
      (ofFormat options (f ++ percentByte :: sp.bytes ++ g)
        (before ++ (sp.stars x y ++ after))) := by
  have hzero' := DirectiveSpelling.zero_not_mem_format hzero w p
  have hstars := ofFormat_front (g := g) hzero hf hbefore (sp.stars x y ++ after)
  have hnumbers := ofFormat_front (g := g) hzero' hf hbefore after
  have hfront := restarred_front hf hbefore (sp.stars x y).length sp.bytes.length
    (sp.written w p).bytes.length
  cases hr : (ofFormat options f before).result with
  | error e =>
    rw [hstars.failed e hr, hnumbers.failed e hr]
    exact hfront
  | ok n =>
    have hn := result_ofFormat_le hr
    exact hfront.joins (restarred_second hapart hconv hwritten hx hy hn after before.length
      f.length (Format.text g)) (hnumbers.joined n hr hn) (hstars.joined n hr hn)

/-- A directive with a number that cannot be met fails behind the output so far. -/
theorem ofFormat_tooLarge (hzero : 0 ∉ f ++ percentByte :: sp.bytes)
    (hf : Format.parse f = .ok segments)
    (hbefore : before.length = Format.argumentCount options.writer segments)
    (hapart : sp.IsApart) (hmet : ¬ sp.IsMet)
    (hn : (ofFormat options f before).result = .ok n) (after : List Argument) (g : List UInt8) :
    let front := ofFormat options f before
    let whole := ofFormat options (f ++ percentByte :: sp.bytes ++ g) (before ++ after)
    whole.bytes = front.bytes ∧ whole.result = .error .overflow ∧ whole.counts = front.counts := by
  intro front whole
  have hjoin := (ofFormat_front (g := g) hzero hf hbefore after).joined n hn (result_ofFormat_le hn)
  obtain ⟨stop, hitems⟩ := hapart.itemsFrom_tooLarge hmet f.length (Format.text g)
  rw [hitems, ofItems_of_unread rfl] at hjoin
  exact ⟨hjoin.bytes.trans (List.append_nil _), hjoin.result, hjoin.counts⟩

end Stars

end Rendering

namespace DirectiveSpelling

variable {sp : DirectiveSpelling}

theorem isWidth_ofWidth (w : Int) : (MeasureSpelling.ofWidth w).IsWidth := by
  rw [MeasureSpelling.ofWidth]
  split
  · exact trivial
  · rename_i hzero
    exact MeasureSpelling.isWidth_text (Int.natAbs_pos.mpr hzero)

theorem isPrecision_ofPrecision (p : Int) : (MeasureSpelling.ofPrecision p).IsPrecision := by
  rw [MeasureSpelling.ofPrecision]
  split
  · exact trivial
  · exact Digits.isDigitByte_text

/-- Before every modifier and before every letter any numbers may be written. -/
theorem IsApart.written (h : sp.IsApart) (hnext : ∀ c ∈ sp.tail.head?, IsOutside c) (w p : Int) :
    (sp.written w p).IsApart := by
  refine isApart_of_outside hnext ?_ ?_ h.modifier
  · simp only [DirectiveSpelling.written]
    split
    · exact isWidth_ofWidth w
    · exact h.isWidth
  · simp only [DirectiveSpelling.written]
    split
    · exact isPrecision_ofPrecision p
    · exact h.isPrecision

end DirectiveSpelling

section Printing

variable {options : FormatOptions} {f : List UInt8} {segments : List Segment}
  {sp : DirectiveSpelling} {x y : Argument} {w p : Int} {before : List Argument}

/-- Star fields equal written ones. A directive that takes its width, its precision or both from
arguments prints what it prints with these numbers in the places of the stars, behind any format
and before any other, if it is still read part by part with them: the output is the same, counts
take the same values, and failures are the same but for the numbers of arguments and offsets. With
the one width that has no digits that can be met, both fail behind the output so far. -/
theorem printToMemory_stars (hzero : 0 ∉ f ++ percentByte :: sp.bytes)
    (hf : Format.parse f = .ok segments)
    (hbefore : before.length = Format.argumentCount options.writer segments)
    (hapart : sp.IsApart) (hconv : sp.conversion ≠ percentByte)
    (hwritten : (sp.written w p).IsApart) (hx : x.signed? .plain = some w)
    (hy : y.signed? .plain = some p) (after : List Argument) (g : List UInt8) :
    let taken := (sp.stars x y).length
    let front := printToMemory options f before
    let stars := printToMemory options (f ++ percentByte :: sp.bytes ++ g)
      (before ++ (sp.stars x y ++ after))
    let numbers := printToMemory options (f ++ percentByte :: (sp.written w p).bytes ++ g)
      (before ++ after)
    stars.sink.content = numbers.sink.content ∧
    stars.result = numbers.result.mapError (Failure.restarred before.length taken
      sp.bytes.length (sp.written w p).bytes.length) ∧
    stars.counts = numbers.counts.map (restarredCount before.length taken) ∧
    (sp.width = .star → w = -(Directive.maxMeasure + 1 : Int) → ∀ n, front.result = .ok n →
      stars.result = .error .overflow ∧ numbers.result = .error .overflow ∧
        numbers.sink.content = front.sink.content ∧ numbers.counts = front.counts) := by
  intro taken front stars numbers
  have hsame := Rendering.ofFormat_stars hzero hf hbefore hapart hconv
    hwritten hx hy after g
  obtain ⟨hcontent, hresult, hcounts⟩ := printToMemory_rendering options
    (f ++ percentByte :: sp.bytes ++ g) (before ++ (sp.stars x y ++ after))
  obtain ⟨hcontent', hresult', hcounts'⟩ := printToMemory_rendering options
    (f ++ percentByte :: (sp.written w p).bytes ++ g) (before ++ after)
  obtain ⟨hcontent₀, hresult₀, hcounts₀⟩ := printToMemory_rendering options f before
  have hresults : stars.result = numbers.result.mapError (Failure.restarred before.length taken
      sp.bytes.length (sp.written w p).bytes.length) := by
    rw [hresult, hresult', hsame.result]
  refine ⟨?_, hresults, ?_, fun hstar hw n hn => ?_⟩
  · rw [hcontent, hcontent', hsame.bytes]
  · rw [hcounts, hcounts', hsame.counts]
  · have hlong : ¬ (sp.written w p).IsMet := fun h => by
      have hmet := (sp.isMet_written_iff w hy).mp h
      have hle := hmet.2 hstar
      omega
    have hzero' := DirectiveSpelling.zero_not_mem_format hzero w p
    obtain ⟨hbytes, hoverflow, hsameCounts⟩ := Rendering.ofFormat_tooLarge hzero' hf hbefore
      hwritten hlong (hresult₀.symm.trans hn) after g
    have hnumbers : numbers.result = .error .overflow := hresult'.trans hoverflow
    refine ⟨?_, hnumbers, ?_, ?_⟩
    · rw [hresults, hnumbers]
      rfl
    · rw [hcontent', hbytes, hcontent₀]
    · rw [hcounts', hsameCounts, hcounts₀]

/-- `<%+*.*d>%n` with the width -7 and the precision 3, against `<%+-7.3d>%n`. -/
theorem printToMemory_stars_negative :
    let options : FormatOptions := ⟨.full, .utf8⟩
    let sp : DirectiveSpelling := ⟨[.forceSign], .star, .star, [], .plain, 0x64⟩
    let stars := printToMemory options
      ([0x3C] ++ 0x25 :: sp.bytes ++ [0x3E, 0x25, 0x6E])
      ([] ++ (sp.stars (.int (-7)) (.int 3) ++ [.int 42, .count 0]))
    (sp.written (-7) 3).bytes = [0x2B, 0x2D, 0x37, 0x2E, 0x33, 0x64] ∧
      stars.sink.content = [0x3C, 0x2B, 0x30, 0x34, 0x32, 0x20, 0x20, 0x20, 0x3E] ∧
      stars.result = .ok 9 ∧ stars.counts = [(3, 9)] := by
  intro options sp stars
  have hflags : ∀ c ∈ sp.afterFlags.head?, Flag.ofByte? c = none := by
    intro c hc
    cases hc
    rfl
  have hapart : sp.IsApart := ⟨hflags, trivial, trivial, rfl⟩
  have hnext : ∀ c ∈ sp.tail.head?, IsOutside c := by
    intro c hc
    cases hc
    exact ⟨rfl, rfl, by decide, by decide⟩
  have hwritten : (sp.written (-7) 3).IsApart := hapart.written hnext (-7) 3
  have hf : Format.parse [0x3C] = .ok [.literal [0x3C]] := eq_ok_of_toOption (by decide +kernel)
  have hbytes : (sp.written (-7) 3).bytes = [0x2B, 0x2D, 0x37, 0x2E, 0x33, 0x64] := by
    decide +kernel
  obtain ⟨hcontent, hresult, hcounts, _⟩ := @printToMemory_stars options [0x3C] _ sp
    (.int (-7)) (.int 3) (-7) 3 [] (by decide) hf rfl hapart (by decide) hwritten rfl rfl
    [.int 42, .count 0] [0x3E, 0x25, 0x6E]
  rw [hbytes] at hcontent hresult hcounts
  have hnumbers : (printToMemory options
      ([0x3C] ++ percentByte :: [0x2B, 0x2D, 0x37, 0x2E, 0x33, 0x64] ++ [0x3E, 0x25, 0x6E])
      ([] ++ [.int 42, .count 0])).result = .ok 9 := eq_ok_of_toOption (by decide +kernel)
  rw [hnumbers] at hresult
  exact ⟨hbytes, hcontent.trans (by decide +kernel), hresult, hcounts.trans (by decide +kernel)⟩

/-- The conversion of `%*5` reads on into a number that is written before it: with the width 3 it
writes its own character in three columns, but `%35` has no conversion. -/
theorem printToMemory_stars_reads_on :
    let options : FormatOptions := ⟨.full, .utf8⟩
    let sp : DirectiveSpelling := ⟨[], .star, .absent, [], .plain, 0x35⟩
    let stars := printToMemory options (percentByte :: sp.bytes) (sp.stars (.int 3) (.int 0))
    let numbers := printToMemory options (percentByte :: (sp.written 3 0).bytes) []
    sp.IsApart ∧ sp.IsMet ∧ stars.sink.content = [0x20, 0x20, 0x35] ∧ stars.result = .ok 3 ∧
      numbers.sink.content = [] ∧ numbers.result = .error (.malformedDirective 0) := by
  intro options sp stars numbers
  have hflags : ∀ c ∈ sp.afterFlags.head?, Flag.ofByte? c = none := by
    intro c hc
    cases hc
    rfl
  have hprecision : sp.precision.IsPrecisionBefore sp.tail := by
    intro c hc
    cases hc
    decide
  refine ⟨⟨hflags, trivial, hprecision, rfl⟩, ⟨Nat.zero_le _, Nat.zero_le _⟩, ?_, ?_, ?_, ?_⟩
  · decide +kernel
  · exact eq_ok_of_toOption (by decide +kernel)
  · decide +kernel
  · have hbytes : (sp.written 3 0).bytes = [0x33, 0x35] := by decide +kernel
    have hparse : Directive.parse [0x33, 0x35] = .error .truncated := rfl
    obtain ⟨_, hresult, _⟩ :=
      printToMemory_rendering options (percentByte :: (sp.written 3 0).bytes) []
    rw [hresult, hbytes, Rendering.ofFormat, Format.items, Format.text_eq (by decide),
      Format.itemsFrom_unread 0 hparse, Rendering.ofItems_of_unread rfl]
    rfl

end Printing

end FormattedText
