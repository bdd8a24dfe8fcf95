import FormattedText.Proofs.Format.Unencodable

/-!
# A format of one directive

A format that is one directive takes the width and the precision from the arguments and leaves the
others to the conversion (`Format.IsDirective`); unless it stands for a percent sign, it is
rendered as the field that the conversion gives (`Format.IsDirective.ofFormat`). A print of a
field without a failure shows all of its bytes, unless they are more than can be reported
(`printToMemory_shows`).
-/

namespace FormattedText

/-- A print gives a result and output. -/
def Delivered.Gives (d : Delivered GrowableBuffer) (result : Except Failure Nat)
    (content : List UInt8) : Prop := d.result = result ∧ d.sink.content = content

/-- Two prints give the same result and the same output. -/
def Delivered.Agrees (a b : Delivered GrowableBuffer) : Prop := a.Gives b.result b.sink.content

/-- A print shows bytes and returns their number, or fails because they are more than can be
reported. -/
structure Delivered.Shows (d : Delivered GrowableBuffer) (bytes : List UInt8) : Prop where
  /-- Bytes that can be reported are written and counted. -/
  fits : bytes.length ≤ Directive.maxMeasure → d.Gives (.ok bytes.length) bytes
  /-- More bytes fail. -/
  exceeds : Directive.maxMeasure < bytes.length → d.result = .error .overflow

/-- A format of one directive, given without its percent sign: the directive with the width and the
precision that the arguments give it, and the arguments that are left for its conversion. -/
structure Format.IsDirective (s : List UInt8) (args : List Argument) (d : Directive)
    (left : Arguments) : Prop where
  /-- The format does not end before the conversion. -/
  zero_not_mem : 0 ∉ s
  /-- The directive can be read, and there are arguments for its width and its precision. -/
  resolves : ∃ spelled, Directive.parse s = .ok (spelled, []) ∧
    spelled.resolve (.start args) = .ok (d, left)

section Printing

variable {options : FormatOptions} {s format : List UInt8} {args : List Argument} {d : Directive}
  {left left' : Arguments} {f : Field}

theorem Delivered.Gives.agrees {a b : Delivered GrowableBuffer} {result : Except Failure Nat}
    {content : List UInt8} (ha : a.Gives result content) (hb : b.Gives result content) :
    a.Agrees b :=
  ⟨ha.1.trans hb.1.symm, ha.2.trans hb.2.symm⟩

/-- A print that returns a number has shown the bytes. -/
theorem Delivered.Shows.gives {p : Delivered GrowableBuffer} {bytes : List UInt8} {n : Nat}
    (h : p.Shows bytes) (hn : p.result = .ok n) : p.Gives (.ok bytes.length) bytes := by
  refine h.fits (Nat.not_lt.mp fun hlong => ?_)
  rw [h.exceeds hlong] at hn
  cases hn

theorem printToMemory_gives {r : Rendering} (h : Rendering.ofFormat options format args = r) :
    (printToMemory options format args).Gives r.result r.bytes := by
  obtain ⟨hcontent, hresult, _⟩ := printToMemory_rendering options format args
  rw [h] at hcontent hresult
  exact ⟨hresult, hcontent⟩

/-- What is printed of a field that does not fail. -/
theorem printToMemory_shows (h : Rendering.ofFormat options format args = Rendering.ofField 0 f)
    (hfailure : f.failure = none) : (printToMemory options format args).Shows f.bytes := by
  have hgives := printToMemory_gives h
  constructor
  · intro hfits
    rw [← Nat.zero_add f.bytes.length] at hfits
    obtain ⟨hcontent, hresult⟩ := Rendering.ofField_all hfailure hfits
    rw [hcontent, hresult, Nat.zero_add] at hgives
    exact hgives
  · intro hlong
    rw [← Nat.zero_add f.bytes.length] at hlong
    exact hgives.1.trans (Rendering.ofField_tooLong (Nat.zero_le _) hlong)

theorem Directive.ofDirective_of_ne (h : d.conversion ≠ percentByte) :
    Segment.ofDirective d = .directive d :=
  if_neg h

/-- A directive that writes a field is rendered as it. -/
theorem Format.IsDirective.ofFormat (h : IsDirective s args d left)
    (hconversion : d.conversion ≠ percentByte)
    (hexpand : d.expand options left = .ok (.field f, left')) :
    Rendering.ofFormat options (percentByte :: s) args = Rendering.ofField 0 f := by
  obtain ⟨spelled, hparse, hresolve⟩ := h.resolves
  have hspelled : spelled.conversion ≠ percentByte := by
    rw [← (Directive.resolve_ok hresolve).2]
    exact hconversion
  rw [Rendering.ofFormat_segment h.zero_not_mem hparse (Directive.ofDirective_of_ne hspelled),
    Rendering.ofSegment, Directive.expandResolved_of_resolve options hresolve, hexpand]

/-- The print of a directive that writes a field without a failure. -/
theorem Format.IsDirective.shows (h : IsDirective s args d left)
    (hconversion : d.conversion ≠ percentByte)
    (hexpand : d.expand options left = .ok (.field f, left')) (hfailure : f.failure = none) :
    (printToMemory options (percentByte :: s) args).Shows f.bytes :=
  printToMemory_shows (h.ofFormat hconversion hexpand) hfailure

end Printing

end FormattedText
