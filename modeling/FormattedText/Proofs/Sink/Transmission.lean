import FormattedText.Proofs.Delivery

/-!
# Printing to a transport that may fail

Printing to a transport, under any script of outcomes, against printing the same into
memory (`printToTransport_transmits`): the transport has taken the beginning of the text,
all of it if no offer failed, and after an offer that failed it is left alone and the print
fails. So a print that gives a length has sent all its bytes.
-/

namespace FormattedText

/-- A print has given `output` on a transport with the given script, and `memory` in
memory. -/
structure Transmits (script : List Outcome) (memory : Delivered GrowableBuffer)
    (output : Delivered Descriptor) : Prop where
  /-- Each offer has used an outcome of the script. -/
  used : output.sink.transport.script = script.drop output.sink.transport.offered.length
  /-- No offer is empty. -/
  positive : ∀ n ∈ output.sink.transport.offered, 1 ≤ n
  /-- No offer follows one that failed. -/
  stopped : ∀ {i o e}, script[i]? = some o → o.failure? = some e →
    i < output.sink.transport.offered.length → i + 1 = output.sink.transport.offered.length
  /-- The bytes taken begin the text. -/
  accepted : output.sink.transport.accepted <+: memory.sink.content
  /-- The number of bytes taken is known. -/
  flushed : output.sink.flushed = output.sink.transport.accepted.length
  /-- If no offer failed, the whole text is taken, and the print goes as in memory. -/
  complete : (∀ o ∈ script.take output.sink.transport.offered.length, o.failure? = none) →
    output.sink.transport.accepted = memory.sink.content ∧ output.result = memory.result ∧
      output.counts = memory.counts
  /-- If an offer failed, the print fails as it did, or as it does in memory. -/
  failed : ∀ o ∈ script.take output.sink.transport.offered.length, ∀ e, o.failure? = some e →
    output.result = .error e ∨ ∃ e', memory.result = .error e' ∧ output.result = .error e'
  /-- A length is given only if all bytes were taken, and it is their number. -/
  sent : ∀ n, output.result = .ok n →
    output.sink.transport.accepted = memory.sink.content ∧ memory.sink.content.length = n

section Fresh

variable {script : List Outcome} {memory : Delivered GrowableBuffer}
  {output : Delivered Descriptor} {e : Failure}

/-- The transport has taken the whole text, and the results agree. -/
theorem transmits_of_finished
    (h : Descriptor.Finished (.ofTransport (.scripted script)) output.sink memory.sink.content)
    (hresult : output.result = memory.result) (hcounts : output.counts = memory.counts)
    (hlength : ∀ n, memory.result = .ok n → memory.sink.content.length = n) :
    Transmits script memory output := by
  obtain ⟨⟨sizes, hm, hsoft⟩, _⟩ := h
  have hoffered : output.sink.transport.offered = sizes := hm.offered
  have haccepted : output.sink.transport.accepted = memory.sink.content := hm.accepted
  have hflushed : output.sink.flushed = 0 + memory.sink.content.length := hm.flushed
  subst hoffered
  refine ⟨hm.script, hm.positive, ?_, haccepted ▸ List.prefix_rfl, ?_, ?_, ?_, ?_⟩
  · intro i o e ho he hi
    have hmem : o ∈ script.take output.sink.transport.offered.length :=
      List.mem_of_getElem? ((List.getElem?_take_of_lt hi).trans ho)
    rw [hsoft o hmem] at he
    cases he
  · rw [hflushed, haccepted, Nat.zero_add]
  · exact fun _ => ⟨haccepted, hresult, hcounts⟩
  · intro o hmem e he
    rw [hsoft o hmem] at he
    cases he
  · exact fun n hn => ⟨haccepted, hlength n (hresult.symm.trans hn)⟩

/-- The last offer failed, and the print with it. -/
theorem transmits_of_failed
    (h : Descriptor.Failed (.ofTransport (.scripted script)) output.sink memory.sink.content e)
    (hresult : output.result = .error e ∨
      ∃ e', memory.result = .error e' ∧ output.result = .error e') :
    Transmits script memory output := by
  obtain ⟨⟨taken, sizes, size, last, hm, htaken, hsoft, hlast, he⟩, _⟩ := h
  have hoffered : output.sink.transport.offered = sizes ++ [size] := hm.offered
  have haccepted : output.sink.transport.accepted = taken := hm.accepted
  have hflushed : output.sink.flushed = 0 + taken.length := hm.flushed
  have hlength : output.sink.transport.offered.length = sizes.length + 1 := by
    rw [hoffered, List.length_append, List.length_singleton]
  have hused : script.take output.sink.transport.offered.length =
      script.take sizes.length ++ [last] := by
    rw [hlength, List.take_add_one, show script[sizes.length]? = some last from hlast]
    rfl
  refine ⟨?_, ?_, ?_, haccepted ▸ htaken, ?_, ?_, ?_, ?_⟩
  · rw [hoffered]
    exact hm.script
  · rw [hoffered]
    exact hm.positive
  · intro i o e ho he hi
    have hlast_le : sizes.length ≤ i := by
      apply Nat.le_of_not_lt
      intro hlt
      have hmem : o ∈ script.take sizes.length :=
        List.mem_of_getElem? ((List.getElem?_take_of_lt hlt).trans ho)
      rw [hsoft o hmem] at he
      cases he
    omega
  · rw [hflushed, haccepted, Nat.zero_add]
  · intro hnone
    have hmem : last ∈ script.take output.sink.transport.offered.length := by
      rw [hused]
      exact List.mem_append_right _ (List.mem_singleton.mpr rfl)
    rw [hnone last hmem] at he
    cases he
  · intro o hmem e' he'
    rw [hused] at hmem
    rcases List.mem_append.mp hmem with hbefore | hend
    · rw [hsoft o hbefore] at he'
      cases he'
    · rw [List.mem_singleton.mp hend, he] at he'
      cases he'
      exact hresult
  · intro n hn
    rcases hresult with herror | ⟨_, _, herror⟩
    all_goals
      rw [hn] at herror
      cases herror

end Fresh

/-- Printing to a transport sends the text that is printed into memory, or fails where the
transport does. -/
theorem printToTransport_transmits (options : FormatOptions) (script : List Outcome)
    (format : List UInt8) (args : List Argument) :
    Transmits script (printToMemory options format args)
      (printToTransport options (.scripted script) format args) := by
  obtain ⟨hcontent, hresult, hcounts⟩ := printToMemory_rendering options format args
  have hlength : ∀ n, (printToMemory options format args).result = .ok n →
      (printToMemory options format args).sink.content.length = n := by
    intro n hn
    rw [hcontent]
    exact Rendering.length_bytes (hresult.symm.trans hn)
  have houtput := formatInto_reliable (Descriptor.reliable _)
    (Descriptor.Holds.refl (.ofTransport (.scripted script))) options format args
  cases houtput with
  | complete hs hr hc =>
    rw [← hcontent] at hs
    exact transmits_of_finished hs (hr.trans hresult.symm) (hc.trans hcounts.symm) hlength
  | broken hs hr =>
    rw [← hcontent] at hs
    rw [← hresult] at hr
    exact transmits_of_failed hs hr

end FormattedText
