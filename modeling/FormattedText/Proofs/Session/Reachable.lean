import FormattedText.Proofs.Multibyte.Inherited
import FormattedText.Proofs.Session.Frame

/-!
# The worlds of a session

A world is reachable if calls lead to it from the start of a process, in the thread that
makes them or in one that a call has started (`Reachable`). What holds of the initial state
and is kept by every conversion, in any encoding and either direction, holds of every
conversion state of a reachable world (`Reachable.state`). So the bytes pending there are
always those that a decoder of some encoding has left.
-/

namespace FormattedText

open ConversionState

/-- A state that is forgotten on failure is inherited too. -/
theorem forgetOnFailure_inherited {s : ConversionState} (h : s.Inherited)
    (result : Except Failure Nat) : (forgetOnFailure result s).Inherited := by
  cases result with
  | ok => exact h
  | error => exact inherited_initial

namespace Conversion

/-- Every conversion leaves an inherited state. -/
theorem run_inherited {s : ConversionState} (h : s.Inherited) (enc : Encoding) (c : Conversion) :
    (c.run enc s).2.Inherited := by
  have hdecode := Encoding.decodeString_inherited h enc
  have hencode := Encoding.encodeString_inherited h enc
  have hread := Encoding.decodeOne_inherited h enc
  have hwrite := Encoding.encodeOne_inherited h enc
  cases c with
  | decodeOne source => exact hread source
  | nextLength source => exact hread (some source)
  | implicitLength source | mbtowc source | mblen source =>
    exact forgetOnFailure_inherited (hread source) _
  | mbrtowc source | mbrlen source => exact hread (some (source.getD [0]))
  | encodeOne wc destination => exact hwrite _ wc
  | wctomb wc destination =>
    cases destination with
    | none => exact inherited_initial
    | some => exact forgetOnFailure_inherited (hwrite _ wc) _
  | wcrtomb wc destination => exact hwrite _ _
  | decodeString source => exact hdecode _ source
  | encodeString source => exact hencode _ source
  | decodeWhole source => exact hdecode _ (some source)
  | encodeWhole source => exact hencode _ (some source)
  | mbsnrtowcs hasHandle source =>
    cases hasHandle with
    | false => exact h
    | true =>
      cases source with
      | none => exact h
      | some => exact hdecode _ (some _)
  | wcsnrtombs hasHandle source =>
    cases hasHandle with
    | false => exact h
    | true =>
      cases source with
      | none => exact h
      | some => exact hencode _ (some _)
  | mbstowcs source =>
    cases source with
    | none => exact h
    | some => exact hdecode _ (some _)
  | wcstombs source =>
    cases source with
    | none => exact h
    | some => exact hencode _ (some _)

end Conversion

namespace World

/-- The worlds that the threads of a process can come to. -/
inductive Reachable : World → Prop where
  /-- The first thread of a process, as it starts. -/
  | start (environment : Locale.Environment) : Reachable (start environment)
  /-- A thread that another one starts. -/
  | newThread {w : World} (h : Reachable w) : Reachable (newThread w.process)
  /-- A thread after a call. -/
  | perform {w : World} (h : Reachable w) (call : Call) : Reachable (w.perform call).2

namespace Reachable

variable {w : World}

/-- A thread after calls one after another. -/
theorem performAll (h : w.Reachable) (calls : List Call) : (w.performAll calls).2.Reachable := by
  induction calls generalizing w with
  | nil => exact h
  | cons call rest ih =>
    rw [performAll_cons]
    exact ih (h.perform call)

/-- What holds of the initial state and is kept by every conversion that works on a state
holds of this state in a reachable world. -/
theorem target {P : ConversionState → Prop} (h : w.Reachable) (h0 : P .initial)
    {ref : StateRef} (hrun : ∀ enc s (c : Conversion) name,
      c.usage.target? name = some ref → P s → P (c.run enc s).2) : P (w.state ref) := by
  induction h with
  | start environment =>
    rw [World.start, ← World.newThread, state_newThread]
    exact h0
  | newThread =>
    rw [state_newThread]
    exact h0
  | @perform w _ call ih =>
    rw [state_perform]
    split
    · rename_i htarget
      cases call with
      | convert _ name c => exact hrun _ _ c name htarget ih
      | reset => exact h0
      | implicit slot forget =>
        rw [Call.stateAfter]
        split
        · exact h0
        · exact ih
      | _ => exact ih
    · exact ih

/-- What holds of the initial state and is kept by every conversion holds of every
conversion state of a reachable world. -/
theorem state {P : ConversionState → Prop} (h : w.Reachable) (h0 : P .initial)
    (hrun : ∀ enc s c, P s → P (Conversion.run enc s c).2) (ref : StateRef) :
    P (w.state ref) :=
  h.target h0 fun enc s c _ _ => hrun enc s c

/-- The pending bytes of a reachable world were left by a decoder of some encoding. -/
theorem inherited (h : w.Reachable) (ref : StateRef) : (w.state ref).Inherited :=
  h.state inherited_initial (fun enc _ c hs => Conversion.run_inherited hs enc c) ref

end Reachable

end World

end FormattedText
