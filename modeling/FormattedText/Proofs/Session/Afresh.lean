import FormattedText.Proofs.Multibyte.RoundTrip
import FormattedText.Proofs.Session.Reachable

/-!
# Calls that begin afresh

The calls that cannot be restarted forget their implicit state whenever they fail, and a
character that is complete leaves nothing pending. So these states never hold the beginning
of a character, whatever calls in whatever encodings came before. All that can be left there
is a shift, and an encoding without escape sequences does not look at it (`run_afresh`). So
such a call replies there as it does when it is the first one of a thread
(`World.Reachable.perform_afresh`).
-/

namespace FormattedText

/-- The state with another shift. -/
def ConversionState.inShift (s : ConversionState) (shift : Shift) : ConversionState :=
  { s with shift := shift }

theorem ConversionState.inShift_of_pending_nil {s : ConversionState} (h : s.pending = []) :
    initial.inShift s.shift = s := by
  rw [inShift, initial, ← h]

/-- What a decoder does with one byte, in another shift. -/
def Feed.inShift (shift : Shift) : Feed → Feed
  | .more s => .more (s.inShift shift)
  | .character wc s => .character wc (s.inShift shift)
  | .refused => .refused

/-- What the bytes of a source give, in another shift. -/
def Decoded.inShift (shift : Shift) : Decoded → Decoded
  | .character wc count s => .character wc count (s.inShift shift)
  | .incomplete s => .incomplete (s.inShift shift)
  | .invalid => .invalid

namespace Encoding

section Pending

variable {enc : Encoding} {s t : ConversionState} {src : List UInt8} {wc : UInt32} {n : Nat}

/-- Without longer characters no byte is kept. -/
theorem feed_ne_more (h : enc.isSingleByte = true) (s t : ConversionState) (b : UInt8) :
    enc.feed s b ≠ .more t := by
  cases enc with
  | ascii | latin1 =>
    intro hmore
    simp only [feed, feedSingle] at hmore
    split at hmore <;> cases hmore
  | _ => cases h

/-- A character leaves nothing pending but what a decoder of single bytes has not looked at. -/
theorem pending_of_scan (h : enc.Awaits s) (hone : enc.isSingleByte = true → s.pending = [])
    {used : Nat} (hd : enc.scan s used src = .character wc n t) : t.pending = [] := by
  induction src generalizing s used with
  | nil => cases hd
  | cons b src ih =>
    have hstep := feed_awaited h b
    rw [scan] at hd
    generalize hf : enc.feed s b = f at hstep hd
    cases hstep with
    | character _ ht =>
      cases hd
      rcases ht with ht | ⟨hsingle, rfl⟩
      · exact ht
      · exact hone hsingle
    | more _ ht => exact ih ht (fun hsingle => absurd hf (feed_ne_more hsingle s _ b)) hd
    | refused => cases hd

theorem pending_of_decode (h : s.pending = []) (hd : enc.decode s src = .character wc n t) :
    t.pending = [] := by
  cases src with
  | nil => cases hd
  | cons b rest =>
    simp only [decode, held?_of_pending_nil enc h] at hd
    exact pending_of_scan (awaits_of_pending_nil enc h) (fun _ => h) hd

/-- A read that is forgotten on failure leaves nothing pending where nothing was. -/
theorem pending_forgetOnFailure_decodeOne (h : s.pending = []) (enc : Encoding)
    (source : Option (List UInt8)) :
    (forgetOnFailure (enc.decodeOne source s).result (enc.decodeOne source s).state).pending =
      [] := by
  cases source with
  | none => rfl
  | some src =>
    simp only [decodeOne]
    cases hd : enc.decode s src with
    | character => exact pending_of_decode h hd
    | incomplete | invalid => rfl

theorem pending_forgetOnFailure_encodeOne (h : s.pending = []) (enc : Encoding)
    (capacity : Option Nat) (wc : UInt32) :
    (forgetOnFailure (enc.encodeOne capacity wc s).result
      (enc.encodeOne capacity wc s).state).pending = [] := by
  simp only [encodeOne]
  split
  · rfl
  · exact h
  · rename_i he
    split
    · rfl
    · exact (pending_of_encode he).trans h

end Pending

section Shifts

variable {enc : Encoding}

/-- Without escape sequences a decoder does not look at the shift, and leaves it as it is. -/
theorem feed_inShift (he : enc.isStateful = false) (s : ConversionState) (shift : Shift)
    (b : UInt8) : enc.feed (s.inShift shift) b = (enc.feed s b).inShift shift := by
  obtain ⟨pending, old⟩ := s
  cases enc with
  | jis => cases he
  | ascii | latin1 =>
    simp only [feed, feedSingle]
    split <;> rfl
  | utf8 | eucJp | shiftJis =>
    simp only [feed, feedSequence, ConversionState.inShift]
    cases pending with
    | nil =>
      simp only
      split <;> rfl
    | cons lead rest =>
      simp only
      repeat' split
      all_goals rfl

theorem scan_inShift (he : enc.isStateful = false) (s : ConversionState) (shift : Shift)
    (used : Nat) (src : List UInt8) :
    enc.scan (s.inShift shift) used src = (enc.scan s used src).inShift shift := by
  induction src generalizing s used with
  | nil => rfl
  | cons b src ih =>
    simp only [scan, feed_inShift he]
    cases enc.feed s b with
    | more u => exact ih u (used + 1)
    | character | refused => rfl

/-- Where nothing is pending, a read gives what it gives from the initial state. -/
theorem decodeOne_afresh (he : enc.isStateful = false) {s : ConversionState}
    (hs : s.pending = []) (source : Option (List UInt8)) :
    (enc.decodeOne source s).result = (enc.decodeOne source .initial).result ∧
      (enc.decodeOne source s).character = (enc.decodeOne source .initial).character := by
  rcases source with _ | _ | ⟨b, rest⟩
  · exact ⟨rfl, rfl⟩
  · exact ⟨rfl, rfl⟩
  · have hscan := scan_inShift he .initial s.shift 0 (b :: rest)
    rw [ConversionState.inShift_of_pending_nil hs] at hscan
    simp only [decodeOne, decode, held?_of_pending_nil enc hs,
      held?_of_pending_nil enc (s := .initial) rfl, hscan]
    cases enc.scan .initial 0 (b :: rest) <;> exact ⟨rfl, rfl⟩

/-- Without escape sequences a write does not depend on the state. -/
theorem encodeOne_afresh (he : enc.isStateful = false) (s : ConversionState)
    (capacity : Option Nat) (wc : UInt32) :
    (enc.encodeOne capacity wc s).result = (enc.encodeOne capacity wc .initial).result ∧
      (enc.encodeOne capacity wc s).stored = (enc.encodeOne capacity wc .initial).stored := by
  simp only [encodeOne, encode_of_stateless he s]
  rcases enc.encode .initial wc with _ | ⟨bytes, t⟩
  · exact ⟨rfl, rfl⟩
  · cases capacity with
    | none => exact ⟨rfl, rfl⟩
    | some capacity =>
      simp only [Option.map_some]
      split <;> exact ⟨rfl, rfl⟩

end Shifts

end Encoding

/-- The functions that cannot be restarted. -/
def Slot.isNonrestartable : Slot → Bool
  | .mbtowc | .mblen | .wctomb => true
  | _ => false

namespace Conversion

/-- The calls of the functions that cannot be restarted. -/
def isNonrestartable : Conversion → Bool
  | implicitLength .. | mbtowc .. | mblen .. | wctomb .. => true
  | _ => false

section Nonrestartable

variable {c : Conversion} {slot : Slot} {s : ConversionState} {enc : Encoding}

/-- They work on the implicit state of their function. -/
theorem usage_of_isNonrestartable (h : c.isNonrestartable = true) :
    ∃ slot, c.usage = .implicit slot ∧ slot.isNonrestartable = true := by
  cases c with
  | implicitLength | mblen => exact ⟨.mblen, rfl, rfl⟩
  | mbtowc => exact ⟨.mbtowc, rfl, rfl⟩
  | wctomb => exact ⟨.wctomb, rfl, rfl⟩
  | _ => cases h

/-- No other call works on that state. -/
theorem isNonrestartable_of_target? (h : slot.isNonrestartable = true) {name : Option String}
    (htarget : c.usage.target? name = some (.implicit slot)) : c.isNonrestartable = true := by
  cases c with
  | implicitLength | mblen | mbtowc | wctomb => rfl
  | decodeWhole | encodeWhole | mbstowcs | wcstombs => cases htarget
  | _ =>
    cases name with
    | none =>
      cases htarget
      cases h
    | some => cases htarget

/-- They leave nothing pending where nothing was. -/
theorem pending_run (h : c.isNonrestartable = true) (hs : s.pending = []) (enc : Encoding) :
    (c.run enc s).2.pending = [] := by
  cases c with
  | implicitLength source | mblen source | mbtowc source =>
    exact Encoding.pending_forgetOnFailure_decodeOne hs enc source
  | wctomb wc destination =>
    cases destination with
    | none => rfl
    | some => exact Encoding.pending_forgetOnFailure_encodeOne hs enc _ wc
  | _ => cases h

/-- In an encoding without escape sequences they give what they give from the initial state. -/
theorem run_afresh (h : c.isNonrestartable = true) (he : enc.isStateful = false)
    (hs : s.pending = []) : (c.run enc s).1 = (c.run enc .initial).1 := by
  cases c with
  | implicitLength source =>
    obtain ⟨hresult, _⟩ := Encoding.decodeOne_afresh he hs source
    simp only [run, hresult]
  | mblen source =>
    obtain ⟨hresult, _⟩ := Encoding.decodeOne_afresh he hs source
    simp only [run, Calls.mblen, Calls.mbtowc, hresult]
  | mbtowc source =>
    obtain ⟨hresult, hcharacter⟩ := Encoding.decodeOne_afresh he hs source
    simp only [run, Calls.mbtowc, hresult, hcharacter]
  | wctomb wc destination =>
    obtain ⟨hresult, hstored⟩ :=
      Encoding.encodeOne_afresh he s (some Encoding.longestCharacter) wc
    cases destination with
    | none => rfl
    | some => simp only [run, Calls.wctomb, Option.isSome_some, ite_true, hresult, hstored]
  | _ => cases h

end Nonrestartable

end Conversion

namespace World

/-- The implicit states of the functions that cannot be restarted never hold the beginning of
a character. -/
theorem Reachable.pending_implicit {w : World} (h : w.Reachable) {slot : Slot}
    (hslot : slot.isNonrestartable = true) : (w.thread.implicit slot).pending = [] := by
  have hstate : (w.state (.implicit slot)).pending = [] :=
    h.target (P := fun s => s.pending = []) rfl fun enc _ _ _ htarget hs =>
      Conversion.pending_run (Conversion.isNonrestartable_of_target? hslot htarget) hs enc
  exact hstate

/-- The functions that cannot be restarted forget the past in encodings without escape
sequences. After any calls of a session, in any encodings and with any input, nothing is
pending in their implicit states, and a call of one of them replies as the same call does in
a thread that has made no other, where the same encoding is in effect. -/
theorem Reachable.perform_afresh {w : World} (h : w.Reachable) :
    (∀ slot, slot.isNonrestartable = true → (w.thread.implicit slot).pending = []) ∧
      ∀ (c : Conversion) (encoding : Option Encoding) (name : Option String),
        c.isNonrestartable = true →
        let call := Call.convert encoding name c
        w.encodingAt call ≠ .jis →
        ∀ (p : Process) (override : Option Encoding),
          let fresh : World := ⟨p, { Thread.fresh with override := override }, []⟩
          fresh.encodingAt call = w.encodingAt call →
            (w.perform call).1 = (fresh.perform call).1 := by
  refine ⟨fun slot => h.pending_implicit, fun c encoding name hc => ?_⟩
  intro call hjis p override fresh henc
  obtain ⟨slot, husage, hslot⟩ := Conversion.usage_of_isNonrestartable hc
  have htarget : call.target? = some (.implicit slot) := by
    rw [Call.target?, husage]
    rfl
  have he : (w.encodingAt call).isStateful = false := by
    cases hw : w.encodingAt call with
    | jis => exact absurd hw hjis
    | _ => rfl
  rw [w.reply_perform htarget, fresh.reply_perform htarget, henc]
  exact congrArg Reply.converted (Conversion.run_afresh hc he (h.pending_implicit hslot))

/-- A thread leaves the shift of one encoding in an implicit state, gives up a character of
another, and then reads a letter. -/
theorem perform_afresh_shifted :
    let w := ((start .unset).performAll
      [.useInThread (some "ja_JP.JIS"),
        .convert none none (.mblen (some [0x1B, 0x24, 0x42, 0x30, 0x21])),
        .convert none none (.mbtowc (some [0x1B, 0x24, 0x42, 0x30, 0x21]) true),
        .useInThread (some "C.UTF-8"),
        .convert none none (.mblen (some [0xE4, 0xB8]))]).2
    let call := Call.convert none none (.mbtowc (some [0xC3, 0xA9]) true)
    let fresh : World := ⟨.start .unset, { Thread.fresh with override := some .utf8 }, []⟩
    w.Reachable ∧ w.thread.implicit .mbtowc = ⟨[], .jis0208⟩ ∧
      w.thread.implicit .mblen = .initial ∧ w.encodingAt call = .utf8 ∧
      (w.perform call).1 = (fresh.perform call).1 ∧
      (fresh.perform call).1 = .converted (.returnedCharacter (.int 2) (some 0xE9)) := by
  intro w call fresh
  have h : w.Reachable := (Reachable.start .unset).performAll _
  have henc : w.encodingAt call = .utf8 := rfl
  have hjis : w.encodingAt call ≠ .jis := by
    rw [henc]
    decide
  exact ⟨h, rfl, rfl, henc, h.perform_afresh.2 _ none none rfl hjis _ _ henc.symm, rfl⟩

end World

end FormattedText
