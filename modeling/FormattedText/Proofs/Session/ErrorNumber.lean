import FormattedText.Proofs.Multibyte.Counting
import FormattedText.Proofs.Multibyte.Escapes
import FormattedText.Proofs.Session.Frame

/-!
# What calls with C conventions report

Behind a call with C conventions stands a conversion that fails in its own ways. Only two of these
come so far: bytes or a character that form no text, and a source that ends inside a character
(`Conversion.exists_returns`). A destination is never too short, as it holds every character of
every encoding. So a call that returns -1 has set the error number for an illegal sequence, or that
for an invalid argument where the place of its source pointer is missing, and every other call
leaves the error number alone, if only its count is one that it can return
(`Conversion.CountFits`): an `int` has no room for all counts of bytes. Over the calls of a thread
the number is the last one that was set there (`World.errno_performAll`).
-/

namespace FormattedText

namespace Encoding

variable {enc : Encoding} {s : ConversionState} {e : Failure}

theorem decodeOne_failure {source : Option (List UInt8)}
    (h : (enc.decodeOne source s).result = .error e) :
    e = .invalidSequence ∨ e = .incompleteSequence := by
  cases source with
  | none => cases h
  | some bytes =>
    simp only [decodeOne] at h
    cases hd : enc.decode s bytes with
    | character wc n t =>
      rw [hd] at h
      cases h
    | incomplete t =>
      rw [hd] at h
      exact Or.inr (Except.error.inj h).symm
    | invalid =>
      rw [hd] at h
      exact Or.inl (Except.error.inj h).symm

/-- A character always fits in a destination for the longest one. -/
theorem encodeOne_failure {wc : UInt32}
    (h : (enc.encodeOne (some longestCharacter) wc s).result = .error e) :
    e = .invalidSequence := by
  simp only [encodeOne] at h
  cases he : enc.encode s wc with
  | none =>
    rw [he] at h
    exact (Except.error.inj h).symm
  | some form =>
    obtain ⟨bytes, t⟩ := form
    have hlong : ¬longestCharacter < bytes.length :=
      Nat.not_lt.mpr (Nat.le_trans (length_of_encode he).2 (maxCharacterLength_le enc))
    rw [he] at h
    simp only [if_neg hlong] at h
    cases h

theorem count_scan_le {source : List UInt8} {wc : UInt32} {n : Nat} {t : ConversionState}
    (h : enc.scan s 0 source = .character wc n t) : n ≤ source.length := by
  have hfeeds := enc.scan_feedsUntil s 0 source
  rw [h] at hfeeds
  cases hfeeds with
  | character =>
    simp only [reportedCount, List.length_append, List.length_cons]
    split <;> omega

/-- A character takes no more bytes than its source has. -/
theorem decodeOne_count_le_length {source : List UInt8} {n : Nat}
    (h : (enc.decodeOne (some source) s).result = .ok n) : n ≤ source.length := by
  simp only [decodeOne] at h
  cases hd : enc.decode s source with
  | incomplete t | invalid =>
    rw [hd] at h
    cases h
  | character wc m t =>
    rw [hd] at h
    cases h
    cases source with
    | nil => cases hd
    | cons b rest =>
      simp only [decode] at hd
      cases hh : enc.held? s with
      | some held =>
        rw [hh] at hd
        cases hd
        exact Nat.zero_le _
      | none =>
        rw [hh] at hd
        exact count_scan_le hd

/-- A run of escape sequences before a character adds its bytes to the count. -/
theorem decodeOne_behind_run (front : Nat) (last : EscapeSequence) (rest : List UInt8)
    {wc : UInt32} {n : Nat} {t : ConversionState}
    (h : jis.scan (.shiftedTo last.target) 0 rest = .character wc n t) (hwc : wc ≠ 0) :
    (jis.decodeOne (some (EscapeSequence.bytesOf (List.replicate front .pairs ++ [last]) ++ rest))
      .initial).result = .ok (3 * (front + 1) + n) := by
  have hdecode := decode_bytesOf (s := .initial) rfl (List.replicate front .pairs) last rest
  rw [h, List.length_replicate] at hdecode
  rw [decodeOne, hdecode]
  simp only [Decoded.behind, reportedCount, hwc, ite_false]

theorem encodeOne_count_le {wc : UInt32} {n : Nat}
    (h : (enc.encodeOne (some longestCharacter) wc s).result = .ok n) : n ≤ longestCharacter := by
  simp only [encodeOne] at h
  cases he : enc.encode s wc with
  | none =>
    rw [he] at h
    cases h
  | some form =>
    obtain ⟨bytes, t⟩ := form
    simp only [he] at h
    split at h
    · cases h
    · cases h
      omega

theorem length_encodeOne_stored (enc : Encoding) (capacity : Option Nat) (wc : UInt32)
    (s : ConversionState) :
    (enc.encodeOne capacity wc s).stored.length ≤ enc.maxCharacterLength := by
  simp only [encodeOne]
  cases he : enc.encode s wc with
  | none => exact Nat.zero_le _
  | some form =>
    cases capacity with
    | none => exact Nat.zero_le _
    | some capacity =>
      simp only
      split
      · exact Nat.zero_le _
      · exact (length_of_encode he).2

end Encoding

/-- A conversion of a string fails only at a character that it cannot convert. -/
theorem Progress.failure_of_count {α β : Type} {p : Progress α β} {e : Failure}
    (h : p.count = .error e) : e = .invalidSequence := by
  simp only [count] at h
  cases hp : p.ending with
  | invalid =>
    rw [hp] at h
    exact (Except.error.inj h).symm
  | terminated | full | drained =>
    rw [hp] at h
    cases h

namespace Conversion

open Encoding (longestCharacter)

/-- Does the call lack the place of its source pointer? -/
def lacksHandle : Conversion → Bool
  | mbsnrtowcs hasHandle _ _ _ | wcsnrtombs hasHandle _ _ _ => !hasHandle
  | _ => false

/-- Is the call one of the two that tell an unfinished character apart from a failure? -/
def tellsUnfinished : Conversion → Bool
  | mbrtowc .. | mbrlen .. => true
  | _ => false

/-- The error number that stands for a failure of the call. -/
def failureNumber (c : Conversion) : Errno :=
  if c.lacksHandle then .invalidArgument else .illegalSequence

/-- The result of the conversion behind a call with C conventions, where one is made. -/
def behind (enc : Encoding) (s : ConversionState) : Conversion → Option (Except Failure Nat)
  | mbtowc source _ | mblen source => some (enc.decodeOne source s).result
  | mbrtowc source _ | mbrlen source => some (enc.decodeOne (some (source.getD [0])) s).result
  | wctomb wc destination =>
      destination.map fun _ => (enc.encodeOne (some longestCharacter) wc s).result
  | wcrtomb wc destination =>
      some (enc.encodeOne (some longestCharacter) (if destination.isSome then wc else 0) s).result
  | mbsnrtowcs true (some bytes) bound destination =>
      let range := Calls.examined (· == 0) bound bytes
      some (enc.decodeString (destination.map List.length) (some range) s).result
  | wcsnrtombs true (some wide) bound destination =>
      let range := Calls.examined (· == 0) bound wide
      some (enc.encodeString (destination.map List.length) (some range) s).result
  | mbstowcs (some bytes) destination =>
      let range := Calls.examined (· == 0) none bytes
      some (enc.decodeString (destination.map List.length) (some range) s).result
  | wcstombs (some wide) destination =>
      let range := Calls.examined (· == 0) none wide
      some (enc.encodeString (destination.map List.length) (some range) s).result
  | _ => none

/-- Is the call one of the three that return an `int`? -/
def returnsInt : Conversion → Bool
  | mbtowc .. | mblen .. | wctomb .. => true
  | _ => false

/-- A count as the call returns it. -/
def counted (c : Conversion) (n : Nat) : Returned :=
  if c.returnsInt then .int (Int32.ofNat n) else .value n

/-- The source whose bytes a call counts in an `int`. -/
def intSource? : Conversion → Option (List UInt8)
  | mbtowc source _ | mblen source => source
  | _ => none

/-- The call can return its count: an `int` has room for fewer than 2³¹ bytes. -/
def CountFits (enc : Encoding) (s : ConversionState) (c : Conversion) : Prop :=
  c.returnsInt = true → ∀ n, c.behind enc s = some (.ok n) → n < 2 ^ 31

/-- All the ways in which a call with C conventions returns, told by the conversion behind it. -/
inductive Returns (enc : Encoding) (s : ConversionState) (c : Conversion) : Returned → Prop where
  /-- There is no place for the source pointer. -/
  | noHandle (hl : c.lacksHandle = true) (hb : c.behind enc s = none) :
      Returns enc s c (.failed .invalidArgument)
  /-- There is nothing to convert. -/
  | unconverted {n : Nat} (hn : n ≤ 1) (hl : c.lacksHandle = false)
      (hb : c.behind enc s = none) : Returns enc s c (c.counted n)
  /-- The conversion gives a count. -/
  | converted {n : Nat} (hl : c.lacksHandle = false) (hb : c.behind enc s = some (.ok n)) :
      Returns enc s c (c.counted n)
  /-- What is there to convert forms no text. -/
  | invalid (hl : c.lacksHandle = false) (hb : c.behind enc s = some (.error .invalidSequence)) :
      Returns enc s c (.failed .illegalSequence)
  /-- The source ends inside a character, for a call to which that is a failure. -/
  | incomplete (hl : c.lacksHandle = false) (ht : c.tellsUnfinished = false)
      (hb : c.behind enc s = some (.error .incompleteSequence)) :
      Returns enc s c (.failed .illegalSequence)
  /-- The source ends inside a character, for a call that tells it apart. -/
  | unfinished (hl : c.lacksHandle = false) (ht : c.tellsUnfinished = true)
      (hb : c.behind enc s = some (.error .incompleteSequence)) : Returns enc s c .incomplete

section Returning

variable {enc : Encoding} {s : ConversionState} {c : Conversion} {result : Except Failure Nat}

theorem counted_int (hc : c.returnsInt = true) (n : Nat) :
    c.counted n = .int (Int32.ofNat n) := by
  rw [counted, hc, if_pos rfl]

theorem counted_value (hc : c.returnsInt = false) (n : Nat) : c.counted n = .value n := by
  rw [counted, hc, if_neg Bool.false_ne_true]

/-- A count that fits is what the call returns. -/
theorem code_counted {n : Nat} (h : c.returnsInt = true → n < 2 ^ 31) :
    (c.counted n).code = n := by
  cases hc : c.returnsInt with
  | true =>
    rw [counted_int hc]
    exact Int32.toInt_ofNat_of_lt (h hc)
  | false =>
    rw [counted_value hc]
    rfl

/-- A count is published as no error. -/
theorem errno?_counted (c : Conversion) (n : Nat) : (c.counted n).errno? = none := by
  rw [counted]
  split <;> rfl

/-- The counts of sources that an `int` can count fit. -/
theorem countFits_of_length (h : ∀ source ∈ c.intSource?, source.length < 2 ^ 31) :
    c.CountFits enc s := by
  intro hint n hn
  have hone : (1 : Nat) < 2 ^ 31 := by decide
  cases c with
  | mbtowc source | mblen source =>
    obtain hcount : (enc.decodeOne source s).result = .ok n := Option.some.inj hn
    cases source with
    | some source =>
      exact Nat.lt_of_le_of_lt (Encoding.decodeOne_count_le_length hcount) (h source rfl)
    | none =>
      cases hcount
      split <;> omega
  | wctomb wc destination =>
    cases destination with
    | none => cases hn
    | some elements =>
      have hcount := Encoding.encodeOne_count_le (Option.some.inj hn)
      have height : longestCharacter < 2 ^ 31 := by decide
      omega
  | _ => cases hint

theorem returns_ofResult (hi : c.returnsInt = true) (hl : c.lacksHandle = false)
    (ht : c.tellsUnfinished = false) (hb : c.behind enc s = some result)
    (hfail : ∀ e, result = .error e → e = .invalidSequence ∨ e = .incompleteSequence) :
    c.Returns enc s (.ofResult result) := by
  cases result with
  | ok n =>
    have hreturns := Returns.converted hl hb
    rw [counted_int hi] at hreturns
    exact hreturns
  | error e =>
    rcases hfail e rfl with rfl | rfl
    · exact .invalid hl hb
    · exact .incomplete hl ht hb

theorem returns_ofRestartable (hi : c.returnsInt = false) (hl : c.lacksHandle = false)
    (hb : c.behind enc s = some result)
    (hfail : ∀ e, result = .error e →
      e = .invalidSequence ∨ e = .incompleteSequence ∧ c.tellsUnfinished = true) :
    c.Returns enc s (.ofRestartable result) := by
  cases result with
  | ok n =>
    have hreturns := Returns.converted hl hb
    rw [counted_value hi] at hreturns
    exact hreturns
  | error e =>
    rcases hfail e rfl with rfl | ⟨rfl, ht⟩
    · exact .invalid hl hb
    · exact .unfinished hl ht hb

theorem returns_decodeString {capacity : Option Nat} {range : List UInt8}
    (hi : c.returnsInt = false) (hl : c.lacksHandle = false)
    (hb : c.behind enc s = some (enc.decodeString capacity (some range) s).result) :
    c.Returns enc s (.ofRestartable (enc.decodeString capacity (some range) s).result) := by
  refine returns_ofRestartable hi hl hb fun e he => Or.inl ?_
  rw [enc.decodeString_result] at he
  exact Progress.failure_of_count he

theorem returns_encodeString {capacity : Option Nat} {range : List UInt32}
    (hi : c.returnsInt = false) (hl : c.lacksHandle = false)
    (hb : c.behind enc s = some (enc.encodeString capacity (some range) s).result) :
    c.Returns enc s (.ofRestartable (enc.encodeString capacity (some range) s).result) := by
  refine returns_ofRestartable hi hl hb fun e he => Or.inl ?_
  rw [enc.encodeString_result] at he
  exact Progress.failure_of_count he

/-- Without a destination the call tells whether the encoding has a shift state. -/
theorem returns_shiftReport (wc : UInt32) :
    (wctomb wc none).Returns enc s (.int (if enc.isStateful then 1 else 0)) := by
  cases enc.isStateful with
  | true => exact .unconverted (Nat.le_refl 1) rfl rfl
  | false => exact .unconverted (Nat.zero_le 1) rfl rfl

/-- A call with C conventions returns in one of the ways. -/
theorem exists_returns (enc : Encoding) (s : ConversionState) (hc : c.isC = true) :
    ∃ r, (c.run enc s).1.returned? = some r ∧ c.Returns enc s r := by
  cases c with
  | mbtowc source | mblen source =>
    exact ⟨_, rfl, returns_ofResult rfl rfl rfl rfl fun e => Encoding.decodeOne_failure⟩
  | mbrtowc source | mbrlen source =>
    refine ⟨_, rfl, returns_ofRestartable rfl rfl rfl fun e he => ?_⟩
    exact (Encoding.decodeOne_failure he).imp_right fun h => ⟨h, rfl⟩
  | wctomb wc destination =>
    cases destination with
    | none => exact ⟨_, rfl, returns_shiftReport wc⟩
    | some =>
      refine ⟨_, rfl, returns_ofResult rfl rfl rfl rfl fun e he => ?_⟩
      exact Or.inl (Encoding.encodeOne_failure he)
  | wcrtomb wc destination =>
    refine ⟨_, rfl, returns_ofRestartable rfl rfl rfl fun e he => ?_⟩
    exact Or.inl (Encoding.encodeOne_failure he)
  | mbsnrtowcs hasHandle source =>
    cases hasHandle with
    | false => exact ⟨_, rfl, .noHandle rfl rfl⟩
    | true =>
      cases source with
      | none => exact ⟨_, rfl, .unconverted (Nat.zero_le 1) rfl rfl⟩
      | some => exact ⟨_, rfl, returns_decodeString rfl rfl rfl⟩
  | wcsnrtombs hasHandle source =>
    cases hasHandle with
    | false => exact ⟨_, rfl, .noHandle rfl rfl⟩
    | true =>
      cases source with
      | none => exact ⟨_, rfl, .unconverted (Nat.zero_le 1) rfl rfl⟩
      | some => exact ⟨_, rfl, returns_encodeString rfl rfl rfl⟩
  | mbstowcs source =>
    cases source with
    | none => exact ⟨_, rfl, .unconverted (Nat.zero_le 1) rfl rfl⟩
    | some => exact ⟨_, rfl, returns_decodeString rfl rfl rfl⟩
  | wcstombs source =>
    cases source with
    | none => exact ⟨_, rfl, .unconverted (Nat.zero_le 1) rfl rfl⟩
    | some => exact ⟨_, rfl, returns_encodeString rfl rfl rfl⟩
  | _ => cases hc

/-- Other calls return nothing to a C program. -/
theorem returned?_eq_none (hc : c.isC = false) : (c.run enc s).1.returned? = none := by
  cases c <;> first | rfl | cases hc

/-- The count of a call that returns one, if it fits, is what it returns. -/
theorem CountFits.code_counted {n : Nat} (h : c.CountFits enc s)
    (hn : n ≤ 1 ∨ c.behind enc s = some (.ok n)) : (c.counted n).code = n := by
  refine Conversion.code_counted fun hint => ?_
  rcases hn with hle | hb
  · exact Nat.lt_of_le_of_lt hle (by decide)
  · exact h hint n hb

/-- A call whose count fits publishes an error number exactly where it returns -1. -/
theorem Returns.errno? {r : Returned} (h : c.Returns enc s r) (hfits : c.CountFits enc s) :
    r.errno? = if r.code = -1 then some c.failureNumber else none := by
  have hcount : ∀ n : Nat, n ≤ 1 ∨ c.behind enc s = some (.ok n) →
      (c.counted n).errno? = if (c.counted n).code = -1 then some c.failureNumber else none := by
    intro n hn
    have hcode : (c.counted n).code ≠ -1 := by
      rw [hfits.code_counted hn]
      omega
    rw [if_neg hcode, errno?_counted]
  cases h with
  | noHandle hl => simp only [failureNumber, hl, Returned.code, Returned.errno?, ite_true]
  | unconverted hn => exact hcount _ (Or.inl hn)
  | converted _ hb => exact hcount _ (Or.inr hb)
  | invalid hl | incomplete hl =>
    simp only [failureNumber, hl, Returned.code, Returned.errno?, ite_true, Bool.false_eq_true,
      ite_false]
  | unfinished => rfl

theorem Returns.tellsUnfinished {r : Returned} (h : c.Returns enc s r)
    (hfits : c.CountFits enc s) (hr : r.code = -2) : c.tellsUnfinished = true := by
  cases h with
  | unfinished _ ht => exact ht
  | noHandle | invalid | incomplete => cases hr
  | unconverted hn =>
    rw [hfits.code_counted (Or.inl hn)] at hr
    omega
  | converted _ hb =>
    rw [hfits.code_counted (Or.inr hb)] at hr
    omega

theorem Returns.not_insufficient {r : Returned} (h : c.Returns enc s r) (needed : Nat) :
    c.behind enc s ≠ some (.error (.insufficientSpace needed)) := by
  cases h with
  | noHandle _ hb | unconverted _ _ hb | converted _ hb | invalid _ hb | incomplete _ _ hb
  | unfinished _ _ hb =>
    rw [hb]
    intro hfail
    cases hfail

end Returning

/-- A call with C conventions that runs on a state reports its failures as all such calls do. -/
structure ReportsAlike (enc : Encoding) (s : ConversionState) (c : Conversion) : Prop where
  /-- What it returns is told by the conversion behind it. -/
  returns : ∃ r, (c.run enc s).1.returned? = some r ∧ c.Returns enc s r
  /-- This conversion never finds its destination too short. -/
  not_insufficient : ∀ needed, c.behind enc s ≠ some (.error (.insufficientSpace needed))
  /-- A source that an `int` can count has a count that fits. -/
  fits : (∀ source ∈ c.intSource?, source.length < 2 ^ 31) → c.CountFits enc s
  /-- Where the count fits, only two calls return -2. -/
  unfinished : c.CountFits enc s → (c.run enc s).1.returned?.map Returned.code = some (-2) →
    (∃ source hasSlot, c = .mbrtowc source hasSlot) ∨ ∃ source, c = .mbrlen source
  /-- Where the count fits, a call that returns -1 publishes its error number, and any other one
  publishes none. -/
  errno : c.CountFits enc s → (c.run enc s).1.returned?.bind Returned.errno? =
    if (c.run enc s).1.returned?.map Returned.code = some (-1) then some c.failureNumber else none
  /-- A call that writes a character replaces the first bytes of its destination, which are no
  more than a character of the encoding can have, and no more than eight. -/
  stores : ∀ wc destination, c = .wctomb wc destination ∨ c = .wcrtomb wc destination →
    ∃ r bytes, (c.run enc s).1 = .returnedBytes r (store bytes destination) ∧
      bytes.length ≤ enc.maxCharacterLength ∧ enc.maxCharacterLength ≤ 8

/-- The bytes of a character are stored whole or not at all. -/
theorem exists_stored (enc : Encoding) (s : ConversionState) {c : Conversion} {wc : UInt32}
    {destination : Destination UInt8}
    (h : c = .wctomb wc destination ∨ c = .wcrtomb wc destination) :
    ∃ r bytes, (c.run enc s).1 = .returnedBytes r (store bytes destination) ∧
      bytes.length ≤ enc.maxCharacterLength := by
  have hlength := fun wc => enc.length_encodeOne_stored (some longestCharacter) wc s
  rcases h with rfl | rfl
  · cases destination with
    | none => exact ⟨_, [], rfl, Nat.zero_le _⟩
    | some => exact ⟨_, _, rfl, hlength wc⟩
  · cases destination with
    | none => exact ⟨_, [], rfl, Nat.zero_le _⟩
    | some => exact ⟨_, _, rfl, hlength wc⟩

theorem reportsAlike (enc : Encoding) (s : ConversionState) {c : Conversion}
    (hc : c.isC = true) : c.ReportsAlike enc s := by
  obtain ⟨r, hr, h⟩ := exists_returns enc s hc
  refine ⟨⟨r, hr, h⟩, h.not_insufficient, countFits_of_length, ?_, ?_, ?_⟩
  · rw [hr]
    intro hfits hcode
    have ht := h.tellsUnfinished hfits (Option.some.inj hcode)
    cases c with
    | mbrtowc source hasSlot => exact Or.inl ⟨source, hasSlot, rfl⟩
    | mbrlen source => exact Or.inr ⟨source, rfl⟩
    | _ => cases ht
  · simp only [hr, Option.map_some, Option.some.injEq, Option.bind_some]
    exact h.errno?
  · intro wc destination hform
    obtain ⟨r, bytes, hrun, hlength⟩ := exists_stored enc s hform
    exact ⟨r, bytes, hrun, hlength, Encoding.maxCharacterLength_le enc⟩

end Conversion

/-- The error number that a call sets, told by its reply: one that is set explicitly, or that of a
C call that returns -1. -/
def Call.sets? : Call → Reply → Option Errno
  | .setErrno e _, _ => some e
  | .convert _ _ c, .converted answer =>
      if answer.returned?.map Returned.code = some (-1) then some c.failureNumber else none
  | _, _ => none

namespace World

/-- The error number after calls: the last one that they have set, or else the one before. -/
def errnoAfter (before : Errno) (calls : List Call) (reports : List Report) : Errno :=
  ((calls.zip reports).filterMap fun (call, reply, _) => call.sets? reply).getLast?.getD before

@[simp] theorem errno_publish (w : World) (e : Option Errno) :
    (w.publish e).thread.errno = e.getD w.thread.errno := by
  cases e <;> rfl

@[simp] theorem errno_save (w : World) (usage : StateUsage) (name : Option String)
    (s : ConversionState) : (w.save usage name s).thread.errno = w.thread.errno := by
  cases usage <;> cases name <;> rfl

/-- The call can return its count, if it returns one. -/
def CountFits (w : World) : Call → Prop
  | .convert encoding name c =>
      c.CountFits (encoding.getD w.currentEncoding) (w.load c.usage name)
  | _ => True

/-- Each of some calls, one after another, can return its count. -/
def CountsFit (w : World) : List Call → Prop
  | [] => True
  | call :: rest => w.CountFits call ∧ (w.perform call).2.CountsFit rest

/-- Calls fit that have no source too long for an `int`. -/
theorem countsFit_of_length {calls : List Call} (h : ∀ encoding name c,
    .convert encoding name c ∈ calls → ∀ source ∈ c.intSource?, source.length < 2 ^ 31)
    (w : World) : w.CountsFit calls := by
  induction calls generalizing w with
  | nil => exact trivial
  | cons call rest ih =>
    refine ⟨?_, ih (fun encoding name c hc => h encoding name c (List.mem_cons_of_mem _ hc)) _⟩
    cases call with
    | convert encoding name c =>
      exact Conversion.countFits_of_length (h encoding name c List.mem_cons_self)
    | _ => exact trivial

/-- A call leaves the error number alone unless it sets it. -/
theorem errno_perform (w : World) (call : Call) (hfits : w.CountFits call) :
    (w.perform call).2.thread.errno = (call.sets? (w.perform call).1).getD w.thread.errno := by
  cases call with
  | convert encoding name c =>
    simp only [perform_convert, convert, errno_publish, errno_save, Call.sets?]
    congr 1
    cases hc : c.isC with
    | true => exact (Conversion.reportsAlike _ _ hc).errno hfits
    | false =>
      rw [Conversion.returned?_eq_none hc]
      rfl
  | thread calls =>
    rw [perform_thread]
    rfl
  | useGlobally name =>
    simp only [perform]
    split <;> rfl
  | useInThread name =>
    simp only [perform]
    split <;> rfl
  | reset name => cases name <;> rfl
  | implicit slot reset => cases reset <;> rfl
  | inspect | mbsinit | encodings | setEnvironment | setErrno | setLocale
  | maxCharacterLength => rfl

theorem errnoAfter_cons (before : Errno) (call : Call) (rest : List Call) (reply : Reply)
    (seen : Errno × Option ConversionState) (reports : List Report) :
    errnoAfter before (call :: rest) ((reply, seen) :: reports) =
      errnoAfter ((call.sets? reply).getD before) rest reports := by
  simp only [errnoAfter, List.zip_cons_cons, List.filterMap_cons]
  cases call.sets? reply with
  | none => rfl
  | some e => rw [List.getLast?_cons, Option.getD_some, Option.getD_some]

/-- Over calls one after another the error number is the last one that was set. -/
theorem errno_performAll (w : World) (calls : List Call) (hfits : w.CountsFit calls) :
    (w.performAll calls).2.thread.errno =
      errnoAfter w.thread.errno calls (w.performAll calls).1 := by
  induction calls generalizing w with
  | nil => rfl
  | cons call rest ih =>
    rw [performAll_cons, ih _ hfits.2, errno_perform _ _ hfits.1, errnoAfter_cons]

/-- The error number of a thread changes as its own calls report, where their counts fit. -/
structure KeepsErrno (w : World) : Prop where
  /-- One call sets it where the call returns -1 or sets it explicitly, and otherwise leaves it. -/
  call : ∀ call : Call, w.CountFits call →
    (w.perform call).2.thread.errno = (call.sets? (w.perform call).1).getD w.thread.errno
  /-- After calls one after another it is the last one that was set. -/
  calls : ∀ calls : List Call, w.CountsFit calls → (w.performAll calls).2.thread.errno =
    errnoAfter w.thread.errno calls (w.performAll calls).1

/-- Every call with C conventions reports its failures alike, in every encoding and from every
state, and the error number of every thread follows what its own calls report; a count that an
`int` has no room for is the one thing that is not told apart from a failure. -/
theorem failures_reported :
    (∀ (enc : Encoding) (s : ConversionState) (c : Conversion), c.isC = true →
      c.ReportsAlike enc s) ∧ ∀ w : World, w.KeepsErrno :=
  ⟨fun enc s _ hc => Conversion.reportsAlike enc s hc,
    fun w => ⟨w.errno_perform, w.errno_performAll⟩⟩

/-- A thread sets the error number, reads the first byte of an escape sequence, which is no
failure, and then a byte that cannot follow it. -/
theorem failures_reported_unfinished :
    let read : List UInt8 → Conversion := fun source => .mbrtowc (some source) true
    let calls : List Call := [.setErrno .overflow .direct, .convert (some .jis) none (read [0x1B]),
      .convert (some .jis) none (read [0x41]), .convert (some .jis) none (.mblen (some [0x41]))]
    let w := (start .unset).performAll calls
    (read [0x41]).isC = true ∧ (read [0x41]).ReportsAlike .jis ⟨[0x1B], .ascii⟩ ∧
      (start .unset).CountsFit calls ∧
      w.1.map (·.2.1) = [.overflow, .overflow, .illegalSequence, .illegalSequence] ∧
      w.2.thread.errno = errnoAfter .success calls w.1 := by
  intro read calls w
  have hfits : (start .unset).CountsFit calls := by
    refine countsFit_of_length (fun encoding name c hc source hsource => ?_) _
    simp only [calls, read, List.mem_cons, List.not_mem_nil, or_false, reduceCtorEq, false_or,
      Call.convert.injEq] at hc
    rcases hc with ⟨_, _, rfl⟩ | ⟨_, _, rfl⟩ | ⟨_, _, rfl⟩
    · cases hsource
    · cases hsource
    · cases hsource
      decide
  exact ⟨rfl, failures_reported.1 .jis ⟨[0x1B], .ascii⟩ (read [0x41]) rfl, hfits, rfl,
    (failures_reported.2 (start .unset)).calls calls hfits⟩

/-- Behind 1431655764 escape sequences a pair is returned as -2 by calls that tell nothing
unfinished, and behind 2863311530 a letter as -1, with no error number. And a thread keeps its
error number where a call of another thread returns -1. -/
theorem failures_reported_truncated :
    let run (count : Nat) (last : EscapeSequence) (rest : List UInt8) : List UInt8 :=
      EscapeSequence.bytesOf (List.replicate (count - 1) .pairs ++ [last]) ++ rest
    let returned (c : Conversion) : Option Returned := (c.run .jis .initial).1.returned?
    let pair := run 1431655764 .pairs [0x30, 0x21]
    let letter := Conversion.mbtowc (some (run 2863311530 .ascii [0x41])) true
    let inner : List Call := [.convert (some .utf8) none (.mblen (some [0xFF]))]
    (returned (.mbtowc (some pair) true)).map Returned.code = some (-2) ∧
      (returned (.mblen (some pair))).map Returned.code = some (-2) ∧
      (returned letter).map Returned.code = some (-1) ∧
      (returned letter).bind Returned.errno? = none ∧
      ((start .unset).performAll inner).1.map (·.2.1) = [.illegalSequence] ∧
      ((start .unset).performAll [.setErrno .overflow .direct, .thread inner]).2.thread.errno =
        .overflow := by
  intro run returned pair letter inner
  have hpair :=
    Encoding.decodeOne_behind_run (1431655764 - 1) .pairs [0x30, 0x21] rfl (by decide)
  have hletter :=
    Encoding.decodeOne_behind_run (2863311530 - 1) .ascii [0x41] rfl (by decide)
  have hreturned (source : List UInt8) (hasSlot : Bool) :
      returned (.mbtowc (some source) hasSlot) =
        some (.ofResult (Encoding.jis.decodeOne (some source) .initial).result) := rfl
  have hlength (source : List UInt8) : returned (.mblen (some source)) =
      some (.ofResult (Encoding.jis.decodeOne (some source) .initial).result) := rfl
  refine ⟨?_, ?_, ?_, ?_, rfl, rfl⟩
  · rw [hreturned, hpair]
    rfl
  · rw [hlength, hpair]
    rfl
  · rw [hreturned, hletter]
    rfl
  · rw [hreturned, hletter]
    rfl

end World

end FormattedText
