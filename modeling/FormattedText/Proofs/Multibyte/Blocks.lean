import FormattedText.Proofs.Multibyte.RoundTrip

/-!
# Encoding a text in blocks

A wide text may be encoded by many calls, each into a small destination, and the text
may itself come in slices. A call that stops for want of room has not begun the next
character, so the following call goes on as if there had been no stop: `encodeAll_slice`
says so of one call, with whatever comes behind its slice. By induction along the calls
their blocks together are what a single call writes that has room for everything, and the
calls end as that one ends (`encodeInCalls_eq_once`).
-/

namespace FormattedText

/-- Is there something to go on with after a conversion that ended so? -/
def Ending.goesOn : Ending → Bool
  | .full | .drained => true
  | .terminated | .invalid => false

namespace StringConversion

variable {α β : Type}

/-- How a conversion into a destination ended, as its caller can tell: a terminator is
stored behind what is counted, and what is left stands at the cursor. -/
def ending (c : StringConversion α β) : Ending :=
  match c.result with
  | .error _ => .invalid
  | .ok n =>
      if n < c.stored.length then .terminated
      else if (c.cursor.getD []).isEmpty then .drained else .full

/-- How far a conversion into a destination got, as its caller can tell. -/
def outcome (c : StringConversion α β) : Progress α β :=
  ⟨c.stored, c.ending, c.cursor.getD [], c.state⟩

end StringConversion

/-- What a caller can tell of how far a conversion got: nothing is left behind a
terminator, and the terminator and a failure make the state initial. -/
def Progress.seen {α β : Type} (p : Progress α β) : Progress α β :=
  match p.ending with
  | .full | .drained => p
  | .terminated => { p with rest := [], state := .initial }
  | .invalid => { p with state := .initial }

namespace Progress

variable {α β : Type}

theorem seen_of_goesOn {p : Progress α β} (h : p.ending.goesOn = true) : p.seen = p := by
  obtain ⟨converted, ending, rest, state⟩ := p
  cases ending with
  | full | drained => rfl
  | terminated | invalid => cases h

theorem ending_seen (p : Progress α β) : p.seen.ending = p.ending := by
  obtain ⟨converted, ending, rest, state⟩ := p
  cases ending <;> rfl

theorem seen_after (front : List β) (p : Progress α β) :
    (p.after front).seen = p.seen.after front := by
  obtain ⟨converted, ending, rest, state⟩ := p
  cases ending <;> rfl

end Progress

/-- A call that encodes a part of a text into a block. -/
structure BlockCall where
  /-- What is left of the slice that the call is given. -/
  source : List UInt32
  /-- The slices behind it. -/
  later : List (List UInt32)
  /-- The effect of the call. -/
  conversion : StringConversion UInt32 UInt8

namespace BlockCall

/-- What is left of the whole text after the call; a text ends at its terminator. -/
def left (call : BlockCall) : List UInt32 :=
  if call.conversion.ending = .terminated then []
  else call.conversion.cursor.getD [] ++ call.later.flatten

/-- The call converted a character or more of its slice. -/
def Advances (call : BlockCall) : Prop :=
  (call.conversion.cursor.getD []).length < call.source.length

/-- The outcome of calls one after another from the state `s` on: all blocks together, and
what the last call has left. -/
def outcome (s : ConversionState) (calls : List BlockCall) : Progress UInt32 UInt8 :=
  match calls.getLast? with
  | none => ⟨[], .drained, [], s⟩
  | some last => ⟨calls.flatMap (·.conversion.stored), last.conversion.ending, last.left,
      last.conversion.state⟩

theorem outcome_single (s : ConversionState) (call : BlockCall) :
    outcome s [call] =
      ⟨call.conversion.stored, call.conversion.ending, call.left, call.conversion.state⟩ := by
  simp only [outcome, List.getLast?_singleton, List.flatMap_singleton]

/-- The calls after the first go on from the state that it has left. -/
theorem outcome_cons (s : ConversionState) (call : BlockCall) {calls : List BlockCall}
    (h : calls ≠ []) :
    outcome s (call :: calls) =
      (outcome call.conversion.state calls).after call.conversion.stored := by
  obtain ⟨last, hlast⟩ := Option.ne_none_iff_exists'.mp (mt List.getLast?_eq_none_iff.mp h)
  simp only [outcome, List.getLast?_cons, hlast, Option.getD_some, List.flatMap_cons,
    Progress.after]

end BlockCall

namespace Encoding

/-- Encodes the slices of a text in calls into destinations of the given capacities, one
after another on the remaining cursor and the same state, until a terminator is converted,
all slices are used up or a call has failed. A slice that is used up needs no call. -/
def encodeInCalls (enc : Encoding) (s : ConversionState) :
    List Nat → List (List UInt32) → List BlockCall
  | [], _ => []
  | capacity :: capacities, slices =>
      match slices.dropWhile (·.isEmpty) with
      | [] => []
      | source :: later =>
          let c := enc.encodeString (some capacity) (some source) s
          ⟨source, later, c⟩ ::
            if c.ending.goesOn then enc.encodeInCalls c.state capacities (c.cursor.getD [] :: later)
            else []

section Slices

variable {enc : Encoding} {s : ConversionState}

/-- All that encoding can do with the first character of a text. -/
inductive EncodeStep (enc : Encoding) (room : Option Nat) (s : ConversionState) (wc : UInt32)
    (w : List UInt32) : Progress UInt32 UInt8 → Prop where
  /-- The character finds no room. One without bytes is not looked at if the room is spent. -/
  | full (hroom : ∀ bytes t, enc.encode s wc = some (bytes, t) →
        hasRoomFor room bytes.length = false)
      (hspent : enc.encode s wc = none → hasRoomFor room 1 = false) :
      EncodeStep enc room s wc w ⟨[], .full, wc :: w, s⟩
  /-- The character has no bytes. -/
  | refused (hroom : hasRoomFor room 1 = true) (he : enc.encode s wc = none) :
      EncodeStep enc room s wc w ⟨[], .invalid, wc :: w, s⟩
  /-- The character is the terminator. -/
  | terminator {bytes : List UInt8} {t : ConversionState} (hz : wc = 0)
      (he : enc.encode s wc = some (bytes, t)) (hroom : hasRoomFor room bytes.length = true) :
      EncodeStep enc room s wc w ⟨bytes, .terminated, w, t⟩
  /-- The bytes of the character come before those of the others. -/
  | character {bytes : List UInt8} {t : ConversionState} (hz : wc ≠ 0)
      (he : enc.encode s wc = some (bytes, t)) (hroom : hasRoomFor room bytes.length = true) :
      EncodeStep enc room s wc w
        ((enc.encodeAll (roomAfter room bytes.length) t w).after bytes)

theorem encodeAll_step (enc : Encoding) (room : Option Nat) (s : ConversionState) (wc : UInt32)
    (w : List UInt32) : EncodeStep enc room s wc w (enc.encodeAll room s (wc :: w)) := by
  rw [encodeAll]
  split
  · rename_i hspent
    have hnone : hasRoomFor room 1 = false := by rw [hasRoomFor_one, hspent]; rfl
    refine .full (fun bytes t he => ?_) fun _ => hnone
    rw [Bool.eq_false_iff] at hnone ⊢
    exact fun hroom => hnone (hasRoomFor_of_le hroom (length_of_encode he).1)
  rename_i hspent
  split
  · rename_i he
    refine .refused ?_ he
    rw [hasRoomFor_one, Bool.not_eq_true', Bool.eq_false_iff]
    exact hspent
  rename_i bytes t he
  split
  · rename_i hroom
    refine .full (fun bytes' t' he' => ?_) fun hnone => ?_
    · rw [he] at he'
      cases he'
      exact (Bool.not_eq_true' _).mp hroom
    · rw [he] at hnone
      cases hnone
  rename_i hroom
  rw [Bool.not_eq_true', Bool.not_eq_false] at hroom
  split
  · rename_i hz
    exact .terminator hz he hroom
  · rename_i hz
    exact .character hz he hroom

/-- A character without bytes ends the encoding if the room is not spent. -/
theorem encodeAll_refused {room : Option Nat} {wc : UInt32} (he : enc.encode s wc = none)
    (hroom : hasRoomFor room 1 = true) (w : List UInt32) :
    enc.encodeAll room s (wc :: w) = ⟨[], .invalid, wc :: w, s⟩ := by
  simp only [encodeAll, isSpent_of_hasRoomFor hroom (Nat.le_refl 1), he, Bool.false_eq_true,
    ite_false]

/-- A character that finds no room is left to the next call. -/
theorem encodeAll_full {room : Option Nat} {wc : UInt32}
    (hroom : ∀ bytes t, enc.encode s wc = some (bytes, t) → hasRoomFor room bytes.length = false)
    (hspent : enc.encode s wc = none → hasRoomFor room 1 = false) (w : List UInt32) :
    enc.encodeAll room s (wc :: w) = ⟨[], .full, wc :: w, s⟩ := by
  have hstep := enc.encodeAll_step room s wc w
  generalize enc.encodeAll room s (wc :: w) = p at hstep ⊢
  cases hstep with
  | full => rfl
  | refused hone he =>
    rw [hspent he] at hone
    cases hone
  | terminator _ he hfits | character _ he hfits =>
    rw [hroom _ _ he] at hfits
    cases hfits

/-- A character that fits is encoded. -/
theorem encodeAll_cons {room : Option Nat} {t : ConversionState} {wc : UInt32}
    {bytes : List UInt8} (he : enc.encode s wc = some (bytes, t))
    (hroom : hasRoomFor room bytes.length = true) (w : List UInt32) :
    enc.encodeAll room s (wc :: w) =
      if wc = 0 then ⟨bytes, .terminated, w, t⟩
      else (enc.encodeAll (roomAfter room bytes.length) t w).after bytes := by
  simp only [encodeAll, isSpent_of_hasRoomFor hroom (length_of_encode he).1, he, hroom,
    Bool.not_true, Bool.false_eq_true, ite_false]

/-- Without a bound only the character itself decides. -/
theorem encodeAll_none_cons (enc : Encoding) (s : ConversionState) (wc : UInt32)
    (w : List UInt32) :
    enc.encodeAll none s (wc :: w) =
      match enc.encode s wc with
      | none => ⟨[], .invalid, wc :: w, s⟩
      | some (bytes, t) =>
          if wc = 0 then ⟨bytes, .terminated, w, t⟩ else (enc.encodeAll none t w).after bytes :=
  rfl

/-- What a call leaves is a part of its source, and it leaves something exactly where it
found no room. -/
theorem length_rest_encodeAll (enc : Encoding) (room : Option Nat) (s : ConversionState)
    (w : List UInt32) :
    (enc.encodeAll room s w).rest.length ≤ w.length ∧
      ((enc.encodeAll room s w).ending = .full → (enc.encodeAll room s w).rest ≠ []) ∧
      ((enc.encodeAll room s w).ending = .drained → (enc.encodeAll room s w).rest = []) := by
  induction w generalizing room s with
  | nil => exact ⟨Nat.le_refl 0, nofun, fun _ => rfl⟩
  | cons wc w ih =>
    have hstep := enc.encodeAll_step room s wc w
    generalize enc.encodeAll room s (wc :: w) = p at hstep ⊢
    cases hstep with
    | full => exact ⟨Nat.le_refl _, fun _ => List.cons_ne_nil wc w, nofun⟩
    | refused => exact ⟨Nat.le_refl _, nofun, nofun⟩
    | terminator => exact ⟨Nat.le_succ _, nofun, nofun⟩
    | @character bytes t =>
      obtain ⟨hlen, hfull, hdrained⟩ := ih (roomAfter room bytes.length) t
      exact ⟨Nat.le_succ_of_le hlen, hfull, hdrained⟩

/-- A call that leaves bytes has converted a character or more. -/
theorem length_rest_lt {room : Option Nat} {w : List UInt32}
    (h : (enc.encodeAll room s w).converted ≠ []) :
    (enc.encodeAll room s w).rest.length < w.length := by
  cases w with
  | nil => exact absurd rfl h
  | cons wc w =>
    have hstep := enc.encodeAll_step room s wc w
    generalize enc.encodeAll room s (wc :: w) = p at h hstep ⊢
    cases hstep with
    | full | refused => exact absurd rfl h
    | terminator => exact Nat.lt_succ_self _
    | @character bytes t =>
      exact Nat.lt_succ_of_le (enc.length_rest_encodeAll (roomAfter room bytes.length) t w).1

/-- Encoding a slice within a bound is the beginning of encoding what the slice begins, if
there is as much room for that or more. Where the bound or the end of the slice stopped it,
the rest goes on from its state; otherwise it has met the end of the whole. -/
theorem encodeAll_slice_within (enc : Encoding) {room whole : Option Nat}
    (hle : ∀ n, hasRoomFor room n = true → hasRoomFor whole n = true) (s : ConversionState)
    (slice later : List UInt32) {p : Progress UInt32 UInt8} (hp : enc.encodeAll room s slice = p) :
    enc.encodeAll whole s (slice ++ later) =
      if p.ending.goesOn then
        (enc.encodeAll (roomAfter whole p.converted.length) p.state (p.rest ++ later)).after
          p.converted
      else { p with rest := p.rest ++ later } := by
  induction slice generalizing room whole s p with
  | nil =>
    subst hp
    simp only [encodeAll, Ending.goesOn, ite_true, Progress.after, List.length_nil, roomAfter_zero,
      List.nil_append]
  | cons wc w ih =>
    have hstep := enc.encodeAll_step room s wc w
    rw [hp] at hstep
    rw [List.cons_append]
    cases hstep with
    | full =>
      simp only [Ending.goesOn, ite_true, Progress.after, List.length_nil, roomAfter_zero,
        List.nil_append, List.cons_append]
    | refused hroom he =>
      rw [encodeAll_refused he (hle 1 hroom)]
      rfl
    | terminator hz he hroom =>
      rw [encodeAll_cons he (hle _ hroom), if_pos hz]
      rfl
    | @character bytes t hz he hroom =>
      have hlater : ∀ n, hasRoomFor (roomAfter room bytes.length) n = true →
          hasRoomFor (roomAfter whole bytes.length) n = true := by
        intro n hn
        rw [hasRoomFor_roomAfter hroom] at hn
        rw [hasRoomFor_roomAfter (hle _ hroom)]
        exact hle _ hn
      rw [encodeAll_cons he (hle _ hroom), if_neg hz, ih hlater t rfl]
      generalize enc.encodeAll (roomAfter room bytes.length) t w = q
      by_cases hon : q.ending.goesOn = true
      · simp only [Progress.after, hon, ite_true, List.append_assoc, List.length_append,
          roomAfter_roomAfter]
      · simp only [Progress.after, hon, Bool.false_eq_true, ite_false]

/-- Without a bound for the whole. -/
theorem encodeAll_slice (enc : Encoding) (room : Option Nat) (s : ConversionState)
    (slice later : List UInt32) {p : Progress UInt32 UInt8} (hp : enc.encodeAll room s slice = p) :
    enc.encodeAll none s (slice ++ later) =
      if p.ending.goesOn then (enc.encodeAll none p.state (p.rest ++ later)).after p.converted
      else { p with rest := p.rest ++ later } :=
  enc.encodeAll_slice_within (fun _ _ => rfl) s slice later hp

/-- A destination that is not full was no bound. -/
theorem encodeAll_eq_of_not_full {room whole : Option Nat}
    (hle : ∀ n, hasRoomFor room n = true → hasRoomFor whole n = true) {w : List UInt32}
    (h : (enc.encodeAll room s w).ending ≠ .full) :
    enc.encodeAll room s w = enc.encodeAll whole s w := by
  have hrest := (enc.length_rest_encodeAll room s w).2.2
  have hslice := enc.encodeAll_slice_within hle s w [] rfl
  rw [List.append_nil, List.append_nil] at hslice
  rw [hslice]
  generalize enc.encodeAll room s w = p at h hrest
  obtain ⟨converted, ending, rest, state⟩ := p
  cases ending with
  | full => exact absurd rfl h
  | drained =>
    have hnil : rest = [] := hrest rfl
    subst hnil
    simp only [Ending.goesOn, ite_true, encodeAll, Progress.after, List.append_nil]
  | terminated => rfl
  | invalid => rfl

end Slices

section Room

variable {enc : Encoding} {room : Nat}

theorem one_le_maxCharacterLength (enc : Encoding) : 1 ≤ enc.maxCharacterLength := by
  cases enc <;> decide

/-- Where there is room for any character, only the character itself decides. -/
theorem encodeAll_some_cons (hroom : enc.maxCharacterLength ≤ room) (s : ConversionState)
    (wc : UInt32) (w : List UInt32) :
    enc.encodeAll (some room) s (wc :: w) =
      match enc.encode s wc with
      | none => ⟨[], .invalid, wc :: w, s⟩
      | some (bytes, t) =>
          if wc = 0 then ⟨bytes, .terminated, w, t⟩
          else (enc.encodeAll (some (room - bytes.length)) t w).after bytes := by
  cases he : enc.encode s wc with
  | none =>
    exact encodeAll_refused he
      (hasRoomFor_some (Nat.le_trans enc.one_le_maxCharacterLength hroom)) w
  | some p =>
    obtain ⟨bytes, t⟩ := p
    exact encodeAll_cons he (hasRoomFor_some (Nat.le_trans (length_of_encode he).2 hroom)) w

/-- A destination with room for any character takes at least one, and so a byte, unless the
call ends the whole. -/
theorem encodeAll_advances (hroom : enc.maxCharacterLength ≤ room) (s : ConversionState)
    {w : List UInt32} (hne : w ≠ []) (h : (enc.encodeAll (some room) s w).ending.goesOn = true) :
    (enc.encodeAll (some room) s w).rest.length < w.length ∧
      (enc.encodeAll (some room) s w).converted ≠ [] := by
  obtain ⟨wc, w, rfl⟩ := List.exists_cons_of_ne_nil hne
  rw [encodeAll_some_cons hroom] at h ⊢
  cases he : enc.encode s wc with
  | none =>
    rw [he] at h
    cases h
  | some p =>
    obtain ⟨bytes, t⟩ := p
    simp only [he] at h ⊢
    by_cases hz : wc = 0
    · rw [if_pos hz] at h
      cases h
    · rw [if_neg hz]
      have hbytes := List.ne_nil_of_length_pos (length_of_encode he).1
      exact ⟨Nat.lt_succ_of_le (enc.length_rest_encodeAll _ t w).1,
        List.append_ne_nil_of_left_ne_nil hbytes _⟩

/-- A destination with room for as many of the longest characters is never full. -/
theorem ending_encodeAll_ample (s : ConversionState) {w : List UInt32}
    (h : w.length * enc.maxCharacterLength ≤ room) :
    (enc.encodeAll (some room) s w).ending ≠ .full := by
  induction w generalizing room s with
  | nil => exact nofun
  | cons wc w ih =>
    rw [List.length_cons, Nat.succ_mul] at h
    rw [encodeAll_some_cons (by omega)]
    cases he : enc.encode s wc with
    | none => exact nofun
    | some p =>
      obtain ⟨bytes, t⟩ := p
      have hlen := (length_of_encode he).2
      have hmore : w.length * enc.maxCharacterLength ≤ room - bytes.length := by omega
      by_cases hz : wc = 0
      · simp only [hz, ite_true]
        exact nofun
      · simp only [hz, ite_false]
        exact ih t hmore

end Room

section Calls

variable {enc : Encoding} {s : ConversionState}

/-- A terminator leaves its bytes. -/
theorem converted_of_terminated (enc : Encoding) (room : Option Nat) (s : ConversionState)
    (w : List UInt32) (h : (enc.encodeAll room s w).ending = .terminated) :
    1 ≤ (enc.encodeAll room s w).converted.length := by
  induction w generalizing room s with
  | nil => cases h
  | cons wc w ih =>
    have hstep := enc.encodeAll_step room s wc w
    generalize enc.encodeAll room s (wc :: w) = p at h hstep ⊢
    cases hstep with
    | full => cases h
    | refused => cases h
    | terminator _ he => exact (length_of_encode he).1
    | @character bytes t =>
      have hmore := ih _ t h
      simp only [Progress.after, List.length_append]
      omega

theorem getD_remaining {α : Type} (rest : List α) (s : ConversionState) :
    (remaining rest s).getD [] = rest := by
  unfold remaining
  split
  · rename_i h
    rw [List.isEmpty_iff.mp (Bool.and_eq_true_iff.mp h).1]
    rfl
  · rfl

/-- A call shows its caller how far it got. -/
theorem outcome_encodeString (enc : Encoding) (capacity : Nat) (s : ConversionState)
    (w : List UInt32) :
    (enc.encodeString (some capacity) (some w) s).outcome =
      (enc.encodeAll (some capacity) s w).seen := by
  have hlen := enc.converted_of_terminated (some capacity) s w
  obtain ⟨_, hfull, hdrained⟩ := enc.length_rest_encodeAll (some capacity) s w
  simp only [encodeString, Option.isSome_some, ite_true]
  generalize enc.encodeAll (some capacity) s w = p at hlen hfull hdrained ⊢
  obtain ⟨converted, ending, rest, state⟩ := p
  cases ending with
  | terminated =>
    have hlt : converted.length - 1 < converted.length := Nat.sub_lt (hlen rfl) Nat.one_pos
    simp only [StringConversion.outcome, StringConversion.ending, hlt, ite_true, Progress.seen,
      Option.getD_none]
  | invalid => rfl
  | full =>
    have hrest : rest.isEmpty = false := List.isEmpty_eq_false_iff.mpr (hfull rfl)
    simp only [StringConversion.outcome, StringConversion.ending, Nat.lt_irrefl, getD_remaining,
      hrest, Bool.false_eq_true, ite_false, Progress.seen]
  | drained =>
    have hrest : rest = [] := hdrained rfl
    subst hrest
    simp only [StringConversion.outcome, StringConversion.ending, Nat.lt_irrefl, getD_remaining,
      List.isEmpty_nil, ite_true, ite_false, Progress.seen]

theorem ending_encodeString (enc : Encoding) (capacity : Nat) (s : ConversionState)
    (w : List UInt32) :
    (enc.encodeString (some capacity) (some w) s).ending =
      (enc.encodeAll (some capacity) s w).ending :=
  (congrArg Progress.ending (enc.outcome_encodeString capacity s w)).trans (Progress.ending_seen _)

/-- The only failure of a call is that of a character without bytes. -/
theorem result_encodeString (enc : Encoding) (capacity : Nat) (s : ConversionState)
    (w : List UInt32) (e : Failure) :
    (enc.encodeString (some capacity) (some w) s).result = .error e ↔
      (enc.encodeString (some capacity) (some w) s).ending = .invalid ∧ e = .invalidSequence := by
  rw [ending_encodeString]
  simp only [encodeString]
  generalize enc.encodeAll (some capacity) s w = p
  obtain ⟨converted, ending, rest, state⟩ := p
  cases ending with
  | invalid =>
    constructor
    · intro h
      cases h
      exact ⟨rfl, rfl⟩
    · rintro ⟨_, rfl⟩
      rfl
  | full | drained | terminated =>
    refine iff_of_false (fun h => ?_) (fun h => ?_)
    · cases h
    · cases h.1

theorem flatten_dropWhile_isEmpty {α : Type} (slices : List (List α)) :
    (slices.dropWhile (·.isEmpty)).flatten = slices.flatten := by
  induction slices with
  | nil => rfl
  | cons slice slices ih =>
    cases slice with
    | nil => exact ih
    | cons => rfl

/-- The slice that comes next has something in it. -/
theorem ne_nil_of_dropWhile_isEmpty {α : Type} {slices later : List (List α)} {slice : List α}
    (h : slices.dropWhile (·.isEmpty) = slice :: later) : slice ≠ [] := by
  induction slices with
  | nil => cases h
  | cons first slices ih =>
    cases first with
    | nil => exact ih h
    | cons a first =>
      cases h
      exact List.cons_ne_nil a first

theorem encodeInCalls_of_slice {capacity : Nat} {slices later : List (List UInt32)}
    {source : List UInt32} {c : StringConversion UInt32 UInt8}
    (hslices : slices.dropWhile (·.isEmpty) = source :: later)
    (hc : enc.encodeString (some capacity) (some source) s = c) (capacities : List Nat) :
    enc.encodeInCalls s (capacity :: capacities) slices =
      ⟨source, later, c⟩ ::
        if c.ending.goesOn then enc.encodeInCalls c.state capacities (c.cursor.getD [] :: later)
        else [] := by
  subst hc
  rw [encodeInCalls, hslices]

/-- A call that meets the end of the whole text is the last one. -/
theorem outcome_of_ended (s : ConversionState) (source : List UInt32) (later : List (List UInt32))
    {c : StringConversion UInt32 UInt8} {p : Progress UInt32 UInt8} (hout : c.outcome = p.seen)
    (h : p.ending.goesOn = false) :
    c.ending = p.ending ∧ BlockCall.outcome s [⟨source, later, c⟩] =
      ({ p with rest := p.rest ++ later.flatten } : Progress UInt32 UInt8).seen := by
  obtain ⟨converted, ending, rest, state⟩ := p
  rw [BlockCall.outcome_single]
  cases ending with
  | full | drained => cases h
  | terminated =>
    simp only [StringConversion.outcome, Progress.seen, Progress.mk.injEq] at hout
    obtain ⟨hstored, hending, _, hstate⟩ := hout
    refine ⟨hending, ?_⟩
    simp only [BlockCall.left, hending, hstored, hstate, ite_true, Progress.seen]
  | invalid =>
    simp only [StringConversion.outcome, Progress.seen, Progress.mk.injEq] at hout
    obtain ⟨hstored, hending, hrest, hstate⟩ := hout
    refine ⟨hending, ?_⟩
    simp only [BlockCall.left, hending, hstored, hrest, hstate, reduceCtorEq, ite_false,
      Progress.seen]

/-- A call behind which nothing is left is the last one too. -/
theorem outcome_of_drained (s : ConversionState) (source : List UInt32)
    {later : List (List UInt32)} {c : StringConversion UInt32 UInt8}
    (hon : c.ending.goesOn = true) (hfull : c.ending = .full → c.cursor.getD [] ≠ [])
    (hnil : c.cursor.getD [] ++ later.flatten = []) :
    BlockCall.outcome s [⟨source, later, c⟩] =
      ((enc.encodeAll none c.state []).after c.stored).seen := by
  have hdrained : c.ending = .drained := by
    cases he : c.ending with
    | drained => rfl
    | full => exact absurd (List.append_eq_nil_iff.mp hnil).1 (hfull he)
    | terminated | invalid =>
      rw [he] at hon
      cases hon
  rw [BlockCall.outcome_single]
  simp only [BlockCall.left, hdrained, hnil, reduceCtorEq, ite_false, encodeAll, Progress.after,
    Progress.seen, List.append_nil]

/-- Every call fails only at a character without bytes. -/
theorem result_of_mem_encodeInCalls {capacities : List Nat} {slices : List (List UInt32)}
    {call : BlockCall} (h : call ∈ enc.encodeInCalls s capacities slices) (e : Failure) :
    call.conversion.result = .error e ↔
      call.conversion.ending = .invalid ∧ e = .invalidSequence := by
  induction capacities generalizing s slices with
  | nil => cases h
  | cons capacity capacities ih =>
    rw [encodeInCalls] at h
    split at h
    · cases h
    rename_i source later _
    rcases List.mem_cons.mp h with rfl | h
    · exact enc.result_encodeString capacity s source e
    · split at h
      · exact ih h
      · cases h

/-- A call that goes on, before calls that go along the encoding of what it has left. -/
theorem outcome_of_goesOn (s : ConversionState) (source : List UInt32)
    {later : List (List UInt32)} {c : StringConversion UInt32 UInt8} {calls : List BlockCall}
    (hon : c.ending.goesOn = true) (hfull : c.ending = .full → c.cursor.getD [] ≠ [])
    (hshorter : (c.cursor.getD []).length < source.length)
    (hmore : BlockCall.outcome c.state calls =
      (enc.encodeAll none c.state (c.cursor.getD [] ++ later.flatten)).seen)
    (hrun : ∀ call ∈ calls.dropLast, call.Advances)
    (hsome : c.cursor.getD [] ++ later.flatten ≠ [] → calls ≠ []) :
    BlockCall.outcome s (⟨source, later, c⟩ :: calls) =
        ((enc.encodeAll none c.state (c.cursor.getD [] ++ later.flatten)).after c.stored).seen ∧
      ∀ call ∈ ((⟨source, later, c⟩ : BlockCall) :: calls).dropLast, call.Advances := by
  by_cases hcalls : calls = []
  · have hnil : c.cursor.getD [] ++ later.flatten = [] :=
      Classical.byContradiction fun hsource => hsome hsource hcalls
    rw [hcalls, hnil]
    exact ⟨outcome_of_drained s source hon hfull hnil, List.forall_mem_nil _⟩
  · constructor
    · rw [BlockCall.outcome_cons s _ hcalls, hmore, Progress.seen_after]
    · rw [List.dropLast_cons_of_ne_nil hcalls]
      exact List.forall_mem_cons.mpr ⟨hshorter, hrun⟩

/-- Calls go along the encoding of the whole text, if there may be a call for each
character: together they get as far, and only the last of them may convert nothing. -/
theorem outcome_encodeInCalls {capacities : List Nat} (s : ConversionState)
    {slices : List (List UInt32)} (hcap : ∀ c ∈ capacities, enc.maxCharacterLength ≤ c)
    (hlen : slices.flatten.length ≤ capacities.length) :
    BlockCall.outcome s (enc.encodeInCalls s capacities slices) =
        (enc.encodeAll none s slices.flatten).seen ∧
      (∀ call ∈ (enc.encodeInCalls s capacities slices).dropLast, call.Advances) ∧
      (slices.flatten ≠ [] → enc.encodeInCalls s capacities slices ≠ []) := by
  induction capacities generalizing s slices with
  | nil =>
    have hnil : slices.flatten = [] := List.eq_nil_of_length_eq_zero (Nat.le_zero.mp hlen)
    rw [hnil]
    exact ⟨rfl, List.forall_mem_nil _, fun h => absurd rfl h⟩
  | cons capacity capacities ih =>
    rw [← flatten_dropWhile_isEmpty slices] at hlen ⊢
    cases hslices : slices.dropWhile (·.isEmpty) with
    | nil =>
      rw [encodeInCalls, hslices]
      exact ⟨rfl, List.forall_mem_nil _, fun h => absurd rfl h⟩
    | cons source later =>
      have hout := enc.outcome_encodeString capacity s source
      have hadvances := encodeAll_advances (hcap capacity List.mem_cons_self) s
        (ne_nil_of_dropWhile_isEmpty hslices)
      have hfull := (enc.length_rest_encodeAll (some capacity) s source).2.1
      rw [hslices, List.flatten_cons, List.length_append, List.length_cons] at hlen
      rw [encodeInCalls_of_slice hslices rfl, List.flatten_cons,
        enc.encodeAll_slice (some capacity) s source later.flatten rfl]
      generalize enc.encodeAll (some capacity) s source = p at hout hadvances hfull ⊢
      generalize enc.encodeString (some capacity) (some source) s = c at hout ⊢
      cases hon : p.ending.goesOn with
      | false =>
        obtain ⟨hending, hlast⟩ := outcome_of_ended s source later hout hon
        simp only [hending, hon, Bool.false_eq_true, ite_false]
        exact ⟨hlast, List.forall_mem_nil _, fun _ => List.cons_ne_nil _ _⟩
      | true =>
        rw [Progress.seen_of_goesOn hon] at hout
        subst hout
        have hshorter : (c.cursor.getD []).length < source.length := (hadvances hon).1
        have hleft : (c.cursor.getD [] :: later).flatten.length ≤ capacities.length := by
          rw [List.flatten_cons, List.length_append]
          omega
        obtain ⟨hmore, hrun, hsome⟩ :=
          ih c.state (fun c hc => hcap c (List.mem_cons_of_mem _ hc)) hleft
        rw [List.flatten_cons] at hmore hsome
        simp only [StringConversion.outcome] at hon hfull
        simp only [StringConversion.outcome, hon, ite_true]
        obtain ⟨hwhole, hadvance⟩ :=
          outcome_of_goesOn s source hon hfull hshorter hmore hrun hsome
        exact ⟨hwhole, hadvance, fun _ => List.cons_ne_nil _ _⟩

/-- Encoding through small destinations is encoding at once. Calls into destinations with
room for any character, on a text in any slices, write together what a single call writes
that has room for the whole text. They end as it ends, by the terminator, at the end of
the source or at the same character without bytes, and leave the same state; all calls but
the last convert a character or more. -/
theorem encodeInCalls_eq_once (enc : Encoding) (s : ConversionState) (slices : List (List UInt32))
    {capacities : List Nat} (hcap : ∀ c ∈ capacities, enc.maxCharacterLength ≤ c)
    (hlen : slices.flatten.length ≤ capacities.length) {room : Nat}
    (hroom : slices.flatten.length * enc.maxCharacterLength ≤ room) :
    let once := enc.encodeString (some room) (some slices.flatten) s
    let calls := enc.encodeInCalls s capacities slices
    BlockCall.outcome s calls = once.outcome ∧ once.ending ≠ .full ∧
      (∀ e, (∃ last, calls.getLast? = some last ∧ last.conversion.result = .error e) ↔
        once.result = .error e) ∧
      ∀ call ∈ calls.dropLast, call.Advances := by
  intro once calls
  have hample : once.ending ≠ .full := by
    rw [enc.ending_encodeString]
    exact ending_encodeAll_ample s hroom
  have honce : once.outcome = (enc.encodeAll none s slices.flatten).seen := by
    rw [← encodeAll_eq_of_not_full (fun _ _ => rfl) (ending_encodeAll_ample s hroom)]
    exact enc.outcome_encodeString room s slices.flatten
  obtain ⟨hcalls, hadvances, _⟩ := outcome_encodeInCalls s hcap hlen
  have hsame : BlockCall.outcome s calls = once.outcome := hcalls.trans honce.symm
  refine ⟨hsame, hample, fun e => ?_, hadvances⟩
  rw [enc.result_encodeString room s slices.flatten e]
  have hending : (BlockCall.outcome s calls).ending = once.ending := congrArg Progress.ending hsame
  cases hlast : calls.getLast? with
  | none =>
    simp only [BlockCall.outcome, hlast] at hending
    refine iff_of_false ?_ fun h => ?_
    · rintro ⟨last, hnone, _⟩
      cases hnone
    · have hdrained := hending.trans h.1
      cases hdrained
  | some last =>
    simp only [BlockCall.outcome, hlast] at hending
    have hresult := result_of_mem_encodeInCalls (List.mem_of_getLast? hlast) e
    rw [hending] at hresult
    constructor
    · rintro ⟨_, hsome, he⟩
      cases hsome
      exact hresult.mp he
    · exact fun h => ⟨last, rfl, hresult.mpr h⟩

/-- A pair and a letter in slices of their own, into destinations of eight bytes: the
second call begins with the escape sequence that leaves the shift of the first. -/
theorem encodeInCalls_eq_once_shifted :
    let calls := jis.encodeInCalls .initial [8, 8] [[0x3021], [0x41]]
    calls.flatMap (·.conversion.stored) =
        [0x1B, 0x24, 0x42, 0x30, 0x21, 0x1B, 0x28, 0x42, 0x41] ∧
      BlockCall.outcome .initial calls =
        (jis.encodeString (some 16) (some [0x3021, 0x41]) .initial).outcome := by
  have hcap : ∀ c ∈ [8, 8], jis.maxCharacterLength ≤ c := by decide
  have hroom : [[0x3021], [(0x41 : UInt32)]].flatten.length * jis.maxCharacterLength ≤ 16 := by
    decide
  obtain ⟨h, _⟩ := encodeInCalls_eq_once jis .initial [[0x3021], [0x41]] hcap (by decide) hroom
  exact ⟨by decide, h⟩

end Calls

end Encoding

end FormattedText
