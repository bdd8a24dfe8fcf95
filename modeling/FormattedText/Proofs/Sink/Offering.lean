import FormattedText.Sink.Descriptor

/-!
# Offering bytes to a transport

All that offering some bytes to a transport can do, under any script of outcomes
(`offerAll_gives`): it takes them all while the outcomes are parts and interruptions, or
it takes a part of them and stops at the first outcome that is a failure. No offer is
empty, and every offer uses an outcome of the script.
-/

namespace FormattedText

/-- What an operation that can fail gives: `shown` of the sink, or `failed` of the sink and
the failure. -/
inductive Effect.Gives {σ : Type} (shown : σ → Prop) (failed : σ → Failure → Prop) :
    Effect σ → Prop where
  /-- The operation has not failed. -/
  | shown {s : σ} (h : shown s) : Gives shown failed ⟨s, none⟩
  /-- The operation has failed. -/
  | failed {s : σ} {e : Failure} (h : failed s e) : Gives shown failed ⟨s, some e⟩

theorem Effect.Gives.imp {σ : Type} {shown shown' : σ → Prop}
    {failed failed' : σ → Failure → Prop} {effect : Effect σ} (h : effect.Gives shown failed)
    (hs : ∀ s, shown s → shown' s) (hf : ∀ s e, failed s e → failed' s e) :
    effect.Gives shown' failed' := by
  cases h with
  | shown h => exact .shown (hs _ h)
  | failed h => exact .failed (hf _ _ h)

theorem Effect.Gives.of_not_failed {σ : Type} {shown : σ → Prop} {failed : σ → Failure → Prop}
    {effect : Effect σ} (h : effect.Gives shown failed) (hf : ∀ s e, ¬ failed s e) :
    effect.failure = none ∧ shown effect.sink := by
  cases h with
  | shown h => exact ⟨rfl, h⟩
  | failed h => exact absurd h (hf _ _)

/-- The failure that an outcome is: the transport took nothing, or reported an error other
than an interruption. -/
def Outcome.failure? : Outcome → Option Failure
  | .accepts n => if n = 0 then some (.outputFailed .inputOutput) else none
  | .fails error =>
      if error.errno = .interrupted then none else some (.outputFailed error.errno)

namespace Descriptor

/-- Offers of the given sizes have moved bytes to the transport. -/
structure Moves (d : Descriptor) (bytes : List UInt8) (sizes : List Nat) (d' : Descriptor) :
    Prop where
  /-- The bytes come behind what the transport had taken. -/
  accepted : d'.transport.accepted = d.transport.accepted ++ bytes
  /-- They are counted. -/
  flushed : d'.flushed = d.flushed + bytes.length
  /-- The offers come behind the others. -/
  offered : d'.transport.offered = d.transport.offered ++ sizes
  /-- No offer is empty. -/
  positive : ∀ n ∈ sizes, 1 ≤ n
  /-- Each offer has used an outcome, as long as there were any. -/
  script : d'.transport.script = d.transport.script.drop sizes.length

/-- Offers have moved all the bytes, and none of them failed. -/
def Sent (d : Descriptor) (bytes : List UInt8) (d' : Descriptor) : Prop :=
  ∃ sizes, Moves d bytes sizes d' ∧
    ∀ o ∈ d.transport.script.take sizes.length, o.failure? = none

/-- Offers have moved a part of the bytes; the last of them failed, and no other. -/
def Broken (d : Descriptor) (bytes : List UInt8) (d' : Descriptor) (e : Failure) : Prop :=
  ∃ taken sizes size last, Moves d taken (sizes ++ [size]) d' ∧ taken <+: bytes ∧
    (∀ o ∈ d.transport.script.take sizes.length, o.failure? = none) ∧
    d.transport.script[sizes.length]? = some last ∧ last.failure? = some e

theorem Moves.refl (d : Descriptor) : Moves d [] [] d :=
  ⟨(List.append_nil _).symm, rfl, (List.append_nil _).symm, List.forall_mem_nil _, rfl⟩

theorem Moves.trans {d d' d'' : Descriptor} {a b : List UInt8} {m n : List Nat}
    (h : Moves d a m d') (h' : Moves d' b n d'') : Moves d (a ++ b) (m ++ n) d'' where
  accepted := by rw [h'.accepted, h.accepted, List.append_assoc]
  flushed := by
    have hd := h.flushed
    have hd' := h'.flushed
    rw [List.length_append]
    omega
  offered := by rw [h'.offered, h.offered, List.append_assoc]
  positive := List.forall_mem_append.mpr ⟨h.positive, h'.positive⟩
  script := by rw [h'.script, h.script, List.drop_drop, List.length_append]

/-- The outcomes of two runs of offers are those of the first and those of the second. -/
theorem Moves.outcomes {d d' : Descriptor} {a : List UInt8} {m : List Nat} (h : Moves d a m d')
    (n : List Nat) : d.transport.script.take (m ++ n).length =
      d.transport.script.take m.length ++ d'.transport.script.take n.length := by
  rw [h.script, List.length_append, List.take_add]

theorem Sent.refl (d : Descriptor) : Sent d [] d :=
  ⟨[], .refl d, List.forall_mem_nil _⟩

theorem Sent.trans {d d' d'' : Descriptor} {a b : List UInt8} (h : Sent d a d')
    (h' : Sent d' b d'') : Sent d (a ++ b) d'' := by
  obtain ⟨m, hm, hsoft⟩ := h
  obtain ⟨n, hn, hsoft'⟩ := h'
  refine ⟨m ++ n, hm.trans hn, ?_⟩
  rw [hm.outcomes]
  exact List.forall_mem_append.mpr ⟨hsoft, hsoft'⟩

theorem Sent.broken {d d' d'' : Descriptor} {a b : List UInt8} {e : Failure} (h : Sent d a d')
    (h' : Broken d' b d'' e) : Broken d (a ++ b) d'' e := by
  obtain ⟨m, hm, hsoft⟩ := h
  obtain ⟨taken, n, size, last, hn, ht, hsoft', hlast, he⟩ := h'
  have hall := hm.trans hn
  rw [← List.append_assoc] at hall
  refine ⟨a ++ taken, m ++ n, size, last, hall, (List.prefix_append_right_inj a).mpr ht, ?_, ?_, he⟩
  · rw [hm.outcomes]
    exact List.forall_mem_append.mpr ⟨hsoft, hsoft'⟩
  · rw [hm.script, List.getElem?_drop] at hlast
    rw [List.length_append]
    exact hlast

/-- More bytes may have been meant than those that met the failure. -/
theorem Broken.append {d d' : Descriptor} {bytes : List UInt8} {e : Failure}
    (h : Broken d bytes d' e) (more : List UInt8) : Broken d (bytes ++ more) d' e := by
  obtain ⟨taken, sizes, size, last, hm, ht, hrest⟩ := h
  exact ⟨taken, sizes, size, last, hm, ht.trans (List.prefix_append _ _), hrest⟩

/-- An offer of which the transport takes the first `n` bytes. -/
theorem moves_taking (d : Descriptor) {bytes : List UInt8} (hne : bytes ≠ []) {n : Nat}
    (hn : n ≤ bytes.length) {rest : List Outcome} (hrest : d.transport.script.drop 1 = rest) :
    Moves d (bytes.take n) [bytes.length]
      { d with transport := d.transport.taking rest bytes n, flushed := d.flushed + n } where
  accepted := Transport.accepted_taking _ _ _ _
  flushed := by rw [List.length_take, Nat.min_eq_left hn]
  offered := Transport.offered_taking _ _ _ _
  positive := by
    intro k hk
    rw [List.mem_singleton.mp hk]
    exact List.length_pos_iff.mpr hne
  script := hrest.symm

/-- One offer goes well or fails as its outcome says. -/
theorem gives_of_moves {d d' : Descriptor} {bytes : List UInt8} {size n : Nat} {o : Outcome}
    {rest : List Outcome} (hm : Moves d (bytes.take n) [size] d')
    (hd : d.transport.script = o :: rest) :
    (o.failure? = none → Sent d (bytes.take n) d') ∧
      ∀ e, o.failure? = some e → Broken d bytes d' e := by
  have hfirst : d.transport.script[0]? = some o := by rw [hd]; rfl
  refine ⟨fun ho => ⟨[size], hm, ?_⟩, fun e ho => ?_⟩
  · rw [hd]
    exact List.forall_mem_singleton.mpr ho
  · exact ⟨_, [], size, o, hm, List.take_prefix _ _, List.forall_mem_nil _, hfirst, ho⟩

/-- Offering the rest after an offer that went well is offering all of it. -/
theorem gives_of_sent {d d' : Descriptor} {bytes : List UInt8} {n : Nat} {e : Effect Descriptor}
    (h : Sent d (bytes.take n) d')
    (hrest : e.Gives (Sent d' (bytes.drop n)) (Broken d' (bytes.drop n))) :
    e.Gives (Sent d bytes) (Broken d bytes) := by
  refine hrest.imp (fun s hs => ?_) (fun s f hf => ?_)
  · have hall := h.trans hs
    rw [List.take_append_drop] at hall
    exact hall
  · have hall := h.broken hf
    rw [List.take_append_drop] at hall
    exact hall

theorem offerAll_gives (d : Descriptor) (bytes : List UInt8) {script : List Outcome}
    (hd : d.transport.script = script) :
    (d.offerAll bytes script).Gives (Sent d bytes) (Broken d bytes) := by
  induction script generalizing d bytes with
  | nil =>
    rw [offerAll]
    split
    · rename_i hb
      rw [List.isEmpty_iff.mp hb]
      exact .shown (.refl d)
    · rename_i hb
      have hrest : d.transport.script.drop 1 = [] := by rw [hd]; rfl
      have hm := moves_taking d (mt List.isEmpty_iff.mpr hb) (Nat.le_refl bytes.length) hrest
      rw [List.take_length] at hm
      refine .shown ⟨_, hm, ?_⟩
      rw [hd]
      exact List.forall_mem_nil _
  | cons outcome rest ih =>
    simp only [offerAll]
    split
    · rename_i hb
      rw [List.isEmpty_iff.mp hb]
      exact .shown (.refl d)
    rename_i hb
    have hne : bytes ≠ [] := mt List.isEmpty_iff.mpr hb
    have hrest : d.transport.script.drop 1 = rest := by rw [hd]; rfl
    cases outcome with
    | accepts n =>
      have hm := moves_taking d hne (Nat.min_le_right n bytes.length) hrest
      obtain ⟨hsent, hbroken⟩ := gives_of_moves hm hd
      by_cases hn : n = 0
      · simp only [hn, ite_true]
        rw [hn] at hbroken
        exact .failed (hbroken _ rfl)
      · simp only [hn, ite_false]
        exact gives_of_sent (hsent (if_neg hn)) (ih _ _ rfl)
    | fails error =>
      have hm := moves_taking d hne (Nat.zero_le bytes.length) hrest
      obtain ⟨hsent, hbroken⟩ := gives_of_moves hm hd
      by_cases he : error.errno = .interrupted
      · simp only [he, ite_true]
        exact gives_of_sent (hsent (if_pos he)) (ih _ bytes rfl)
      · simp only [he, ite_false]
        exact .failed (hbroken _ (if_neg he))

/-- Offers leave what is staged. -/
@[simp] theorem staged_offerAll (d : Descriptor) (bytes : List UInt8) (script : List Outcome) :
    (d.offerAll bytes script).sink.staged = d.staged := by
  induction script generalizing d bytes with
  | nil =>
    rw [offerAll]
    split <;> rfl
  | cons outcome rest ih =>
    cases outcome <;> simp only [offerAll] <;> repeat' split
    all_goals first | rfl | exact ih _ _

end Descriptor

end FormattedText
