import FormattedText.Proofs.Sink.Agreement

/-!
# Terminated buffers

A fixed buffer changes only where content or its zero byte stands: whatever it was given, the
bytes behind the place of the zero byte are the ones from the beginning
(`FixedBuffer.holds_faithful`). The end of a write puts the zero byte there, and later content
takes its place. So after any steps of which the last one ends a write, the buffer has the
content that fits, a zero byte and its first contents, and memory that grows has all content
and one zero byte (`SinkStep.sinkAfter_terminated`).
-/

namespace FormattedText

namespace FixedBuffer

/-- Since its storage was `initial`, the buffer was given the bytes: it keeps those that fit,
and nothing has changed behind the place of the zero byte. -/
structure Holds (initial : List UInt8) (b : FixedBuffer) (bytes : List UInt8) : Prop where
  /-- The first bytes are kept. -/
  shows : b.Shows initial.length bytes
  /-- The rest of the storage is as it was. -/
  behind : b.storage.drop (b.length + 1) = initial.drop (b.length + 1)

/-- The buffer holds the bytes, and a zero byte stands behind them if it has any room. -/
structure HoldsTerminated (initial : List UInt8) (b : FixedBuffer) (bytes : List UInt8) :
    Prop where
  /-- The bytes are held. -/
  holds : b.Holds initial bytes
  /-- The zero byte. -/
  zero : initial ≠ [] → b.storage[b.length]? = some 0

variable {initial bytes : List UInt8} {b : FixedBuffer}

theorem Holds.length_storage (h : b.Holds initial bytes) : b.storage.length = initial.length :=
  h.shows.1

/-- A buffer holds what it has stored. -/
theorem holds_stored (b : FixedBuffer) : b.Holds b.storage b.stored := by
  refine ⟨⟨rfl, (List.take_of_length_le ?_).symm⟩, rfl⟩
  rw [length_stored]
  exact b.length_le

theorem holds_ofStorage (storage : List UInt8) : (ofStorage storage).Holds storage [] :=
  holds_stored (ofStorage storage)

theorem length_append (b : FixedBuffer) (chunk : List UInt8) :
    (b.append chunk).length = b.length + (b.kept chunk).length := rfl

/-- More content changes nothing behind it. -/
theorem drop_storage_append (b : FixedBuffer) (chunk : List UInt8) :
    (b.append chunk).storage.drop ((b.append chunk).length + 1) =
      b.storage.drop ((b.append chunk).length + 1) := by
  have hle := b.length_le
  have hfront : (b.storage.take b.length ++ b.kept chunk).length = (b.append chunk).length := by
    rw [List.length_append, List.length_take, Nat.min_eq_left (by omega), length_append]
  calc (b.append chunk).storage.drop ((b.append chunk).length + 1)
      = ((b.storage.take b.length ++ b.kept chunk ++
          b.storage.drop (b.append chunk).length).drop (b.append chunk).length).drop 1 := by
        rw [List.drop_drop]
        rfl
    _ = (b.storage.drop (b.append chunk).length).drop 1 := by rw [List.drop_left' hfront]
    _ = _ := List.drop_drop

/-- The zero byte changes nothing behind it. -/
theorem drop_storage_terminate (b : FixedBuffer) :
    b.terminate.storage.drop (b.length + 1) = b.storage.drop (b.length + 1) := by
  rw [terminate, List.drop_set, if_pos (Nat.lt_succ_self _)]

theorem Holds.append (h : b.Holds initial bytes) (chunk : List UInt8) :
    (b.append chunk).Holds initial (bytes ++ chunk) := by
  refine ⟨((faithful initial.length).write h.shows chunk).2, ?_⟩
  have hlater : (b.append chunk).length + 1 = b.length + 1 + (b.kept chunk).length := by
    rw [length_append]
    omega
  rw [drop_storage_append, hlater, ← List.drop_drop, h.behind, List.drop_drop]

theorem Holds.terminate (h : b.Holds initial bytes) :
    b.terminate.HoldsTerminated initial bytes := by
  refine ⟨⟨((faithful initial.length).finish h.shows).2, ?_⟩, fun hroom => ?_⟩
  · exact (drop_storage_terminate b).trans h.behind
  · have hpos := List.length_pos_iff.mpr hroom
    have hlt : b.length < b.storage.length := by
      have hle := b.length_le
      rw [h.length_storage] at hle ⊢
      omega
    exact List.getElem?_set_self hlt

/-- A fixed buffer never fails, and leaves alone what is behind its zero byte. -/
theorem holds_faithful (initial : List UInt8) :
    Sink.Faithful (Holds initial) (HoldsTerminated initial) where
  write h chunk := ⟨rfl, h.append chunk⟩
  finish h := ⟨rfl, h.terminate⟩
  view_of_finished h := h.holds

/-- What a storage looks like after content was written over it and terminated: the content as
far as there is room, a zero byte, and the rest as before. -/
def terminatedOver (initial content : List UInt8) : List UInt8 :=
  let kept := min content.length (initial.length - 1)
  if initial = [] then [] else content.take kept ++ 0 :: initial.drop (kept + 1)

/-- The storage of a buffer at the end of a write. -/
theorem HoldsTerminated.storage_eq (h : b.HoldsTerminated initial bytes) :
    b.storage = terminatedOver initial bytes := by
  rw [terminatedOver]
  split
  · rename_i hnil
    have hlength := h.holds.length_storage
    rw [hnil] at hlength
    exact List.eq_nil_of_length_eq_zero hlength
  · rename_i hroom
    have hstored : b.storage.take b.length = bytes.take (initial.length - 1) := h.holds.shows.2
    have hlength : b.length = min bytes.length (initial.length - 1) := h.holds.shows.length_eq
    have htake : b.storage.take b.length = bytes.take b.length := by
      rw [hstored, hlength, List.take_eq_take_iff]
      omega
    obtain ⟨hlt, hzero⟩ := List.getElem?_eq_some_iff.mp (h.zero hroom)
    calc b.storage
        = b.storage.take b.length ++ b.storage.drop b.length := (List.take_append_drop _ _).symm
      _ = bytes.take b.length ++ 0 :: initial.drop (b.length + 1) := by
        rw [htake, List.drop_eq_getElem_cons hlt, hzero, h.holds.behind]
      _ = _ := by rw [hlength]

end FixedBuffer

namespace GrowableBuffer

/-- The buffer shows its content, with a zero byte behind it. -/
def ShowsTerminated (b : GrowableBuffer) (bytes : List UInt8) : Prop :=
  b.content = bytes ∧ b.storage = bytes ++ [0]

/-- A growing buffer never fails, and has one zero byte at the end of a write, however often
writes have ended before. -/
theorem terminated_faithful : Sink.Faithful Shows ShowsTerminated where
  write h chunk := faithful.write h chunk
  finish := by
    rintro b _ rfl
    exact ⟨rfl, rfl, rfl⟩
  view_of_finished h := h.1

end GrowableBuffer

/-- A formatted write into a fixed buffer leaves the content so far and the bytes of the rendering,
as far as there is room, terminated. -/
theorem formatInto_fixed (b : FixedBuffer) (options : FormatOptions) (format : List UInt8)
    (args : List Argument) :
    let rendering := Rendering.ofFormat options format args
    let written := formatInto b options format args
    written.result = rendering.result ∧ written.sink.stored =
        (b.stored ++ rendering.bytes).take (b.capacity - 1) ∧
      written.sink.storage =
        FixedBuffer.terminatedOver b.storage (b.stored ++ rendering.bytes) := by
  intro rendering written
  obtain ⟨hheld, hresult, _⟩ := formatInto_faithful (FixedBuffer.holds_faithful b.storage)
    (FixedBuffer.holds_stored b) options format args
  exact ⟨hresult, hheld.holds.shows.2, hheld.storage_eq⟩

/-- A formatted write into memory that grows leaves the content so far and the bytes of the
rendering, terminated. -/
theorem formatInto_growable (b : GrowableBuffer) (options : FormatOptions)
    (format : List UInt8) (args : List Argument) :
    let rendering := Rendering.ofFormat options format args
    let written := formatInto b options format args
    written.result = rendering.result ∧ written.sink.content = b.content ++ rendering.bytes ∧
      written.sink.storage = b.content ++ rendering.bytes ++ [0] := by
  intro rendering written
  obtain ⟨hshown, hresult, _⟩ :=
    formatInto_faithful GrowableBuffer.terminated_faithful (Eq.refl b.content) options format args
  exact ⟨hresult, hshown⟩

/-- A print fails into all memory: it leaves the bytes behind the content so far, as far as there
is room, terminated. -/
structure FailsInMemory (options : FormatOptions) (format : List UInt8) (args : List Argument)
    (bytes : List UInt8) (e : Failure) : Prop where
  /-- A fixed buffer has the bytes that fit, a zero byte, and then what it had. -/
  fixed : ∀ b : FixedBuffer,
    let written := formatInto b options format args
    written.result = .error e ∧
      written.sink.stored = (b.stored ++ bytes).take (b.capacity - 1) ∧
      written.sink.storage = FixedBuffer.terminatedOver b.storage (b.stored ++ bytes)
  /-- Memory that grows has all bytes and a zero byte. -/
  growable : ∀ b : GrowableBuffer,
    let written := formatInto b options format args
    written.result = .error e ∧ written.sink.content = b.content ++ bytes ∧
      written.sink.storage = b.content ++ bytes ++ [0]

theorem failsInMemory {options : FormatOptions} {format : List UInt8} {args : List Argument}
    {e : Failure} (h : (Rendering.ofFormat options format args).result = .error e) :
    FailsInMemory options format args (Rendering.ofFormat options format args).bytes e := by
  refine ⟨fun b => ?_, fun b => ?_⟩
  · obtain ⟨hresult, hwritten⟩ := formatInto_fixed b options format args
    exact ⟨hresult.trans h, hwritten⟩
  · obtain ⟨hresult, hwritten⟩ := formatInto_growable b options format args
    exact ⟨hresult.trans h, hwritten⟩

/-- What a print into a buffer stores, if it returns a length. -/
theorem printToBuffer_stores (storage : List UInt8) (options : FormatOptions)
    (format : List UInt8) (args : List Argument) {length : Nat}
    (h : (printToBuffer options storage format args).result = .ok length) :
    let printed := (printToBuffer options storage format args).sink
    let text := (printToMemory options format args).sink.content
    text.length = length ∧ printed.length = min length (storage.length - 1) ∧
      printed.storage = FixedBuffer.terminatedOver storage text := by
  obtain ⟨hcontent, _, _⟩ := printToMemory_rendering options format args
  obtain ⟨hresult, hstored, hstorage⟩ :=
    formatInto_fixed (FixedBuffer.ofStorage storage) options format args
  rw [FixedBuffer.stored_ofStorage, List.nil_append] at hstored hstorage
  have hlength := Rendering.length_bytes (hresult.symm.trans h)
  simp only [hcontent]
  refine ⟨hlength, ?_, hstorage⟩
  rw [← FixedBuffer.length_stored, ← hlength, Nat.min_comm, ← List.length_take]
  exact congrArg List.length hstored

namespace SinkStep

/-- After steps of which the last one ends a write, the sink is finished. -/
theorem sinkAfter_finished {σ : Type} [Sink σ] {view finished : σ → List UInt8 → Prop}
    (hv : Sink.Faithful view finished) {sink : σ} (h : view sink []) (steps : List SinkStep)
    {last : SinkStep} (hlast : last.finishes = true) :
    finished (sinkAfter sink (steps ++ [last])) ((steps ++ [last]).flatMap bytes) := by
  have hbefore := sinkAfter_faithful hv steps h
  have hend := (perform_faithful hv hbefore last).finished hlast
  rw [List.nil_append] at hend
  rw [sinkAfter, List.foldl_append, List.flatMap_append, List.flatMap_singleton]
  exact hend

/-- Bounded buffers are terminated and nothing else is touched. After any steps of which the
last one is a formatted write, whether it succeeds or not, or the end of a write, a buffer with
room has the first bytes of all content, one zero byte, and behind it what it had in the
beginning; without room it has nothing. Memory that grows has all content and one zero byte
behind it. So a print into a buffer that returns a length stores that many bytes, or as many as
fit before the zero byte. -/
theorem sinkAfter_terminated (storage : List UInt8) (steps : List SinkStep) {last : SinkStep}
    (hlast : last.finishes = true) :
    let delivered := (steps ++ [last]).flatMap bytes
    let buffer := sinkAfter (FixedBuffer.ofStorage storage) (steps ++ [last])
    let memory := sinkAfter GrowableBuffer.empty (steps ++ [last])
    let kept := min delivered.length (storage.length - 1)
    (storage ≠ [] → buffer.storage = delivered.take kept ++ 0 :: storage.drop (kept + 1)) ∧
    (storage = [] → buffer.storage = []) ∧
    memory.content = delivered ∧ memory.storage = delivered ++ [0] ∧
    ∀ options format args length,
      (printToBuffer options storage format args).result = .ok length →
      let printed := (printToBuffer options storage format args).sink
      let text := (printToMemory options format args).sink.content
      let stored := min length (storage.length - 1)
      text.length = length ∧ printed.length = stored ∧
        (storage ≠ [] → printed.storage = text.take stored ++ 0 :: storage.drop (stored + 1)) := by
  intro delivered buffer memory kept
  have hstart := FixedBuffer.holds_ofStorage storage
  have hfixed := sinkAfter_finished (FixedBuffer.holds_faithful storage) hstart steps hlast
  have hempty : GrowableBuffer.empty.Shows [] := rfl
  have hgrowing := sinkAfter_finished GrowableBuffer.terminated_faithful hempty steps hlast
  refine ⟨fun hroom => ?_, fun hnil => ?_, hgrowing.1, hgrowing.2, ?_⟩
  · exact hfixed.storage_eq.trans (if_neg hroom)
  · exact hfixed.storage_eq.trans (if_pos hnil)
  · intro options format args length hlength printed text stored
    obtain ⟨hcount, hstored, hstorage⟩ := printToBuffer_stores storage options format args hlength
    refine ⟨hcount, hstored, fun hroom => ?_⟩
    rw [FixedBuffer.terminatedOver, hcount, if_neg hroom] at hstorage
    exact hstorage

/-- Content that takes the place of a zero byte, in four bytes of which the last one is left. -/
theorem sinkAfter_terminated_rewritten :
    let steps : List SinkStep := [.write [1], .finish, .write [2]]
    (sinkAfter (FixedBuffer.ofStorage [9, 8, 7, 6]) (steps ++ [.finish])).storage = [1, 2, 0, 6] ∧
      (sinkAfter GrowableBuffer.empty (steps ++ [.finish])).storage = [1, 2, 0] := by
  intro steps
  have hlast : SinkStep.finish.finishes = true := rfl
  obtain ⟨hbuffer, _, _, hmemory, _⟩ := sinkAfter_terminated [9, 8, 7, 6] steps hlast
  exact ⟨hbuffer (List.cons_ne_nil _ _), hmemory⟩

end SinkStep

end FormattedText
