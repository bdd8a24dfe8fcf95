import FormattedText.Proofs.Format.Placement

/-!
# Formats one behind another

The rendering of a format carries on only two things: the number of bytes so far and the
arguments that are left. So a format with bytes behind it is rendered as it is alone, and
then the bytes behind it (`Rendering.ofItems_append`), also where a literal runs across the
seam. With what is known of rendering at another place this says how a print of two formats
goes (`printToMemory_append`).
-/

namespace FormattedText

namespace Rendering

/-- A rendering that ends well, and another behind it, are one rendering. -/
structure Joins (first second whole : Rendering) : Prop where
  /-- The bytes come one after the other. -/
  bytes : whole.bytes = first.bytes ++ second.bytes
  /-- The counts come one after the other. -/
  counts : whole.counts = second.counts ++ first.counts
  /-- The second one decides how both end. -/
  result : whole.result = second.result

theorem counts_after (events : List OutputEvent) (r : Rendering) :
    (r.after events).counts = r.counts ++ events.reverse.flatMap OutputEvent.counts := by
  simp only [counts, after, List.reverse_append, List.flatMap_append]

theorem Joins.after {first second whole : Rendering} (h : Joins first second whole)
    (events : List OutputEvent) : Joins (first.after events) second (whole.after events) where
  bytes := by rw [bytes_after, bytes_after, h.bytes, List.append_assoc]
  counts := by rw [counts_after, counts_after, h.counts, List.append_assoc]
  result := h.result

section Append

variable {options : FormatOptions} {total n : Nat} {args : Arguments}

/-- A segment takes its arguments from the front. -/
theorem ofSegment_skip {segment : Segment}
    (h : (ofSegment options total args segment).1.result = .ok n) :
    (ofSegment options total args segment).2 = args.skip (segment.argumentCount options.writer) ∧
      segment.argumentCount options.writer ≤ args.rest.length := by
  cases segment with
  | literal | percent => exact ⟨rfl, Nat.zero_le _⟩
  | directive d =>
    rw [ofSegment] at h ⊢
    cases he : d.expandResolved options args with
    | error e =>
      simp only [he] at h
      cases h
    | ok p =>
      obtain ⟨expansion, args'⟩ := p
      obtain ⟨rfl, hlen⟩ := Directive.expandResolved_skip he
      cases expansion <;> exact ⟨rfl, hlen⟩

/-- A literal is written whole or not at all. -/
theorem ofItems_literal (options : FormatOptions) (total : Nat) (args : Arguments)
    (bytes : List UInt8) (stop : Nat) (items : List FormatItem) :
    ofItems options total args (⟨.ok (.literal bytes), stop⟩ :: items) =
      if total + bytes.length ≤ Directive.maxMeasure then
        (ofItems options (total + bytes.length) args items).after [.write (.text bytes)]
      else ⟨[.write (.text [])], .error .overflow⟩ := by
  by_cases h : total + bytes.length ≤ Directive.maxMeasure
  · have hfield : ofField total (.complete [.text bytes]) =
        ⟨[.write (.text bytes)], .ok (total + bytes.length)⟩ := by
      simp only [ofField, Field.complete, fitting, Piece.length, h, ite_true]
      rfl
    simp only [ofItems, ofSegment, hfield, if_pos h]
  · have hfield : ofField total (.complete [.text bytes]) =
        ⟨[.write (.text [])], .error .overflow⟩ := by
      simp only [ofField, Field.complete, fitting, Piece.length, h, ite_false]
      rfl
    simp only [ofItems, ofSegment, hfield, if_neg h]

/-- A literal that begins behind a literal makes it longer. -/
theorem ofItems_literal_append (options : FormatOptions) (total : Nat) (args : Arguments)
    (run lead : List UInt8) (stop₁ stop₂ stop : Nat) (items : List FormatItem) :
    let first := ofItems options total args [⟨.ok (.literal run), stop₁⟩]
    let whole := ofItems options total args (⟨.ok (.literal (run ++ lead)), stop⟩ :: items)
    (∀ e, first.result = .error e → whole = first) ∧
      ∀ n, first.result = .ok n → n + lead.length ≤ Directive.maxMeasure →
        Joins first (ofItems options n args (⟨.ok (.literal lead), stop₂⟩ :: items)) whole := by
  intro first whole
  simp only [first, whole]
  rw [ofItems_literal, ofItems_literal, List.length_append]
  by_cases hrun : total + run.length ≤ Directive.maxMeasure
  · rw [if_pos hrun]
    refine ⟨fun e he => (by cases he), fun n hn hlead => ?_⟩
    cases hn
    have hboth : total + (run.length + lead.length) ≤ Directive.maxMeasure := by omega
    rw [ofItems_literal, if_pos hlead, if_pos hboth, ← Nat.add_assoc]
    refine ⟨?_, ?_, rfl⟩
    · simp only [bytes_after, List.flatMap_singleton]
      change (run ++ lead) ++ _ = (run ++ []) ++ (lead ++ _)
      rw [List.append_nil, List.append_assoc]
    · simp only [counts_after]
      exact (List.append_nil _).symm
  · have hlong : ¬ total + (run.length + lead.length) ≤ Directive.maxMeasure := by omega
    rw [if_neg hrun, if_neg hlong]
    exact ⟨fun _ _ => rfl, fun n hn => (by cases hn)⟩

theorem exists_of_mapM_content {item : FormatItem} {items : List FormatItem}
    {segments : List Segment} (h : (item :: items).mapM (·.content) = .ok segments) :
    ∃ first later, item.content = .ok first ∧ items.mapM (·.content) = .ok later ∧
      segments = first :: later := by
  rw [List.mapM_cons] at h
  obtain ⟨first, hfirst, h⟩ := exists_of_bind_eq_ok h
  obtain ⟨later, hlater, h⟩ := exists_of_bind_eq_ok h
  cases h
  exact ⟨first, later, hfirst, hlater, rfl⟩

/-- How the rendering of a whole format goes with those of its parts. -/
structure Continues (first whole : Rendering) (lead : List UInt8) (second : Nat → Rendering) :
    Prop where
  /-- A failure of the first part is that of the whole. -/
  failed : ∀ e, first.result = .error e → whole = first
  /-- Behind the first part comes the second, if the literal that may join both fits. -/
  joined : ∀ n, first.result = .ok n → n + lead.length ≤ Directive.maxMeasure →
    Joins first (second n) whole

/-- A segment before both. -/
theorem continues_cons {item item' : FormatItem} {items items' : List FormatItem}
    {segment : Segment} (hc : item.content = .ok segment) (hc' : item'.content = .ok segment)
    {lead : List UInt8} {second : Nat → Rendering}
    (h : ∀ m, (ofSegment options total args segment).1.result = .ok m →
      Continues (ofItems options m (ofSegment options total args segment).2 items)
        (ofItems options m (ofSegment options total args segment).2 items') lead second) :
    Continues (ofItems options total args (item :: items))
      (ofItems options total args (item' :: items')) lead second := by
  cases hr : (ofSegment options total args segment).1.result with
  | error e =>
    rw [ofItems_of_failed hc hr, ofItems_of_failed hc' hr]
    exact ⟨fun _ _ => rfl, fun n hn => (by cases hn)⟩
  | ok m =>
    obtain ⟨hfailed, hjoined⟩ := h m hr
    rw [ofItems_of_written hc hr, ofItems_of_written hc' hr]
    exact ⟨fun e he => congrArg _ (hfailed e he), fun n hn hlead => (hjoined n hn hlead).after _⟩

theorem continues_nil (options : FormatOptions) (total : Nat) (args : Arguments)
    (items : List FormatItem) (lead : List UInt8) :
    Continues (ofItems options total args []) (ofItems options total args items) lead
      fun n => ofItems options n args items := by
  refine ⟨fun e he => (by cases he), fun n hn _ => ?_⟩
  cases hn
  exact ⟨rfl, (List.append_nil _).symm, rfl⟩

/-- A literal at the end of the first part may go on in the second. -/
theorem continues_literal (options : FormatOptions) (total : Nat) (args : Arguments)
    (run g : List UInt8) (stop offset : Nat) :
    let lead := g.takeWhile (· ≠ percentByte)
    Continues (ofItems options total args [⟨.ok (.literal run), stop⟩])
      (ofItems options total args (⟨.ok (.literal (run ++ lead)), offset + lead.length⟩ ::
        Format.itemsFrom (offset + lead.length) (g.dropWhile (· ≠ percentByte))))
      lead fun n => ofItems options n args (Format.itemsFrom offset g) := by
  intro lead
  by_cases hlead : lead = []
  · have hdrop : g.dropWhile (· ≠ percentByte) = g := by
      have hall := List.takeWhile_append_dropWhile (p := (· ≠ percentByte)) (l := g)
      rwa [show g.takeWhile (· ≠ percentByte) = [] from hlead, List.nil_append] at hall
    rw [hlead, hdrop, List.append_nil]
    refine continues_cons rfl rfl fun m _ => ?_
    exact continues_nil options m args (Format.itemsFrom offset g) []
  · cases g with
    | nil => exact absurd List.takeWhile_nil hlead
    | cons c g =>
      have hc : c ≠ percentByte := by
        rintro rfl
        exact hlead (List.takeWhile_cons_of_neg (by decide))
      have hpos : decide (c ≠ percentByte) = true := decide_eq_true hc
      have hrun : lead = c :: g.takeWhile (· ≠ percentByte) := List.takeWhile_cons_of_pos hpos
      have hdrop : (c :: g).dropWhile (· ≠ percentByte) = g.dropWhile (· ≠ percentByte) :=
        List.dropWhile_cons_of_pos hpos
      rw [Format.itemsFrom_literal _ hc, hdrop, ← hrun]
      obtain ⟨hfailed, hjoined⟩ := ofItems_literal_append options total args run lead stop
        (offset + lead.length) (offset + lead.length)
        (Format.itemsFrom (offset + lead.length) (g.dropWhile (· ≠ percentByte)))
      exact ⟨hfailed, hjoined⟩

/-- A format with bytes behind it is rendered as it is alone, and then the bytes behind it
with the arguments that it leaves. -/
theorem ofItems_append {offset : Nat} {f : List UInt8} (g : List UInt8) {segments : List Segment}
    (hf : (Format.itemsFrom offset f).mapM (·.content) = .ok segments) :
    Continues (ofItems options total args (Format.itemsFrom offset f))
      (ofItems options total args (Format.itemsFrom offset (f ++ g)))
      (g.takeWhile (· ≠ percentByte)) fun n =>
        ofItems options n (args.skip (Format.argumentCount options.writer segments))
          (Format.itemsFrom (offset + f.length) g) := by
  induction offset, f using Format.itemsFrom.induct generalizing total args segments with
  | case1 offset =>
    rw [Format.itemsFrom_nil] at hf ⊢
    cases hf
    exact continues_nil options total args _ _
  | case2 offset more e he =>
    rw [Format.itemsFrom_unread _ he] at hf
    obtain ⟨_, _, hcontent, _⟩ := exists_of_mapM_content hf
    cases hcontent
  | case3 offset more d rest hd stop =>
    rename_i ih
    rw [Format.itemsFrom_directive _ hd] at hf ⊢
    rw [Format.itemsFrom_directive_append _ hd]
    obtain ⟨segment, later, hcontent, hlater, rfl⟩ := exists_of_mapM_content hf
    cases hcontent
    have hend : stop + rest.length = offset + (percentByte :: more).length :=
      Format.stop_directive offset hd
    refine continues_cons rfl rfl fun m hm => ?_
    have hrest := @ih m (ofSegment options total args (.ofDirective d)).2 later hlater
    rw [(ofSegment_skip hm).1, Arguments.skip_skip, hend] at hrest
    rw [(ofSegment_skip hm).1]
    exact hrest
  | case4 offset b more hb run =>
    rename_i stop ih
    by_cases hmore : more.dropWhile (· ≠ percentByte) = []
    · obtain ⟨halone, hjoined⟩ := Format.itemsFrom_literal_joined offset hb hmore g
      rw [halone] at hf ⊢
      cases hf
      rw [hjoined]
      exact continues_literal options total args (b :: more) g (offset + (b :: more).length)
        (offset + (b :: more).length)
    · rw [Format.itemsFrom_literal _ hb] at hf ⊢
      rw [Format.itemsFrom_literal_append _ hb hmore]
      obtain ⟨segment, later, hcontent, hlater, rfl⟩ := exists_of_mapM_content hf
      cases hcontent
      have hend : stop + (more.dropWhile (· ≠ percentByte)).length =
          offset + (b :: more).length := Format.stop_literal offset b more
      refine continues_cons rfl rfl fun m _ => ?_
      have hrest := @ih m args later hlater
      rw [hend] at hrest
      rw [Format.argumentCount_cons, Segment.argumentCount, Nat.zero_add]
      exact hrest

/-- Segments that are all written have taken their arguments. -/
theorem argumentCount_le {items : List FormatItem} {segments : List Segment}
    (h : items.mapM (·.content) = .ok segments)
    (hr : (ofItems options total args items).result = .ok n) :
    Format.argumentCount options.writer segments ≤ args.rest.length := by
  induction items generalizing total args segments with
  | nil =>
    rw [List.mapM_nil] at h
    cases h
    exact Nat.zero_le _
  | cons item items ih =>
    obtain ⟨segment, later, hc, hlater, rfl⟩ := exists_of_mapM_content h
    cases hs : (ofSegment options total args segment).1.result with
    | error e =>
      rw [ofItems_of_failed hc hs] at hr
      cases hr
    | ok m =>
      rw [ofItems_of_written hc hs] at hr
      obtain ⟨hskip, hlen⟩ := ofSegment_skip hs
      have hrest := ih hlater hr
      rw [hskip, Arguments.skip, List.length_drop] at hrest
      rw [Format.argumentCount_cons]
      omega

end Append

section Whole

variable {options : FormatOptions} {args : List Argument} {f : List UInt8}
  {segments : List Segment} (g : List UInt8)

/-- The literal text that a format begins with is written first, if it is not too long. -/
theorem length_lead_le (h : (Format.lead g).length ≤ Directive.maxMeasure) :
    (Format.lead g).length ≤ (ofFormat options g args).bytes.length := by
  rw [ofFormat, Format.items]
  rw [Format.lead] at h ⊢
  generalize Format.text g = text at h ⊢
  cases text with
  | nil => exact Nat.zero_le _
  | cons c rest =>
    by_cases hc : c = percentByte
    · rw [hc, List.takeWhile_cons_of_neg (by decide)]
      exact Nat.zero_le _
    · have hpos : decide (c ≠ percentByte) = true := decide_eq_true hc
      have hrun : (c :: rest).takeWhile (· ≠ percentByte) =
          c :: rest.takeWhile (· ≠ percentByte) := List.takeWhile_cons_of_pos hpos
      rw [hrun] at h ⊢
      have hfits : 0 + (c :: rest.takeWhile (· ≠ percentByte)).length ≤ Directive.maxMeasure := by
        rw [Nat.zero_add]
        exact h
      rw [Format.itemsFrom_literal _ hc, ofItems_literal, if_pos hfits, bytes_after,
        List.length_append, List.flatMap_singleton]
      exact Nat.le_add_right _ _

theorem ofFormat_append (hzero : 0 ∉ f) (hf : Format.parse f = .ok segments) :
    Continues (ofFormat options f args) (ofFormat options (f ++ g) args) (Format.lead g) fun n =>
      ofItems options n ((Arguments.start args).skip (Format.argumentCount options.writer segments))
        (Format.itemsFrom f.length (Format.text g)) := by
  rw [Format.parse, Format.items, Format.text_eq hzero] at hf
  rw [ofFormat, ofFormat, Format.items, Format.items, Format.text_eq hzero,
    Format.text_append hzero g]
  have hjoin := @ofItems_append options 0 (.start args) 0 f (Format.text g) segments hf
  rw [Nat.zero_add] at hjoin
  exact hjoin

/-- The counts that a format stores. -/
def storesOfFormat (options : FormatOptions) (format : List UInt8) (args : List Argument) :
    List CountStore :=
  stores options 0 (.start args) (Format.items format)

theorem counts_ofFormat (options : FormatOptions) (format : List UInt8) (args : List Argument) :
    (ofFormat options format args).counts =
      ((storesOfFormat options format args).map CountStore.entry).reverse := by
  rw [counts_eq, ofFormat, counts_ofItems, storesOfFormat]

/-- Behind a format that is written to its end, another is rendered as it is alone, with the
arguments that are left. -/
theorem ofFormat_append_written (hzero : 0 ∉ f) (hf : Format.parse f = .ok segments) {n : Nat}
    (hn : (ofFormat options f args).result = .ok n)
    (hlead : (Format.lead g).length ≤ Directive.maxMeasure) :
    let k := Format.argumentCount options.writer segments
    let first := ofFormat options f args
    let second := ofFormat options g (args.drop k)
    let whole := ofFormat options (f ++ g) args
    n + second.bytes.length ≤ Directive.maxMeasure →
      whole.bytes = first.bytes ++ second.bytes ∧
      whole.result = shiftedResult k f.length (n + ·) second.result ∧
      whole.counts = (((storesOfFormat options g (args.drop k)).map (.shifted k n)).map
        CountStore.entry).reverse ++ first.counts := by
  intro k first second whole hfit
  have hlong : (Format.lead g).length ≤ second.bytes.length := length_lead_le g hlead
  have hjoin := (ofFormat_append g hzero hf).joined n hn (by omega)
  have hthere : ofItems options n ((Arguments.start args).skip k)
      (Format.itemsFrom f.length (Format.text g)) =
        ofItems options (n + 0) ((Arguments.start (args.drop k)).shifted k)
          ((Format.items g).map (.shifted k f.length)) := by
    rw [Arguments.shifted_start_drop, Format.items, ← Format.itemsFrom_add, Nat.add_zero,
      Nat.add_zero]
  have hfits : n + 0 + (ofItems options 0 (.start (args.drop k)) (Format.items g)).bytes.length ≤
      Directive.maxMeasure := hfit
  obtain ⟨hbytes, hresult, hstores⟩ := ofItems_add n k f.length hfits
  rw [hthere] at hjoin
  refine ⟨?_, hjoin.result.trans hresult, ?_⟩
  · exact hjoin.bytes.trans (congrArg (first.bytes ++ ·) hbytes)
  · rw [storesOfFormat, ← hstores, ← counts_ofItems, ← counts_eq]
    exact hjoin.counts

end Whole

end Rendering

/-- Printing two formats one behind the other, against printing each alone: `k` arguments
and `offset` bytes of the format come before the second, which stores the given counts. -/
structure PrintsInTurn (k offset : Nat) (stores : List CountStore)
    (first second whole : Delivered GrowableBuffer) : Prop where
  /-- The output of the second comes behind that of the first. -/
  content : whole.sink.content = first.sink.content ++ second.sink.content
  /-- The lengths add up; a failure of the second says the same of the whole. -/
  result : whole.result =
    shiftedResult k offset (first.sink.content.length + ·) second.result
  /-- The second alone counts the bytes of its own output. -/
  alone : second.counts = (stores.map CountStore.entry).reverse
  /-- The first counts as it does alone, and the second counts the output of both. -/
  counts : whole.counts = ((stores.map (.shifted k first.sink.content.length)).map
    CountStore.entry).reverse ++ first.counts

/-- Formatting is compositional. If the first of two formats fails, so does the whole, with
the same output. If it is written to its end, the second goes on behind it as it prints
alone with the arguments that are left, provided that the combined length can be reported; a
literal that begins the second counts there even if it is too long to be written. -/
theorem printToMemory_append (options : FormatOptions) {f : List UInt8} (g : List UInt8)
    (args : List Argument) {segments : List Segment} (hzero : 0 ∉ f)
    (hf : Format.parse f = .ok segments) :
    let k := Format.argumentCount options.writer segments
    let first := printToMemory options f args
    let second := printToMemory options g (args.drop k)
    let whole := printToMemory options (f ++ g) args
    (∀ e, first.result = .error e → whole.result = .error e ∧
      whole.sink.content = first.sink.content ∧ whole.counts = first.counts) ∧
    ∀ n, first.result = .ok n → k ≤ args.length ∧
      (first.sink.content.length + max second.sink.content.length (Format.lead g).length ≤
          Directive.maxMeasure →
        PrintsInTurn k f.length (Rendering.storesOfFormat options g (args.drop k))
          first second whole) := by
  intro k first second whole
  obtain ⟨hcontent₁, hresult₁, hcounts₁⟩ := printToMemory_rendering options f args
  obtain ⟨hcontent₂, hresult₂, hcounts₂⟩ := printToMemory_rendering options g (args.drop k)
  obtain ⟨hcontent, hresult, hcounts⟩ := printToMemory_rendering options (f ++ g) args
  constructor
  · intro e he
    have hfailed := hresult₁.symm.trans he
    have hsame := (Rendering.ofFormat_append g hzero hf).failed e hfailed
    rw [hsame] at hcontent hresult hcounts
    exact ⟨hresult.trans hfailed, hcontent.trans hcontent₁.symm, hcounts.trans hcounts₁.symm⟩
  · intro n hn
    have hwritten := hresult₁.symm.trans hn
    have hlen : first.sink.content.length = n := by
      rw [hcontent₁]
      exact Rendering.length_bytes hwritten
    refine ⟨Rendering.argumentCount_le hf hwritten, fun hfit => ?_⟩
    rw [hlen, hcontent₂] at hfit
    have hlead : (Format.lead g).length ≤ Directive.maxMeasure := by omega
    have hboth : n + (Rendering.ofFormat options g (args.drop k)).bytes.length ≤
        Directive.maxMeasure := by omega
    obtain ⟨hbytes, hlengths, hstores⟩ :=
      Rendering.ofFormat_append_written g hzero hf hwritten hlead hboth
    refine ⟨?_, ?_, hcounts₂.trans (Rendering.counts_ofFormat _ _ _), ?_⟩
    · rw [hcontent, hcontent₁, hcontent₂]
      exact hbytes
    · rw [hresult, hresult₂, hlen]
      exact hlengths
    · rw [hcounts, hcounts₁, hlen]
      exact hstores

theorem eq_ok_of_toOption {ε α : Type} {r : Except ε α} {v : α} (h : r.toOption = some v) :
    r = .ok v := by
  cases r with
  | error e => cases h
  | ok w => exact congrArg Except.ok (Option.some.inj h)

/-- `a%*d%hhn` takes three arguments and writes four bytes, so that the count of `b%n%s`
behind it is five, and the argument that is missing is the fourth. -/
theorem printToMemory_append_starred :
    let options : FormatOptions := ⟨.full, .utf8⟩
    let f : List UInt8 := [0x61, 0x25, 0x2A, 0x64, 0x25, 0x68, 0x68, 0x6E]
    let g : List UInt8 := [0x62, 0x25, 0x6E, 0x25, 0x73]
    let args : List Argument := [.int 3, .int 7, .count 0, .count 0]
    0 ∉ f ∧ (Format.parse f).map (Format.argumentCount .full) = .ok 3 ∧
      (printToMemory options f args).result = .ok 4 ∧
      PrintsInTurn 3 8 [⟨0, .plain, 1⟩] (printToMemory options f args)
        (printToMemory options g [.count 0]) (printToMemory options (f ++ g) args) := by
  intro options f g args
  have hzero : 0 ∉ f := by decide
  have hf : Format.parse f = .ok [.literal [0x61],
      .directive ⟨.none, .fromArgument, .absent, .plain, 0x64⟩,
      .directive ⟨.none, .absent, .absent, .char, 0x6E⟩] :=
    eq_ok_of_toOption (by decide +kernel)
  have hfirst : (printToMemory options f args).result = .ok 4 :=
    eq_ok_of_toOption (by decide +kernel)
  obtain ⟨_, hjoin⟩ := (printToMemory_append options g args hzero hf).2 4 hfirst
  have hstores : Rendering.storesOfFormat options g [.count 0] = [⟨0, .plain, 1⟩] := by
    decide +kernel
  refine ⟨hzero, by rw [hf]; rfl, hfirst, ?_⟩
  rw [← hstores]
  exact hjoin (by decide +kernel)

end FormattedText
