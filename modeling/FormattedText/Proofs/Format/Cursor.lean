import FormattedText.Proofs.Directive.Acceptance

/-!
# Walking through a format

A cursor goes through the text of a format: at its offset it takes the run of literal bytes or the
directive that stands there, and a directive that cannot be read takes it to the end
(`Format.Cursor.next?`). What it takes are segments that lie in the text one behind the other,
without a gap (`Format.Tiles`), up to the end or up to the directive that cannot be read
(`Format.Walked`). No other segments lie so, and the segments of a format are these
(`Format.cutIntoSegments`).

One step tells all that can stand at an offset (`Format.Cursor.step`). It is used in both
directions: a walk gives segments without a gap, and such segments are what a walk gives, since a
literal is followed by no other literal and so ends where the cursor ends it.
-/

namespace FormattedText

/-- Is the segment a run of literal bytes? -/
def Segment.isLiteral : Segment → Bool
  | .literal _ => true
  | _ => false

/-- The segment that the bytes of a text from `start` up to `stop` are. -/
inductive Segment.Spans (text : List UInt8) (start stop : Nat) : Segment → Prop where
  /-- A literal is its bytes, without a percent sign. -/
  | literal {bytes : List UInt8} (hbytes : (text.take stop).drop start = bytes)
      (hpercent : percentByte ∉ bytes) : Spans text start stop (.literal bytes)
  /-- At a percent sign stands the directive that is read there. -/
  | directive {d : Directive} (hpercent : text[start]? = some percentByte)
      (hd : Directive.parseAt text start = .ok (d, stop)) : Spans text start stop (.ofDirective d)

namespace Format

/-- Segments that lie in a text one behind the other, from one offset to another, each with the
offset behind it. -/
inductive Tiles (text : List UInt8) : Nat → List FormatItem → Nat → Prop where
  /-- Nothing lies between an offset and itself. -/
  | nil (offset : Nat) : Tiles text offset [] offset
  /-- A segment has bytes, and a literal is not followed by another. -/
  | cons {start stop last : Nat} {segment : Segment} {items : List FormatItem}
      (hspans : segment.Spans text start stop) (hlt : start < stop) (hle : stop ≤ text.length)
      (halone : ∀ run after more, segment.isLiteral = true →
        items ≠ ⟨.ok (.literal run), after⟩ :: more)
      (hrest : Tiles text stop items last) : Tiles text start (⟨.ok segment, stop⟩ :: items) last

/-- Items that lie in a text from an offset on: segments up to the end, or up to a directive that
cannot be read, which is then the last item. -/
inductive Walked (text : List UInt8) (start : Nat) : List FormatItem → Prop where
  /-- The segments reach the end. -/
  | whole {items : List FormatItem} (htiles : Tiles text start items text.length) :
      Walked text start items
  /-- At a percent sign no directive can be read. -/
  | broken {front : List FormatItem} {offset : Nat} {e : Failure}
      (htiles : Tiles text start front offset) (hpercent : text[offset]? = some percentByte)
      (he : Directive.parseAt text offset = .error e) :
      Walked text start (front ++ [⟨.error e, text.length⟩])

/-- A place in the text of a format. -/
structure Cursor where
  /-- The text. -/
  text : List UInt8
  /-- The offset of what comes next. -/
  offset : Nat

namespace Cursor

/-- At the beginning of a format. -/
def start (format : List UInt8) : Cursor := ⟨Format.text format, 0⟩

/-- Takes what stands at the cursor. A directive that cannot be read takes it to the end. -/
def next? (c : Cursor) : Option (Except Failure Segment × Cursor) :=
  match c.text.drop c.offset with
  | [] => none
  | b :: more =>
      if b = percentByte then
        match Directive.parseAt c.text c.offset with
        | .ok (d, stop) => some (.ok (.ofDirective d), { c with offset := stop })
        | .error e => some (.error e, { c with offset := c.text.length })
      else
        let run := b :: more.takeWhile (· ≠ percentByte)
        some (.ok (.literal run), { c with offset := c.offset + run.length })

/-- A cursor takes these items one after another, and then there are no more. -/
inductive Walks : Cursor → List FormatItem → Cursor → Prop where
  /-- Nothing is left. -/
  | done {c : Cursor} (h : c.next? = none) : Walks c [] c
  /-- An item is taken, with the offset behind it. -/
  | step {c next last : Cursor} {content : Except Failure Segment} {items : List FormatItem}
      (h : c.next? = some (content, next)) (hrest : Walks next items last) :
      Walks c (⟨content, next.offset⟩ :: items) last

/-- All that may stand at an offset of a text. -/
inductive Step (text : List UInt8) (offset : Nat) :
    Option (Except Failure Segment × Cursor) → Prop where
  /-- The text ends there. -/
  | exhausted (h : offset = text.length) : Step text offset none
  /-- A segment, which a percent sign ends if it is a literal. -/
  | segment {s : Segment} {stop : Nat} (hspans : s.Spans text offset stop) (hlt : offset < stop)
      (hle : stop ≤ text.length)
      (hends : s.isLiteral = true → ∀ b, text[stop]? = some b → b = percentByte) :
      Step text offset (some (.ok s, ⟨text, stop⟩))
  /-- A directive that cannot be read. -/
  | unread {e : Failure} (hpercent : text[offset]? = some percentByte)
      (he : Directive.parseAt text offset = .error e) :
      Step text offset (some (.error e, ⟨text, text.length⟩))

end Cursor

end Format

theorem Segment.isLiteral_ofDirective (d : Directive) : (ofDirective d).isLiteral = false := by
  rw [ofDirective]
  split <;> rfl

/-- What is behind a part of a list. -/
theorem drop_of_drop_eq_append {α : Type} {s front after : List α} {k : Nat} (hk : k ≤ s.length)
    (h : s.drop k = front ++ after) :
    s.drop (k + front.length) = after ∧ k + front.length = s.length - after.length := by
  have hlength := congrArg List.length h
  rw [List.length_drop, List.length_append] at hlength
  refine ⟨?_, by omega⟩
  rw [← List.drop_drop, h, List.drop_left]

namespace Directive

variable {text : List UInt8} {offset stop : Nat} {d : Directive}

/-- A directive is read from a part of the text. -/
theorem exists_eq_append_of_parse {s rest : List UInt8} (h : parse s = .ok (d, rest)) :
    ∃ front, s = front ++ rest := by
  obtain ⟨p, hsplits, _⟩ := parse_eq_ok_iff_splits.mp h
  refine ⟨p.bytes ++ [d.conversion], ?_⟩
  rw [hsplits.eq_append, List.append_assoc, List.singleton_append]

/-- A directive has its sign and its conversion. -/
theorem bounds_of_parseAt (h : parseAt text offset = .ok (d, stop)) :
    offset + 1 < stop ∧ stop ≤ text.length := by
  obtain ⟨rest, hparse, rfl⟩ := parseAt_eq_ok_iff.mp h
  have hlength := length_lt_of_parse hparse
  rw [List.length_drop] at hlength
  omega

/-- A directive that cannot be read is malformed where its sign stands, or has a number that is too
large. -/
theorem failure_of_parseAt {e : Failure} (h : parseAt text offset = .error e) :
    e = .malformedDirective offset ∨ e = .overflow := by
  rw [parseAt] at h
  cases hparse : parse (text.drop (offset + 1)) with
  | ok =>
    rw [hparse] at h
    cases h
  | error cause =>
    rw [hparse] at h
    cases h
    cases cause with
    | truncated => exact .inl rfl
    | tooLarge => exact .inr rfl

end Directive

namespace Format

namespace Cursor

variable {text : List UInt8} {offset : Nat}

/-- What a cursor takes is what stands at its offset. -/
theorem step (h : offset ≤ text.length) : Step text offset (⟨text, offset⟩ : Cursor).next? := by
  rw [next?]
  cases hdrop : text.drop offset with
  | nil =>
    have hend := List.drop_eq_nil_iff.mp hdrop
    exact .exhausted (Nat.le_antisymm h hend)
  | cons b more =>
    have hb : text[offset]? = some b := by
      rw [← List.head?_drop, hdrop, List.head?_cons]
    simp only
    split
    · rename_i hpercent
      subst hpercent
      cases hparse : Directive.parseAt text offset with
      | error e => exact .unread hb hparse
      | ok p =>
        obtain ⟨d, stop⟩ := p
        obtain ⟨hlt, hle⟩ := Directive.bounds_of_parseAt hparse
        refine .segment (.directive hb hparse) (Nat.lt_of_succ_lt hlt) hle fun hliteral => ?_
        rw [Segment.isLiteral_ofDirective] at hliteral
        cases hliteral
    · rename_i hne
      have hall : text.drop offset = (b :: more.takeWhile (· ≠ percentByte)) ++
          more.dropWhile (· ≠ percentByte) := by
        rw [hdrop, List.cons_append, List.takeWhile_append_dropWhile]
      obtain ⟨hafter, hstop⟩ := drop_of_drop_eq_append h hall
      obtain ⟨hle, hbytes⟩ := (take_drop_eq_iff offset _ (List.cons_ne_nil _ _)).mpr
        ⟨_, hall, hstop⟩
      refine .segment (.literal hbytes ?_) ?_ hle ?_
      · intro hmem
        rcases List.mem_cons.mp hmem with hhead | htail
        · exact hne hhead.symm
        · have hne := List.all_eq_true.mp List.all_takeWhile percentByte htail
          exact of_decide_eq_true hne rfl
      · exact Nat.lt_add_of_pos_right (Nat.succ_pos _)
      · intro _ c hc
        have hhead := List.head?_dropWhile_not (· ≠ percentByte) more
        rw [← hafter, List.head?_drop, hc] at hhead
        exact Decidable.not_not.mp (of_decide_eq_false hhead)

/-- A walk is settled by where it begins. -/
theorem Walks.unique {c last last' : Cursor} {items items' : List FormatItem}
    (h : Walks c items last) (h' : Walks c items' last') : items = items' ∧ last = last' := by
  induction h generalizing items' with
  | done hnone =>
    cases h' with
    | done => exact ⟨rfl, rfl⟩
    | step hsome => cases hnone.symm.trans hsome
  | step hsome _ ih =>
    cases h' with
    | done hnone => cases hnone.symm.trans hsome
    | step hsome' hrest =>
      cases hsome.symm.trans hsome'
      obtain ⟨rfl, rfl⟩ := ih hrest
      exact ⟨rfl, rfl⟩

theorem next?_end (text : List UInt8) : (⟨text, text.length⟩ : Cursor).next? = none := by
  rw [next?, List.drop_length]

/-- The segments of a text are what a cursor takes, and they bring it to the end. -/
theorem walks_itemsFrom {rest : List UInt8} (hle : offset ≤ text.length)
    (hrest : text.drop offset = rest) :
    Walks ⟨text, offset⟩ (itemsFrom offset rest) ⟨text, text.length⟩ := by
  have hlength := congrArg List.length hrest
  rw [List.length_drop] at hlength
  fun_induction itemsFrom offset rest with
  | case1 offset =>
    have hend : offset = text.length := Nat.le_antisymm hle (List.drop_eq_nil_iff.mp hrest)
    subst hend
    exact .done (next?_end text)
  | case2 offset more e he =>
    have hmore : text.drop (offset + 1) = more := by
      rw [← List.drop_drop, hrest, List.drop_one, List.tail_cons]
    have hparse : Directive.parseAt text offset = .error (e.failure offset) :=
      Directive.parseAt_eq_error_iff.mpr (hmore ▸ he)
    have hnext : (⟨text, offset⟩ : Cursor).next? =
        some (.error (e.failure offset), ⟨text, text.length⟩) := by
      simp only [next?, hrest, ite_true, hparse]
    have hstop : offset + (percentByte :: more).length = text.length := by omega
    rw [hstop]
    exact .step hnext (.done (next?_end text))
  | case3 offset more d after hd stop ih =>
    have hmore : text.drop (offset + 1) = more := by
      rw [← List.drop_drop, hrest, List.drop_one, List.tail_cons]
    obtain ⟨front, hfront⟩ := Directive.exists_eq_append_of_parse hd
    rw [List.length_cons] at hlength
    obtain ⟨hafter, hlt⟩ := drop_of_drop_eq_append (by omega) (hmore.trans hfront)
    have hshorter := Directive.length_lt_of_parse hd
    have hstop : text.length - after.length = stop := by
      simp only [stop, List.length_cons]
      omega
    have hparse : Directive.parseAt text offset = .ok (d, stop) :=
      Directive.parseAt_eq_ok_iff.mpr ⟨after, hmore ▸ hd, hstop.symm⟩
    have hnext : (⟨text, offset⟩ : Cursor).next? = some (.ok (.ofDirective d), ⟨text, stop⟩) := by
      simp only [next?, hrest, ite_true, hparse]
    rw [hlt, hstop] at hafter
    have hlater : text.length - stop = after.length := by omega
    exact .step hnext (ih (by omega) hafter hlater)
  | case4 offset b more hb run stop ih =>
    have hall : text.drop offset = run ++ more.dropWhile (· ≠ percentByte) := by
      rw [hrest, List.cons_append, List.takeWhile_append_dropWhile]
    obtain ⟨hafter, hlt⟩ := drop_of_drop_eq_append hle hall
    have hnext : (⟨text, offset⟩ : Cursor).next? = some (.ok (.literal run), ⟨text, stop⟩) := by
      simp only [next?, hrest, hb, ite_false]
      rfl
    have hall' := congrArg List.length hall
    rw [List.length_drop, List.length_append] at hall'
    exact .step hnext (ih (by omega) hafter (by omega))

end Cursor

section Tiles

variable {text : List UInt8} {start stop last : Nat} {segment : Segment} {items : List FormatItem}

/-- No percent sign stands within a literal. -/
theorem ne_percentByte_of_literal {bytes : List UInt8} {k : Nat}
    (hbytes : (text.take stop).drop start = bytes) (hpercent : percentByte ∉ bytes)
    (hle : start ≤ k) (hlt : k < stop) : text[k]? ≠ some percentByte := by
  intro hk
  refine hpercent (List.mem_of_getElem? (i := k - start) ?_)
  rw [← hbytes, List.getElem?_drop, Nat.add_sub_cancel' hle, List.getElem?_take_of_lt hlt, hk]

/-- What stands before a percent sign or the end is followed by no literal. -/
theorem Tiles.ne_literal (h : Tiles text start items last)
    (hends : ∀ b, text[start]? = some b → b = percentByte) (run : List UInt8) (after : Nat)
    (more : List FormatItem) : items ≠ ⟨.ok (.literal run), after⟩ :: more := by
  rintro rfl
  cases h with
  | cons hspans hlt hle _ _ =>
    generalize hliteral : Segment.literal run = segment at hspans
    cases hspans with
    | literal hbytes hpercent =>
      obtain ⟨b, hb⟩ : ∃ b, text[start]? = some b :=
        ⟨_, List.getElem?_eq_getElem (Nat.lt_of_lt_of_le hlt hle)⟩
      refine ne_percentByte_of_literal hbytes hpercent (Nat.le_refl _) hlt ?_
      rw [hb, hends b hb]
    | directive =>
      have hdirective := congrArg Segment.isLiteral hliteral
      rw [Segment.isLiteral_ofDirective] at hdirective
      cases hdirective

/-- What is followed by no literal stands before a percent sign or the end. -/
theorem Tiles.percentByte_of_ne_literal (h : Tiles text start items last)
    (hlast : ∀ b, text[last]? = some b → b = percentByte)
    (halone : ∀ run after more, items ≠ ⟨.ok (.literal run), after⟩ :: more) :
    ∀ b, text[start]? = some b → b = percentByte := by
  cases h with
  | nil => exact hlast
  | cons hspans _ _ _ _ =>
    cases hspans with
    | literal => exact absurd rfl (halone _ _ _)
    | directive hpercent =>
      intro b hb
      cases hpercent.symm.trans hb
      rfl

theorem Tiles.bounds (h : Tiles text start items last) (hstart : start ≤ text.length) :
    start ≤ last ∧ last ≤ text.length := by
  induction h with
  | nil => exact ⟨Nat.le_refl _, hstart⟩
  | cons _ hlt hle _ _ ih =>
    obtain ⟨hlater, hend⟩ := ih hle
    exact ⟨Nat.le_trans (Nat.le_of_lt hlt) hlater, hend⟩

/-- Segments are found in the text up to where they end. -/
theorem Tiles.take (h : Tiles text start items last) {k : Nat} (hk : last ≤ k) :
    Tiles (text.take k) start items last := by
  induction h with
  | nil => exact .nil _
  | @cons start stop last segment items hspans hlt hle halone hrest ih =>
    have hstop := Nat.le_trans (hrest.bounds hle).1 hk
    refine .cons ?_ hlt ?_ halone (ih hk)
    · cases hspans with
      | literal hbytes hpercent =>
        refine .literal ?_ hpercent
        rw [List.take_take, Nat.min_eq_left hstop, hbytes]
      | directive hpercent hd =>
        refine .directive ?_ ?_
        · rw [List.getElem?_take_of_lt (Nat.lt_of_lt_of_le hlt hstop), hpercent]
        · have hbegins (n : Nat) : (text.take stop).drop n <+: (text.take k).drop n := by
            rw [List.drop_take, List.drop_take]
            exact List.take_prefix_take_left (Nat.sub_le_sub_right hstop n)
          have hread := Directive.parseAt_of_prefix hd (hbegins _)
          rwa [Nat.add_sub_cancel' (Nat.le_of_lt hlt)] at hread
    · rw [List.length_take]
      exact Nat.le_min.mpr ⟨hstop, hle⟩

/-- One more segment before the items. -/
theorem Walked.cons (hspans : segment.Spans text start stop) (hlt : start < stop)
    (hle : stop ≤ text.length)
    (hends : segment.isLiteral = true → ∀ b, text[stop]? = some b → b = percentByte)
    (h : Walked text stop items) : Walked text start (⟨.ok segment, stop⟩ :: items) := by
  cases h with
  | whole htiles =>
    refine .whole (.cons hspans hlt hle ?_ htiles)
    exact fun run after more hliteral => htiles.ne_literal (hends hliteral) run after more
  | broken htiles hpercent he =>
    refine .broken (.cons hspans hlt hle ?_ htiles) hpercent he
    exact fun run after more hliteral => htiles.ne_literal (hends hliteral) run after more

end Tiles

namespace Cursor

variable {text : List UInt8} {start stop last : Nat} {items : List FormatItem}

/-- What a walk takes lies in the text without a gap. -/
theorem Walks.walked {c last : Cursor} (h : Walks c items last) (hc : c.offset ≤ c.text.length) :
    Walked c.text c.offset items := by
  induction h with
  | @done c hnone =>
    have hstep := Cursor.step hc
    generalize hnext : (⟨c.text, c.offset⟩ : Cursor).next? = taken at hstep
    cases hstep with
    | exhausted hend =>
      refine .whole ?_
      rw [← hend]
      exact .nil _
    | segment => cases hnone.symm.trans hnext
    | unread => cases hnone.symm.trans hnext
  | @step c next last content items hsome hrest ih =>
    have hstep := Cursor.step hc
    generalize hnext : (⟨c.text, c.offset⟩ : Cursor).next? = taken at hstep
    cases hstep with
    | exhausted => cases hsome.symm.trans hnext
    | segment hspans hlt hle hends =>
      cases hsome.symm.trans hnext
      exact .cons hspans hlt hle hends (ih hle)
    | unread hpercent he =>
      cases hsome.symm.trans hnext
      obtain ⟨rfl, _⟩ := hrest.unique (.done (next?_end c.text))
      have htiles : Tiles c.text c.offset [] c.offset := .nil _
      exact .broken htiles hpercent he

/-- A cursor takes the segment that stands at its offset, if a percent sign ends it where it is a
literal. -/
theorem next?_of_spans {segment : Segment} (hspans : segment.Spans text start stop)
    (hlt : start < stop) (hle : stop ≤ text.length)
    (hends : segment.isLiteral = true → ∀ b, text[stop]? = some b → b = percentByte) :
    (⟨text, start⟩ : Cursor).next? = some (.ok segment, ⟨text, stop⟩) := by
  have hstep : Step text start (⟨text, start⟩ : Cursor).next? :=
    step (Nat.le_of_lt (Nat.lt_of_lt_of_le hlt hle))
  generalize (⟨text, start⟩ : Cursor).next? = taken at hstep ⊢
  cases hspans with
  | literal hbytes hpercent =>
    have hwithin {k : Nat} : start ≤ k → k < stop → text[k]? ≠ some percentByte :=
      ne_percentByte_of_literal hbytes hpercent
    cases hstep with
    | exhausted hend => omega
    | unread hsign => exact absurd hsign (hwithin (Nat.le_refl _) hlt)
    | @segment _ stop' hspans' hlt' hle' hends' =>
      cases hspans' with
      | directive hsign => exact absurd hsign (hwithin (Nat.le_refl _) hlt)
      | literal hbytes' hpercent' =>
        -- Neither of the two can end within the other, since a percent sign stands where it ends.
        rcases Nat.lt_trichotomy stop stop' with hshorter | rfl | hlonger
        · have hsign : text[stop]? = some _ :=
            List.getElem?_eq_getElem (Nat.lt_of_lt_of_le hshorter hle')
          rw [hends rfl _ hsign] at hsign
          exact absurd hsign
            (ne_percentByte_of_literal hbytes' hpercent' (Nat.le_of_lt hlt) hshorter)
        · rw [← hbytes, ← hbytes']
        · have hsign : text[stop']? = some _ :=
            List.getElem?_eq_getElem (Nat.lt_of_lt_of_le hlonger hle)
          rw [hends' rfl _ hsign] at hsign
          exact absurd hsign (hwithin (Nat.le_of_lt hlt') hlonger)
  | directive hsign hd =>
    cases hstep with
    | exhausted hend => omega
    | unread _ he => cases hd.symm.trans he
    | segment hspans' hlt' =>
      cases hspans' with
      | literal hbytes hpercent =>
        exact absurd hsign (ne_percentByte_of_literal hbytes hpercent (Nat.le_refl _) hlt')
      | directive _ hd' =>
        cases hd.symm.trans hd'
        rfl

/-- Segments without a gap are taken before what a walk takes behind them. -/
theorem Walks.append_tiles {final : Cursor} {more : List FormatItem}
    (htiles : Tiles text start items last)
    (hlast : ∀ b, text[last]? = some b → b = percentByte)
    (hmore : Walks ⟨text, last⟩ more final) : Walks ⟨text, start⟩ (items ++ more) final := by
  induction htiles with
  | nil => exact hmore
  | cons hspans hlt hle halone hrest ih =>
    refine .step (next?_of_spans hspans hlt hle fun hliteral => ?_) (ih hlast hmore)
    exact hrest.percentByte_of_ne_literal hlast fun run after later =>
      halone run after later hliteral

/-- Items that lie in the text are what a cursor takes, and they bring it to the end. -/
theorem walks_of_walked (h : Walked text start items) :
    Walks ⟨text, start⟩ items ⟨text, text.length⟩ := by
  cases h with
  | whole htiles =>
    have hlast : ∀ b, text[text.length]? = some b → b = percentByte := by
      intro b hb
      rw [List.getElem?_eq_none (Nat.le_refl _)] at hb
      cases hb
    have hwalks := Walks.append_tiles htiles hlast (.done (next?_end text))
    rwa [List.append_nil] at hwalks
  | @broken front offset e htiles hpercent he =>
    refine Walks.append_tiles htiles (fun b hb => ?_) (.step ?_ (.done (next?_end text)))
    · cases hpercent.symm.trans hb
      rfl
    · obtain ⟨hlt, hbyte⟩ := List.getElem?_eq_some_iff.mp hpercent
      simp only [next?, List.drop_eq_getElem_cons hlt, hbyte, ite_true, he]

end Cursor

section Parsed

variable {text : List UInt8} {start last : Nat} {items : List FormatItem}

/-- All items can be read exactly if their contents are segments. -/
theorem mapM_content_eq_ok_iff {segments : List Segment} :
    items.mapM (·.content) = .ok segments ↔ items.map (·.content) = segments.map .ok := by
  induction items generalizing segments with
  | nil =>
    rw [List.mapM_nil, List.map_nil]
    constructor
    · intro h
      cases h
      rfl
    · intro h
      rw [List.map_eq_nil_iff.mp h.symm]
      rfl
  | cons item items ih =>
    rw [List.mapM_cons, List.map_cons]
    constructor
    · intro h
      cases hcontent : item.content with
      | error e =>
        rw [hcontent] at h
        cases h
      | ok first =>
        cases hlater : items.mapM (·.content) with
        | error e =>
          rw [hcontent, hlater] at h
          cases h
        | ok later =>
          rw [hcontent, hlater] at h
          cases h
          rw [List.map_cons, ih.mp hlater]
    · intro h
      obtain ⟨first, later, rfl, hfirst, hlater⟩ := List.map_eq_cons_iff.mp h.symm
      rw [← hfirst, ih.mpr hlater.symm]
      rfl

/-- The contents of items without a gap are segments. -/
theorem Tiles.exists_segments (h : Tiles text start items last) :
    ∃ segments : List Segment, items.map (·.content) = segments.map .ok := by
  induction h with
  | nil => exact ⟨[], rfl⟩
  | cons _ _ _ _ _ ih =>
    obtain ⟨segments, hsegments⟩ := ih
    exact ⟨_ :: segments, by rw [List.map_cons, List.map_cons, hsegments]⟩

/-- Behind segments the first failure is that of all. -/
theorem Tiles.mapM_append_error (h : Tiles text start items last) (e : Failure) (stop : Nat) :
    (items ++ [⟨.error e, stop⟩] : List FormatItem).mapM (·.content) = .error e := by
  obtain ⟨segments, hsegments⟩ := h.exists_segments
  rw [List.mapM_append, mapM_content_eq_ok_iff.mpr hsegments]
  rfl

end Parsed

section Cut

variable (format : List UInt8)

/-- A walk from the beginning takes the items of the format. -/
theorem walks_iff {items : List FormatItem} {last : Cursor} :
    Cursor.Walks (.start format) items last ↔
      items = Format.items format ∧ last = ⟨text format, (text format).length⟩ := by
  have hitems : Cursor.Walks (.start format) (Format.items format)
      ⟨text format, (text format).length⟩ :=
    Cursor.walks_itemsFrom (Nat.zero_le _) rfl
  constructor
  · exact fun h => h.unique hitems
  · rintro ⟨rfl, rfl⟩
    exact hitems

/-- What lies in a format from its beginning is its items. -/
theorem walked_iff {items : List FormatItem} :
    Walked (text format) 0 items ↔ items = Format.items format := by
  constructor
  · intro h
    exact ((walks_iff format).mp (Cursor.walks_of_walked h)).1
  · intro h
    exact ((walks_iff format).mpr ⟨h, rfl⟩).walked (Nat.zero_le _)

/-- The items of a format that ends where segments of the text end. -/
theorem items_take {front : List FormatItem} {offset : Nat}
    (h : Tiles (text format) 0 front offset) :
    Format.items ((text format).take offset) = front := by
  obtain ⟨_, hle⟩ := h.bounds (Nat.zero_le _)
  have hzero : (0 : UInt8) ∉ (text format).take offset := by
    intro hmem
    have hne := List.all_eq_true.mp List.all_takeWhile _ (List.mem_of_mem_take hmem)
    exact of_decide_eq_true hne rfl
  refine ((walked_iff _).mp (.whole ?_)).symm
  rw [text_eq hzero, List.length_take, Nat.min_eq_left hle]
  exact h.take (Nat.le_refl _)

/-- A format is parsed to the segments that lie in its text up to the end. -/
theorem parse_eq_ok_iff_tiles {segments : List Segment} : parse format = .ok segments ↔
    ∃ items, Tiles (text format) 0 items (text format).length ∧
      items.map (·.content) = segments.map .ok := by
  rw [parse]
  constructor
  · intro h
    generalize hitems : Format.items format = items at h
    cases (walked_iff format).mpr hitems.symm with
    | whole htiles => exact ⟨items, htiles, mapM_content_eq_ok_iff.mp h⟩
    | broken htiles => cases (htiles.mapM_append_error _ _).symm.trans h
  · rintro ⟨items, htiles, hsegments⟩
    rw [← (walked_iff format).mp (.whole htiles)]
    exact mapM_content_eq_ok_iff.mpr hsegments

/-- A format cannot be parsed if behind segments a directive cannot be read. -/
theorem parse_eq_error_iff_tiles {e : Failure} : parse format = .error e ↔
    ∃ front offset, Tiles (text format) 0 front offset ∧
      (text format)[offset]? = some percentByte ∧
      Directive.parseAt (text format) offset = .error e := by
  rw [parse]
  constructor
  · intro h
    generalize hitems : Format.items format = items at h
    cases (walked_iff format).mpr hitems.symm with
    | whole htiles =>
      obtain ⟨segments, hsegments⟩ := htiles.exists_segments
      cases (mapM_content_eq_ok_iff.mpr hsegments).symm.trans h
    | @broken front offset _ htiles hpercent he =>
      cases (htiles.mapM_append_error _ _).symm.trans h
      exact ⟨front, offset, htiles, hpercent, he⟩
  · rintro ⟨front, offset, htiles, hpercent, he⟩
    rw [← (walked_iff format).mp (.broken htiles hpercent he)]
    exact htiles.mapM_append_error _ _

/-- A walk through a format cuts its text into segments. -/
structure IsCutIntoSegments (format : List UInt8) : Prop where
  /-- A walk from the beginning takes the items of the format and comes to the end of the text. -/
  walks : ∀ items last, Cursor.Walks (.start format) items last ↔
    items = Format.items format ∧ last = ⟨text format, (text format).length⟩
  /-- At the end there is nothing more to take. -/
  exhausted : (⟨text format, (text format).length⟩ : Cursor).next? = none
  /-- The items lie in the text without a gap, up to the end or up to a directive that cannot be
  read, and no others do. -/
  walked : ∀ items, Walked (text format) 0 items ↔ items = Format.items format
  /-- Before a directive that cannot be read stand the segments of the format that ends there, and
  a malformed directive tells where its sign stands. -/
  broken : ∀ front offset e, Tiles (text format) 0 front offset →
    (text format)[offset]? = some percentByte →
    Directive.parseAt (text format) offset = .error e →
      Format.items ((text format).take offset) = front ∧
        (e = .malformedDirective offset ∨ e = .overflow)
  /-- A format is parsed to segments that lie in its text up to the end. -/
  parsed : ∀ segments, parse format = .ok segments ↔
    ∃ items, Tiles (text format) 0 items (text format).length ∧
      items.map (·.content) = segments.map .ok
  /-- It cannot be parsed if behind segments a directive cannot be read. -/
  failed : ∀ e, parse format = .error e ↔
    ∃ front offset, Tiles (text format) 0 front offset ∧
      (text format)[offset]? = some percentByte ∧
      Directive.parseAt (text format) offset = .error e

/-- Every format is cut into segments, which lie in its text without a gap. -/
theorem cutIntoSegments : IsCutIntoSegments format where
  walks _ _ := walks_iff format
  exhausted := Cursor.next?_end _
  walked _ := walked_iff format
  broken _ _ _ htiles _ he := ⟨items_take format htiles, Directive.failure_of_parseAt he⟩
  parsed _ := parse_eq_ok_iff_tiles format
  failed _ := parse_eq_error_iff_tiles format

end Cut

end Format

end FormattedText
