import FormattedText.Directive.Segment

/-!
# Segments of a longer format

A directive that has been read ends with its conversion, so bytes behind it change nothing
(`Directive.parse_append`). The same segments are found at another offset, only that what
they say of offsets moves along (`Format.itemsFrom_add`).
-/

namespace FormattedText

/-- A failure in a part of a format, as one of the whole: `args` arguments and `bytes` bytes
of the format come before the part. -/
def Failure.shifted (args bytes : Nat) : Failure → Failure
  | .argumentMismatch index => .argumentMismatch (args + index)
  | .malformedDirective offset => .malformedDirective (bytes + offset)
  | e => e

/-- A result of a part of a format, as one of the whole. -/
def shiftedResult {α β : Type} (args bytes : Nat) (f : α → β) :
    Except Failure α → Except Failure β
  | .ok value => .ok (f value)
  | .error e => .error (e.shifted args bytes)

theorem takeWhile_append_of_dropWhile_ne_nil {α : Type} {p : α → Bool} {s : List α}
    (h : s.dropWhile p ≠ []) (g : List α) :
    (s ++ g).takeWhile p = s.takeWhile p ∧ (s ++ g).dropWhile p = s.dropWhile p ++ g := by
  induction s with
  | nil => exact absurd List.dropWhile_nil h
  | cons b s ih =>
    rw [List.cons_append, List.takeWhile_cons, List.takeWhile_cons, List.dropWhile_cons,
      List.dropWhile_cons]
    rw [List.dropWhile_cons] at h
    cases hb : p b with
    | true =>
      rw [hb] at h
      obtain ⟨htake, hdrop⟩ := ih h
      exact ⟨congrArg (b :: ·) htake, hdrop⟩
    | false => exact ⟨rfl, rfl⟩

theorem takeWhile_append_of_dropWhile_eq_nil {α : Type} {p : α → Bool} {s : List α}
    (h : s.dropWhile p = []) (g : List α) :
    s.takeWhile p = s ∧ (s ++ g).takeWhile p = s ++ g.takeWhile p ∧
      (s ++ g).dropWhile p = g.dropWhile p := by
  have htake := List.takeWhile_append_dropWhile (p := p) (l := s)
  rw [h, List.append_nil] at htake
  have hall : ∀ a ∈ s, p a = true := by
    rw [← htake]
    exact List.all_eq_true.mp List.all_takeWhile
  exact ⟨htake, List.takeWhile_append_of_pos hall, List.dropWhile_append_of_pos hall⟩

namespace Directive

section Append

variable {s rest : List UInt8} (g : List UInt8)

theorem takeFlags_append (flags : Flags) (h : (takeFlags flags s).2 ≠ []) :
    takeFlags flags (s ++ g) = ((takeFlags flags s).1, (takeFlags flags s).2 ++ g) := by
  induction s generalizing flags with
  | nil => exact absurd rfl h
  | cons b s ih =>
    rw [List.cons_append, takeFlags, takeFlags]
    rw [takeFlags] at h
    cases hb : Flag.ofByte? b with
    | none => rfl
    | some flag =>
      simp only [hb] at h
      exact ih _ h

theorem takeNumber_append {n : Nat} (h : takeNumber s = .ok (n, rest)) (hrest : rest ≠ []) :
    takeNumber (s ++ g) = .ok (n, rest ++ g) := by
  unfold takeNumber at h ⊢
  simp only at h ⊢
  split at h
  · cases h
  · rename_i hle
    cases h
    obtain ⟨htake, hdrop⟩ := takeWhile_append_of_dropWhile_ne_nil hrest g
    rw [htake, hdrop, if_neg hle]

theorem takeMeasure_append {m : Measure} (h : takeMeasure s = .ok (m, rest)) (hrest : rest ≠ []) :
    takeMeasure (s ++ g) = .ok (m, rest ++ g) := by
  have number {s : List UInt8}
      (h : (takeNumber s).map (fun p => (Measure.fixed p.1, p.2)) = .ok (m, rest)) :
      (takeNumber (s ++ g)).map (fun p => (Measure.fixed p.1, p.2)) = .ok (m, rest ++ g) := by
    cases hn : takeNumber s with
    | error e =>
      rw [hn] at h
      cases h
    | ok p =>
      rw [hn] at h
      cases h
      rw [takeNumber_append g hn hrest]
      rfl
  cases s with
  | nil =>
    rw [takeMeasure] at h
    cases h
    exact absurd rfl hrest
  | cons b s =>
    rw [List.cons_append, takeMeasure]
    rw [takeMeasure] at h
    split at h
    · rename_i hstar
      cases h
      rw [if_pos hstar]
    · rename_i hstar
      rw [if_neg hstar]
      exact number h

theorem takeWidth_append {m : Measure} (h : takeWidth s = .ok (m, rest)) (hrest : rest ≠ []) :
    takeWidth (s ++ g) = .ok (m, rest ++ g) := by
  cases s with
  | nil =>
    cases h
    exact absurd rfl hrest
  | cons b s =>
    rw [List.cons_append, takeWidth]
    rw [takeWidth] at h
    split at h
    · rename_i hwidth
      rw [if_pos hwidth]
      exact takeMeasure_append g h hrest
    · rename_i hwidth
      cases h
      rw [if_neg hwidth, List.cons_append]

theorem takePrecision_append {m : Measure} (h : takePrecision s = .ok (m, rest))
    (hrest : rest ≠ []) : takePrecision (s ++ g) = .ok (m, rest ++ g) := by
  cases s with
  | nil =>
    cases h
    exact absurd rfl hrest
  | cons b s =>
    rw [List.cons_append, takePrecision]
    rw [takePrecision] at h
    split at h
    · rename_i hpoint
      rw [if_pos hpoint]
      exact takeMeasure_append g h hrest
    · rename_i hpoint
      cases h
      rw [if_neg hpoint, List.cons_append]

theorem isPrefixOf_append {p s : List UInt8} (h : p.length ≤ s.length) (g : List UInt8) :
    p.isPrefixOf (s ++ g) = p.isPrefixOf s := by
  rw [Bool.eq_iff_iff, List.isPrefixOf_iff_prefix, List.isPrefixOf_iff_prefix]
  exact ⟨fun hp => List.prefix_of_prefix_length_le hp (List.prefix_append s g) h,
    fun hp => hp.trans (List.prefix_append s g)⟩

/-- A modifier has one byte or two, and the first of them is a modifier itself. -/
theorem head_mem_spellings : ∀ p ∈ Length.spellings, p.1.length ≤ 2 ∧ p.1 ≠ [] ∧
    ∃ q ∈ Length.spellings, q.1 = [p.1.headD 0] := by
  decide

/-- Where the same modifiers stand, the same one is found. -/
theorem find?_spellings_congr {s t : List UInt8}
    (h : ∀ p ∈ Length.spellings, p.1.isPrefixOf s = p.1.isPrefixOf t) :
    (Length.spellings.find? fun p => p.1.isPrefixOf s) =
      Length.spellings.find? fun p => p.1.isPrefixOf t := by
  rw [← List.head?_filter, ← List.head?_filter, List.filter_congr h]

/-- A byte that a modifier would have to take is not left behind. -/
theorem not_isPrefixOf_of_takeLength {b : UInt8} (h : (takeLength [b]).2 ≠ []) (t : List UInt8) :
    ∀ p ∈ Length.spellings, p.1.isPrefixOf (b :: t) = false := by
  intro p hp
  obtain ⟨_, hne, q, hq, hhead⟩ := head_mem_spellings p hp
  cases hb : p.1.isPrefixOf (b :: t) with
  | false => rfl
  | true =>
    refine absurd ?_ h
    obtain ⟨first, later, hcons⟩ := List.exists_cons_of_ne_nil hne
    rw [hcons, List.isPrefixOf_iff_prefix, List.cons_prefix_cons] at hb
    rw [hcons, List.headD_cons, hb.1] at hhead
    have hprefix : q.1 <+: [b] := hhead ▸ List.prefix_rfl
    have hmatch : q.1.isPrefixOf [b] = true := List.isPrefixOf_iff_prefix.mpr hprefix
    rw [takeLength]
    split
    · rename_i r spelling length hr
      have hpos : spelling ≠ [] := (head_mem_spellings _ (List.mem_of_find?_eq_some hr)).2.1
      exact List.drop_eq_nil_of_le (List.length_pos_iff.mpr hpos)
    · rename_i hnone
      exact absurd hmatch (List.find?_eq_none.mp hnone q hq)

theorem takeLength_append (h : (takeLength s).2 ≠ []) :
    takeLength (s ++ g) = ((takeLength s).1, (takeLength s).2 ++ g) := by
  have hsame : ∀ p ∈ Length.spellings, p.1.isPrefixOf (s ++ g) = p.1.isPrefixOf s := by
    intro p hp
    cases s with
    | nil => exact absurd rfl h
    | cons b t =>
      cases t with
      | nil =>
        rw [not_isPrefixOf_of_takeLength h [] p hp]
        exact not_isPrefixOf_of_takeLength h g p hp
      | cons c t =>
        have hlen : p.1.length ≤ (b :: c :: t).length :=
          Nat.le_trans (head_mem_spellings p hp).1 (Nat.le_add_left 2 t.length)
        exact isPrefixOf_append hlen g
  rw [takeLength, takeLength, find?_spellings_congr hsame]
  split
  · rename_i spelling length hp
    have hprefix := List.find?_some hp
    rw [List.isPrefixOf_iff_prefix] at hprefix
    rw [List.drop_append_of_le_length hprefix.length_le]
  · rfl

end Append

section Parts

variable {s rest : List UInt8} {d : Directive}

/-- A directive is read part by part. -/
theorem parse_eq_ok_iff : parse s = .ok (d, rest) ↔
    (takeFlags .none s).1 = d.flags ∧
      ∃ s₂ s₃, takeWidth (takeFlags .none s).2 = .ok (d.width, s₂) ∧
        takePrecision s₂ = .ok (d.precision, s₃) ∧
        takeLength s₃ = (d.length, d.conversion :: rest) := by
  obtain ⟨flags, width, precision, length, conversion⟩ := d
  simp only [parse, bind, Except.bind]
  constructor
  · intro h
    cases hw : takeWidth (takeFlags .none s).2 with
    | error e => simp only [hw, reduceCtorEq] at h
    | ok w =>
      obtain ⟨m, s₂⟩ := w
      simp only [hw] at h
      cases hp : takePrecision s₂ with
      | error e => simp only [hp, reduceCtorEq] at h
      | ok p =>
        obtain ⟨q, s₃⟩ := p
        simp only [hp] at h
        cases hl : takeLength s₃ with
        | mk l s₄ =>
          cases s₄ with
          | nil => simp only [hl, takeConversion, reduceCtorEq] at h
          | cons b r =>
            simp only [hl, takeConversion] at h
            cases h
            exact ⟨rfl, s₂, s₃, rfl, hp, hl⟩
  · rintro ⟨hf, s₂, s₃, hw, hp, hl⟩
    simp only [hw, hp, hl, takeConversion, hf]
    rfl

/-- Nothing behind the conversion of a directive is looked at. -/
theorem parse_append (h : parse s = .ok (d, rest)) (g : List UInt8) :
    parse (s ++ g) = .ok (d, rest ++ g) := by
  obtain ⟨hf, s₂, s₃, hw, hp, hl⟩ := parse_eq_ok_iff.mp h
  have hl₄ : (takeLength s₃).2 ≠ [] := by
    rw [hl]
    exact List.cons_ne_nil _ _
  have hs₃ : s₃ ≠ [] := by
    rintro rfl
    exact hl₄ rfl
  have hs₂ : s₂ ≠ [] := by
    rintro rfl
    exact hs₃ (Prod.mk.inj (Except.ok.inj hp)).2.symm
  have hs₁ : (takeFlags .none s).2 ≠ [] := by
    intro hnil
    rw [hnil] at hw
    exact hs₂ (Prod.mk.inj (Except.ok.inj hw)).2.symm
  rw [parse_eq_ok_iff, takeFlags_append g _ hs₁]
  refine ⟨hf, s₂ ++ g, s₃ ++ g, takeWidth_append g hw hs₂, takePrecision_append g hp hs₃, ?_⟩
  rw [takeLength_append g hl₄, hl, List.cons_append]

end Parts

end Directive

/-- A segment in a part of a format, as one of the whole. -/
def FormatItem.shifted (args bytes : Nat) (item : FormatItem) : FormatItem :=
  ⟨shiftedResult args bytes id item.content, bytes + item.stop⟩

theorem DirectiveError.failure_add (args bytes offset : Nat) (e : DirectiveError) :
    e.failure (bytes + offset) = (e.failure offset).shifted args bytes := by
  cases e <;> rfl

namespace Format

/-- The literal bytes that a format begins with. -/
def lead (format : List UInt8) : List UInt8 := (text format).takeWhile (· ≠ percentByte)

/-- A format without a zero byte is text up to its end, whatever comes behind it. -/
theorem text_append {f : List UInt8} (hzero : 0 ∉ f) (g : List UInt8) :
    text (f ++ g) = f ++ text g := by
  have hnonzero : ∀ b ∈ f, decide (b ≠ 0) = true := by
    intro b hb
    exact decide_eq_true fun h => hzero (h ▸ hb)
  exact List.takeWhile_append_of_pos hnonzero

theorem text_eq {f : List UInt8} (hzero : 0 ∉ f) : text f = f := by
  have hall := text_append hzero []
  rw [List.append_nil] at hall
  exact hall.trans (List.append_nil f)

section Items

variable {b : UInt8} {more rest : List UInt8} {d : Directive} (offset : Nat)

theorem itemsFrom_nil : itemsFrom offset [] = [] := by
  rw [itemsFrom]

/-- A directive that can be read is the first segment. -/
theorem itemsFrom_directive (h : Directive.parse more = .ok (d, rest)) :
    let stop := offset + (more.length + 1 - rest.length)
    itemsFrom offset (percentByte :: more) =
      ⟨.ok (.ofDirective d), stop⟩ :: itemsFrom stop rest := by
  rw [itemsFrom, if_pos rfl]
  split
  · rename_i e he
    rw [h] at he
    cases he
  · rename_i d' rest' hok
    rw [h] at hok
    cases hok
    rfl

/-- A directive that cannot be read is the last segment. -/
theorem itemsFrom_unread {e : DirectiveError} (h : Directive.parse more = .error e) :
    itemsFrom offset (percentByte :: more) =
      [⟨.error (e.failure offset), offset + (more.length + 1)⟩] := by
  rw [itemsFrom, if_pos rfl]
  split
  · rename_i e' he
    rw [h] at he
    cases he
    rfl
  · rename_i d' rest' hok
    rw [h] at hok
    cases hok

/-- Literal bytes go on until a percent sign. -/
theorem itemsFrom_literal (h : b ≠ percentByte) :
    let run := b :: more.takeWhile (· ≠ percentByte)
    itemsFrom offset (b :: more) = ⟨.ok (.literal run), offset + run.length⟩ ::
      itemsFrom (offset + run.length) (more.dropWhile (· ≠ percentByte)) := by
  rw [itemsFrom, if_neg h]

/-- Behind a directive stands the rest of the format. -/
theorem stop_directive (h : Directive.parse more = .ok (d, rest)) :
    offset + (more.length + 1 - rest.length) + rest.length =
      offset + (percentByte :: more).length := by
  have hlen := Directive.length_lt_of_parse h
  rw [List.length_cons]
  omega

/-- Behind a literal stands the rest of the format. -/
theorem stop_literal (b : UInt8) (more : List UInt8) :
    offset + (b :: more.takeWhile (· ≠ percentByte)).length +
        (more.dropWhile (· ≠ percentByte)).length =
      offset + (b :: more).length := by
  have hall := congrArg List.length
    (List.takeWhile_append_dropWhile (p := (· ≠ percentByte)) (l := more))
  rw [List.length_append] at hall
  simp only [List.length_cons]
  omega

/-- A directive ends where it ends, whatever follows. -/
theorem itemsFrom_directive_append (h : Directive.parse more = .ok (d, rest)) (g : List UInt8) :
    let stop := offset + (more.length + 1 - rest.length)
    itemsFrom offset (percentByte :: more ++ g) =
      ⟨.ok (.ofDirective d), stop⟩ :: itemsFrom stop (rest ++ g) := by
  intro stop
  have hstop : offset + ((more ++ g).length + 1 - (rest ++ g).length) = stop := by
    simp only [stop, List.length_append]
    omega
  rw [List.cons_append, itemsFrom_directive offset (Directive.parse_append h g), hstop]

/-- A literal before a percent sign ends there, whatever follows. -/
theorem itemsFrom_literal_append (h : b ≠ percentByte)
    (hmore : more.dropWhile (· ≠ percentByte) ≠ []) (g : List UInt8) :
    let run := b :: more.takeWhile (· ≠ percentByte)
    itemsFrom offset (b :: more ++ g) = ⟨.ok (.literal run), offset + run.length⟩ ::
      itemsFrom (offset + run.length) (more.dropWhile (· ≠ percentByte) ++ g) := by
  obtain ⟨htake, hdrop⟩ := takeWhile_append_of_dropWhile_ne_nil hmore g
  rw [List.cons_append, itemsFrom_literal offset h, htake, hdrop]

/-- A literal at the end goes on in what follows. -/
theorem itemsFrom_literal_joined (h : b ≠ percentByte)
    (hmore : more.dropWhile (· ≠ percentByte) = []) (g : List UInt8) :
    let lead := g.takeWhile (· ≠ percentByte)
    let stop := offset + (b :: more).length + lead.length
    itemsFrom offset (b :: more) = [⟨.ok (.literal (b :: more)), offset + (b :: more).length⟩] ∧
      itemsFrom offset (b :: more ++ g) =
        ⟨.ok (.literal (b :: more ++ lead)), stop⟩ ::
          itemsFrom stop (g.dropWhile (· ≠ percentByte)) := by
  intro lead stop
  obtain ⟨hself, htake, hdrop⟩ := takeWhile_append_of_dropWhile_eq_nil hmore g
  have hstop : offset + (b :: (more ++ lead)).length = stop := by
    simp only [stop, List.length_cons, List.length_append]
    omega
  constructor
  · rw [itemsFrom_literal offset h, hself, hmore, itemsFrom_nil]
  · rw [List.cons_append, itemsFrom_literal offset h, htake, hdrop, hstop]
    rfl

/-- The segments of the same bytes further on in a format. -/
theorem itemsFrom_add (args bytes : Nat) (s : List UInt8) :
    itemsFrom (bytes + offset) s = (itemsFrom offset s).map (.shifted args bytes) := by
  fun_induction itemsFrom offset s with
  | case1 offset => rw [itemsFrom_nil, List.map_nil]
  | case2 offset more e he =>
    rw [itemsFrom_unread _ he, Nat.add_assoc, e.failure_add args]
    rfl
  | case3 offset more d rest hd stop ih =>
    rw [itemsFrom_directive _ hd, List.map_cons, ← ih, Nat.add_assoc]
    rfl
  | case4 offset b more hb run stop ih =>
    rw [itemsFrom_literal _ hb, List.map_cons, ← ih, Nat.add_assoc]
    rfl

end Items

end Format

end FormattedText
