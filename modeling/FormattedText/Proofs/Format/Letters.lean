import FormattedText.Delivery
import FormattedText.Proofs.Format.Lowering
import Mathlib.Order.Monotone.Basic

/-!
# The letters of floating-point conversions

The arguments of a format are lowered with it: the letter of each floating-point conversion stands
as a character behind the arguments that the stars of the directive take
(`Format.loweredArguments`), so that the arguments behind it move on (`Format.loweredIndex`). They
stay in order (`Format.loweredIndexFrom_strictMono`), each where its number has moved
(`Format.getElem?_loweredArgumentsFrom`), and those for counts keep their values
(`finalCounts_lowered`).
-/

namespace FormattedText

/-- The letter of a floating-point conversion, as the argument of the character. -/
def Directive.letters (d : Directive) : List Argument :=
  if d.isFloating then [.char d.conversion] else []

/-- The letter of a floating-point conversion, if the segment has one. -/
def Segment.letters : Segment → List Argument
  | .directive d => d.letters
  | .literal _ | .percent => []

namespace Format

/-- The arguments with the letters of the floating-point conversions behind the arguments of their
stars; where those are missing no letter comes. -/
def loweredArgumentsFrom (items : List FormatItem) (args : List Argument) : List Argument :=
  match items with
  | [] => args
  | item :: later =>
      match item.content with
      | .error _ => args
      | .ok segment =>
          let n := segment.argumentCount .integerOnly
          if n ≤ args.length then
            args.take n ++ (segment.letters ++ loweredArgumentsFrom later (args.drop n))
          else args

/-- Where the argument at `i` stands when the letters have been put between the arguments. -/
def loweredIndexFrom (items : List FormatItem) (i : Nat) : Nat :=
  match items with
  | [] => i
  | item :: later =>
      match item.content with
      | .error _ => i
      | .ok segment =>
          let n := segment.argumentCount .integerOnly
          if i < n then i else n + segment.letters.length + loweredIndexFrom later (i - n)

/-- The arguments of a format with the letters of its floating-point conversions. -/
def loweredArguments (format : List UInt8) (args : List Argument) : List Argument :=
  loweredArgumentsFrom (items format) args

/-- Where the argument at `i` of a format stands among the lowered arguments. -/
def loweredIndex (format : List UInt8) (i : Nat) : Nat := loweredIndexFrom (items format) i

end Format

theorem Segment.argumentCount_lowered (segment : Segment) :
    segment.lowered.argumentCount .full =
      segment.argumentCount .integerOnly + segment.letters.length := by
  cases segment with
  | literal | percent => rfl
  | directive d =>
    simp only [lowered, argumentCount, letters, Directive.argumentCount,
      Directive.lowered_width, Directive.lowered_precision]
    cases hfloating : d.isFloating with
    | true =>
      have hcharacter : d.asCharacter.kind .full = .char := rfl
      have hletters : d.letters = [.char d.conversion] := if_pos hfloating
      simp only [Directive.lowered_of_isFloating hfloating, hcharacter,
        Directive.kind_integerOnly_of_isFloating hfloating, hletters, reduceCtorEq, ite_false,
        ite_true, List.length_singleton, Nat.add_zero]
    | false =>
      have hletters : d.letters = [] := if_neg (ne_true_of_eq_false hfloating)
      simp only [Directive.lowered_of_not_isFloating hfloating,
        Directive.kind_integerOnly_of_not_isFloating hfloating, hletters, List.length_nil,
        Nat.add_zero]

namespace Format

section Letters

variable {item : FormatItem} {items : List FormatItem} {segment : Segment} {e : Failure}

theorem loweredArgumentsFrom_of_unread (hc : item.content = .error e) (args : List Argument) :
    loweredArgumentsFrom (item :: items) args = args := by
  simp only [loweredArgumentsFrom, hc]

theorem loweredArgumentsFrom_of_read (hc : item.content = .ok segment) (args : List Argument) :
    let n := segment.argumentCount .integerOnly
    loweredArgumentsFrom (item :: items) args = if n ≤ args.length then
      args.take n ++ (segment.letters ++ loweredArgumentsFrom items (args.drop n)) else args := by
  simp only [loweredArgumentsFrom, hc]

theorem loweredIndexFrom_of_unread (hc : item.content = .error e) (i : Nat) :
    loweredIndexFrom (item :: items) i = i := by
  simp only [loweredIndexFrom, hc]

theorem loweredIndexFrom_of_read (hc : item.content = .ok segment) (i : Nat) :
    let n := segment.argumentCount .integerOnly
    loweredIndexFrom (item :: items) i =
      if i < n then i else n + segment.letters.length + loweredIndexFrom items (i - n) := by
  simp only [loweredIndexFrom, hc]

/-- The arguments stay in order. -/
theorem loweredIndexFrom_strictMono (items : List FormatItem) :
    StrictMono (loweredIndexFrom items) := by
  induction items with
  | nil => exact fun _ _ h => h
  | cons item items ih =>
    intro i j hij
    cases hc : item.content with
    | error e =>
      rw [loweredIndexFrom_of_unread hc, loweredIndexFrom_of_unread hc]
      exact hij
    | ok segment =>
      rw [loweredIndexFrom_of_read hc, loweredIndexFrom_of_read hc]
      by_cases hj : j < segment.argumentCount .integerOnly
      · rw [if_pos (Nat.lt_trans hij hj), if_pos hj]
        exact hij
      · rw [if_neg hj]
        by_cases hi : i < segment.argumentCount .integerOnly
        · rw [if_pos hi]
          omega
        · have hlater : loweredIndexFrom items (i - segment.argumentCount .integerOnly) <
              loweredIndexFrom items (j - segment.argumentCount .integerOnly) := ih (by omega)
          rw [if_neg hi]
          omega

/-- Every argument stands where its number has moved. -/
theorem getElem?_loweredArgumentsFrom (items : List FormatItem) (args : List Argument) (i : Nat) :
    (loweredArgumentsFrom items args)[loweredIndexFrom items i]? = args[i]? := by
  induction items generalizing args i with
  | nil => rfl
  | cons item items ih =>
    cases hc : item.content with
    | error e => rw [loweredArgumentsFrom_of_unread hc, loweredIndexFrom_of_unread hc]
    | ok segment =>
      rw [loweredArgumentsFrom_of_read hc, loweredIndexFrom_of_read hc]
      generalize segment.argumentCount .integerOnly = n
      by_cases hi : i < n
      · rw [if_pos hi]
        split
        · rename_i hn
          have htake : i < (args.take n).length := by
            rw [List.length_take, Nat.min_eq_left hn]
            exact hi
          rw [List.getElem?_append_left htake, List.getElem?_take, if_pos hi]
        · rfl
      · rw [if_neg hi]
        split
        · rename_i hn
          have htake : (args.take n).length = n := by
            rw [List.length_take, Nat.min_eq_left hn]
          rw [← List.append_assoc, List.getElem?_append_right, List.length_append, htake,
            Nat.add_sub_cancel_left, ih, List.getElem?_drop]
          · congr 1
            omega
          · rw [List.length_append, htake]
            exact Nat.le_add_right _ _
        · rw [List.getElem?_eq_none, List.getElem?_eq_none] <;> omega

end Letters

end Format

section Counts

/-- Arguments at other places give the same values, if each of them does. -/
theorem filterMap_zipIdx_congr {α β : Type} {f f' : α × Nat → Option β} {p q : Nat}
    (args : List α) (h : ∀ a, ∀ i < args.length, f' (a, q + i) = f (a, p + i)) :
    (args.zipIdx q).filterMap f' = (args.zipIdx p).filterMap f := by
  induction args generalizing p q with
  | nil => rfl
  | cons a args ih =>
    have hhere : f' (a, q) = f (a, p) := h a 0 (Nat.succ_pos _)
    have hlater : (args.zipIdx (q + 1)).filterMap f' = (args.zipIdx (p + 1)).filterMap f := by
      refine ih fun b i hi => ?_
      rw [Nat.add_assoc, Nat.add_assoc, Nat.add_comm 1 i]
      exact h b (i + 1) (Nat.succ_lt_succ hi)
    rw [List.zipIdx_cons, List.zipIdx_cons, List.filterMap_cons, List.filterMap_cons, hhere, hlater]

theorem Segment.eq_char_of_mem_letters {segment : Segment} {a : Argument}
    (h : a ∈ segment.letters) : ∃ b, a = .char b := by
  cases segment with
  | literal | percent => cases h
  | directive d =>
    rw [letters, Directive.letters] at h
    split at h
    · exact ⟨_, List.mem_singleton.mp h⟩
    · cases h

/-- Values that no character gives are those of the arguments without the letters. -/
theorem Format.filterMap_loweredArgumentsFrom {β : Type} {f f' : Argument × Nat → Option β}
    {p q : Nat} (items : List FormatItem) (args : List Argument)
    (h : ∀ a i, f' (a, q + loweredIndexFrom items i) = f (a, p + i))
    (hletter : ∀ b i, f' (.char b, i) = none) :
    ((loweredArgumentsFrom items args).zipIdx q).filterMap f' =
      (args.zipIdx p).filterMap f := by
  induction items generalizing args p q with
  | nil => exact filterMap_zipIdx_congr args fun a i _ => h a i
  | cons item items ih =>
    cases hc : item.content with
    | error e =>
      simp only [loweredIndexFrom_of_unread hc] at h
      rw [loweredArgumentsFrom_of_unread hc]
      exact filterMap_zipIdx_congr args fun a i _ => h a i
    | ok segment =>
      simp only [loweredIndexFrom_of_read hc] at h
      rw [loweredArgumentsFrom_of_read hc]
      generalize segment.argumentCount .integerOnly = n at h
      have hfirst : ∀ a, ∀ i < n, f' (a, q + i) = f (a, p + i) := by
        intro a i hi
        rw [← h a i, if_pos hi]
      by_cases hn : n ≤ args.length
      · have htake : (args.take n).length = n := List.length_take_of_le hn
        have hnone : (segment.letters.zipIdx (q + n)).filterMap f' = [] := by
          rw [List.filterMap_eq_nil_iff]
          rintro ⟨a, i⟩ hmem
          obtain ⟨b, rfl⟩ := Segment.eq_char_of_mem_letters (List.fst_mem_of_mem_zipIdx hmem)
          exact hletter b i
        have hlater : ∀ a i, f' (a, q + n + segment.letters.length + loweredIndexFrom items i) =
            f (a, p + n + i) := by
          intro a i
          have hmoved := h a (n + i)
          rw [if_neg (Nat.not_lt.mpr (Nat.le_add_right n i)), Nat.add_sub_cancel_left] at hmoved
          simp only [Nat.add_assoc] at hmoved ⊢
          exact hmoved
        calc ((if n ≤ args.length then args.take n ++
              (segment.letters ++ loweredArgumentsFrom items (args.drop n)) else args).zipIdx
              q).filterMap f'
            = ((args.take n).zipIdx q).filterMap f' ++
                ((loweredArgumentsFrom items (args.drop n)).zipIdx
                  (q + n + segment.letters.length)).filterMap f' := by
              rw [if_pos hn, List.zipIdx_append, List.zipIdx_append, List.filterMap_append,
                List.filterMap_append, htake, hnone, List.nil_append]
          _ = ((args.take n).zipIdx p).filterMap f ++
                ((args.drop n).zipIdx (p + n)).filterMap f := by
              rw [ih _ hlater, filterMap_zipIdx_congr (args.take n) fun a i hi =>
                hfirst a i (htake ▸ hi)]
          _ = (args.zipIdx p).filterMap f := by
              rw [← List.filterMap_append]
              conv_rhs => rw [← List.take_append_drop n args, List.zipIdx_append, htake]
      · rw [if_neg hn]
        exact filterMap_zipIdx_congr args fun a i hi => hfirst a i (by omega)

theorem lookup_map_injective {index : Nat → Nat} (hindex : Function.Injective index)
    (counts : List (Nat × Int)) (i : Nat) :
    (counts.map fun c => (index c.1, c.2)).lookup (index i) = counts.lookup i := by
  induction counts with
  | nil => rfl
  | cons c counts ih =>
    obtain ⟨j, v⟩ := c
    have hsame : (index i == index j) = (i == j) := by
      rw [Bool.eq_iff_iff, beq_iff_eq, beq_iff_eq]
      exact hindex.eq_iff
    rw [List.map_cons, List.lookup_cons, List.lookup_cons, ih, hsame]

/-- The arguments for counts keep their values. -/
theorem finalCounts_lowered (format : List UInt8) (args : List Argument)
    (counts : List (Nat × Int)) :
    finalCounts (counts.map fun c => (Format.loweredIndex format c.1, c.2))
        (Format.loweredArguments format args) = finalCounts counts args := by
  have hinjective := (Format.loweredIndexFrom_strictMono (Format.items format)).injective
  refine Format.filterMap_loweredArgumentsFrom (Format.items format) args ?_ fun _ _ => rfl
  intro a i
  have hlookup := lookup_map_injective hinjective counts i
  simp only [finalCount, Nat.zero_add]
  simp only [Format.loweredIndex, hlookup]

end Counts

section Agreement

/-- No item of a format is a floating-point directive. -/
def Format.HasNoFloating (items : List FormatItem) : Prop :=
  ∀ item ∈ items, ∀ d, item.content = .ok (.directive d) → d.isFloating = false

theorem Segment.lowered_of_not_isFloating {segment : Segment}
    (h : ∀ d, segment = .directive d → d.isFloating = false) :
    segment.lowered = segment ∧ segment.letters = [] := by
  cases segment with
  | literal | percent => exact ⟨rfl, rfl⟩
  | directive d =>
    have hd := h d rfl
    exact ⟨congrArg directive (Directive.lowered_of_not_isFloating hd),
      if_neg (ne_true_of_eq_false hd)⟩

/-- Without floating-point conversions the arguments stay as they are. -/
theorem Format.HasNoFloating.lowered {items : List FormatItem} (h : HasNoFloating items)
    (args : List Argument) (i : Nat) :
    loweredArgumentsFrom items args = args ∧ loweredIndexFrom items i = i := by
  induction items generalizing args i with
  | nil => exact ⟨rfl, rfl⟩
  | cons item items ih =>
    cases hc : item.content with
    | error e => exact ⟨loweredArgumentsFrom_of_unread hc args, loweredIndexFrom_of_unread hc i⟩
    | ok segment =>
      have hletters := (Segment.lowered_of_not_isFloating fun d hd =>
        h item List.mem_cons_self d (hc.trans (congrArg Except.ok hd))).2
      have hlater : HasNoFloating items := fun item hmem => h item (List.mem_cons_of_mem _ hmem)
      obtain ⟨hargs, hindex⟩ := ih hlater (args.drop (segment.argumentCount .integerOnly))
        (i - segment.argumentCount .integerOnly)
      rw [loweredArgumentsFrom_of_read hc, loweredIndexFrom_of_read hc, hletters, hargs, hindex]
      constructor
      · split
        · exact List.take_append_drop _ args
        · rfl
      · split
        · rfl
        · rw [List.length_nil]
          omega

end Agreement

end FormattedText
