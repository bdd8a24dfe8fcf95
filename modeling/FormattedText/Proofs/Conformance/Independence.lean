import FormattedText.Proofs.Conformance.Script
import FormattedText.Proofs.Format.Relocation
import Mathlib.Data.List.Forall2

/-!
# Cases do not influence one another

The cases of a set are carried out by one thread, and each uses a locale in it. Of all that the
thread has, a case looks at nothing, and it changes only the encoding that the thread has of its
own, which is gone afterwards (`Case.fst_execute`, `Case.execute_snd`). So every case gets the
verdict that it gets alone in a new thread, whatever the thread did before, and sets may be put
one behind the other (`FixtureSet.carriedOutApart`).

Two things do not belong to the thread. A case whose buffer the machine cannot make is broken off,
which ends the run without verdicts, and `%p` shows where a text happens to stand
(`FixtureSet.carriedOutApart_overlong`). The first depends on the case, the encoding and the
machine only (`Operation.isBrokenOff`); the second matters for no other case
(`Case.fst_execute_relocated`).

That the implicit conversion states stay, is a fact about calls that could change them. So it is
also told of the calls that the cases make in a session (`Case.performEach_eq`).
-/

namespace FormattedText

namespace Conformance

namespace Operation

/-- Does the machine break the operation off in an encoding? -/
def isBrokenOff (op : Operation) (host : Host) (enc : Encoding) (inputs : Json) : Bool :=
  match op.trial (host.complaint op inputs) inputs with
  | .error _ => false
  | .ok trial => !(trial.buffer.all host.reserves && host.endures op enc inputs)

/-- Does a formatted write show where one of its texts stands? -/
def showsAddress (op : Operation) (enc : Encoding) (inputs : Json) : Bool :=
  match op with
  | .printToBuffer writer | .printToMemory writer =>
      (PrintInputs.ofJson? inputs).any fun given =>
        match given.args.mapM id with
        | .error _ => false
        | .ok args => Rendering.showsAddress ⟨writer, enc⟩ (textBytes given.format) args
  | _ => false

end Operation

namespace Case

/-- The operation of a case and the encoding that it is carried out in by a process, if it is. -/
def carriedOut? (c : Case) (p : Process) : Option (Operation × Encoding) :=
  match c.localeName?.mapM Locale.parse with
  | .error _ => none
  | .ok locale =>
      (Operation.names.lookup c.function).map fun op =>
        (op, (locale.map (·.encoding)).getD p.encoding)

/-- Does the machine break the case off? -/
def isBrokenOff (c : Case) (host : Host) (p : Process) : Bool :=
  (c.carriedOut? p).any fun (op, enc) => op.isBrokenOff host enc c.inputs

/-- Does the case show where one of its texts stands? -/
def showsAddress (c : Case) (p : Process) : Bool :=
  (c.carriedOut? p).any fun (op, enc) => op.showsAddress enc c.inputs

/-- A thread after cases: once one was begun, it has no encoding of its own. -/
def threadAfter (t : Thread) (cases : List Case) : Thread :=
  if cases.any Case.isBegun then { t with override := none } else t

end Case

namespace FixtureSet

/-- The cases of a set that a filter selects. -/
def selected (set : FixtureSet) (only : Option String) : List Case :=
  set.cases.filter (Case.isSelected only)

/-- A case gets a verdict alone, in a new thread of a process. -/
def GivesAlone (set : FixtureSet) (host : Host) (p : Process) (place : Placement) (c : Case)
    (v : Verdict) : Prop :=
  ({ set with cases := [c] }.run none host (fun _ => place) p .fresh).1 = some [v]

/-- How the cases of a set go in a thread of a process, whatever the thread did before. -/
structure CarriedOutApart (set : FixtureSet) (only : Option String) (host : Host)
    (places : Nat → Placement) (p : Process) (t : Thread) : Prop where
  /-- There are verdicts exactly where the machine breaks none of the selected cases off. -/
  returns : (set.run only host places p t).1.isSome = true ↔
    ∀ c ∈ set.selected only, c.isBrokenOff host p = false
  /-- They are, in order, the verdicts that the selected cases get alone in a new thread of any
  process of the same encoding, their texts standing where they do. -/
  alone : ∀ q : Process, q.encoding = p.encoding →
    ∀ verdicts, (set.run only host places p t).1 = some verdicts →
      List.Forall₂ (fun (x : Case × Placement) v => set.GivesAlone host q x.2 x.1 v)
        ((set.selected only).mapIdx fun i c => (c, places i)) verdicts
  /-- Where its texts stand does not matter for a case that does not show it. -/
  elsewhere : ∀ c ∈ set.selected only, c.showsAddress p = false →
    ∀ (place place' : Placement) (v : Verdict),
      set.GivesAlone host p place c v → set.GivesAlone host p place' c v
  /-- More cases behind those of the set get the verdicts that they get from any thread. -/
  append : ∀ (more : List Case) (u : Thread),
    ({ set with cases := set.cases ++ more }.run only host places p t).1 =
      (set.run only host places p t).1.bind fun verdicts =>
        ({ set with cases := more }.run only host
          (fun i => places (i + (set.selected only).length)) p u).1.map (verdicts ++ ·)
  /-- The thread keeps its error number and its implicit states. -/
  keeps : (set.run only host places p t).2.errno = t.errno ∧
    (set.run only host places p t).2.implicit = t.implicit
  /-- With verdicts for all cases, an encoding of its own is kept until a case is begun. -/
  thread : (set.run only host places p t).1.isSome = true →
    (set.run only host places p t).2 = Case.threadAfter t (set.selected only)
  /-- Behind any case that was begun and not broken off the thread has no encoding of its own. -/
  begun : ∀ front c rest, set.selected only = front ++ c :: rest → c.isBegun = true →
    (runCases host p set.family places t (front ++ [c])).1.isSome = true →
      (runCases host p set.family places t (front ++ [c])).2.override = none
  /-- The calls of the cases show the verdicts in any world of the process and the thread, and
  leave this process and the same thread. -/
  session : ∀ w : World, w.process = p → w.thread = t →
    (Case.performEach host set.family places w (set.selected only)).1 =
        (set.run only host places p t).1 ∧
      (Case.performEach host set.family places w (set.selected only)).2.process = p ∧
      (Case.performEach host set.family places w (set.selected only)).2.thread =
        (set.run only host places p t).2

end FixtureSet

section Relocation

theorem map_placedAt_placed (place : Placement) (args : List Argument) :
    (placed place args).map (·.placedAt 0) = args.map (·.placedAt 0) := by
  refine List.ext_getElem? fun i => ?_
  simp only [placed, List.getElem?_map, List.getElem?_mapIdx, Option.map_map]
  refine congrArg (Option.map · args[i]?) (funext fun a => ?_)
  exact a.placedAt_placedAt 0 (place i)

/-- A formatted write that shows no address goes the same wherever the texts stand. -/
theorem formatInto_placed {σ : Type} [Sink σ] (sink : σ) {options : FormatOptions}
    {format : List UInt8} {args : List Argument}
    (h : Rendering.showsAddress options format args = false) (place : Placement) :
    formatInto sink options format (placed place args) = formatInto sink options format args := by
  rw [formatInto, formatInto, Rendering.ofFormat_relocated (map_placedAt_placed place args) h]

/-- What is observed of an operation that shows no address is the same wherever the texts
stand. -/
theorem Operation.observe_relocated {op : Operation} {enc : Encoding} {inputs : Json}
    (h : op.showsAddress enc inputs = false) (host : Host) (place place' : Placement) :
    op.observe host place' enc inputs = op.observe host place enc inputs := by
  cases op with
  | decodeString | encodeString =>
    rw [observe, observe, trial]
    cases conversionInputs? _ _ _ inputs <;> rfl
  | decodeOne =>
    rw [observe, observe, trial]
    cases chunks? inputs <;> rfl
  | printToBuffer writer | printToMemory writer =>
    rw [observe, observe, trial]
    rw [showsAddress] at h
    cases hinputs : PrintInputs.ofJson? inputs with
    | none => rfl
    | some given =>
      rw [hinputs, Option.any_some] at h
      dsimp only [Trial.ofInputs, Trial.ofPrint]
      cases hargs : given.args.mapM id with
      | error o => rfl
      | ok args =>
        rw [hargs] at h
        have hshown : Rendering.showsAddress ⟨writer, enc⟩ (textBytes given.format) args = false :=
          h
        simp only [Except.map, observeBuffer, observeMemory, printed, FormattedText.printToBuffer,
          FormattedText.printToMemory, formatInto_placed _ hshown]

end Relocation

namespace Case

section Execute

variable (c : Case) (host : Host) (place : Placement) (p : Process) (t : Thread)

/-- What is observed of a case that is carried out. -/
theorem fst_execute_of_carriedOut {op : Operation} {enc : Encoding}
    (h : c.carriedOut? p = some (op, enc)) :
    (c.execute host place p t).1 = op.observe host place enc c.inputs := by
  rw [carriedOut?] at h
  cases hlocale : c.localeName?.mapM Locale.parse with
  | error e =>
    rw [hlocale] at h
    cases h
  | ok locale =>
    rw [hlocale] at h
    obtain ⟨op', hop, heq⟩ := Option.map_eq_some_iff.mp h
    cases heq
    rw [execute_fst_of_begun host place hlocale, observe, hop]

/-- A case that is not carried out meets an obstacle. -/
theorem fst_execute_of_not_carriedOut (h : c.carriedOut? p = none) :
    ∃ o, ∀ host place q t, (c.execute host place q t).1 = some (.error o) := by
  rw [carriedOut?] at h
  cases hlocale : c.localeName?.mapM Locale.parse with
  | error e =>
    refine ⟨.locale e, fun host place q t => ?_⟩
    rw [execute, hlocale]
  | ok locale =>
    rw [hlocale] at h
    refine ⟨.unsupported c.function, fun host place q t => ?_⟩
    rw [execute_fst_of_begun host place hlocale, observe, Option.map_eq_none_iff.mp h]

theorem carriedOut?_congr {q : Process} (h : q.encoding = p.encoding) :
    c.carriedOut? q = c.carriedOut? p := by
  rw [carriedOut?, carriedOut?, h]

/-- What is observed of a case is settled by the encoding of the process. -/
theorem fst_execute {p q : Process} (h : q.encoding = p.encoding) (t u : Thread) :
    (c.execute host place q u).1 = (c.execute host place p t).1 := by
  cases hc : c.carriedOut? p with
  | none =>
    obtain ⟨o, ho⟩ := c.fst_execute_of_not_carriedOut p hc
    rw [ho, ho]
  | some carried =>
    rw [c.fst_execute_of_carriedOut host place p t hc,
      c.fst_execute_of_carriedOut host place q u ((c.carriedOut?_congr p h).trans hc)]

/-- Something is observed of a case unless it is broken off. -/
theorem isSome_execute :
    (c.execute host place p t).1.isSome = !c.isBrokenOff host p := by
  rw [isBrokenOff]
  cases hc : c.carriedOut? p with
  | none =>
    obtain ⟨o, ho⟩ := c.fst_execute_of_not_carriedOut p hc
    rw [ho]
    rfl
  | some carried =>
    obtain ⟨op, enc⟩ := carried
    rw [c.fst_execute_of_carriedOut host place p t hc]
    change (op.observe host place enc c.inputs).isSome = !op.isBrokenOff host enc c.inputs
    rw [Operation.observe, Operation.isBrokenOff]
    cases op.trial (host.complaint op c.inputs) c.inputs with
    | error o => rfl
    | ok trial =>
      dsimp only
      cases trial.buffer.all host.reserves && host.endures op enc c.inputs <;> rfl

/-- What is observed of a case that shows no address is the same wherever its texts stand. -/
theorem fst_execute_relocated (h : c.showsAddress p = false) (place' : Placement) :
    (c.execute host place' p t).1 = (c.execute host place p t).1 := by
  rw [showsAddress] at h
  cases hc : c.carriedOut? p with
  | none =>
    obtain ⟨o, ho⟩ := c.fst_execute_of_not_carriedOut p hc
    rw [ho, ho]
  | some carried =>
    obtain ⟨op, enc⟩ := carried
    rw [hc] at h
    rw [c.fst_execute_of_carriedOut host place p t hc,
      c.fst_execute_of_carriedOut host place' p t hc]
    exact Operation.observe_relocated h host place place'

/-- A case that is not broken off changes of the thread only the encoding of its own. -/
theorem threadAfter_execute (h : (c.execute host place p t).1.isSome = true) (rest : List Case) :
    threadAfter (c.execute host place p t).2 rest = threadAfter t (c :: rest) := by
  rw [c.execute_snd, h, Bool.true_and, threadAfter, threadAfter, List.any_cons]
  cases hbegun : c.isBegun with
  | true => exact ite_self _
  | false =>
    rw [isBegun] at hbegun
    rw [during]
    cases hlocale : c.localeName?.mapM Locale.parse with
    | error e => rfl
    | ok locale =>
      rw [hlocale] at hbegun
      cases hbegun

/-- Whatever becomes of a case, the thread keeps its error number and its implicit states. -/
theorem keeps_execute :
    (c.execute host place p t).2.errno = t.errno ∧
      (c.execute host place p t).2.implicit = t.implicit := by
  rw [c.execute_snd]
  have hduring : (c.during t).errno = t.errno ∧ (c.during t).implicit = t.implicit := by
    rw [during]
    cases c.localeName?.mapM Locale.parse <;> exact ⟨rfl, rfl⟩
  split
  · exact ⟨rfl, rfl⟩
  · exact hduring

end Execute

end Case

section Runs

variable (host : Host) (p : Process) (family : String) (places : Nat → Placement) (t : Thread)

/-- The verdicts on cases are settled by the encoding of the process. -/
theorem fst_runCases {q : Process} (h : q.encoding = p.encoding) (u : Thread)
    (cases : List Case) :
    (runCases host q family places u cases).1 = (runCases host p family places t cases).1 := by
  induction cases generalizing places t u with
  | nil => rfl
  | cons c rest ih =>
    rw [runCases_cons, runCases_cons, c.fst_execute host (places 0) h t u]
    cases (c.execute host (places 0) p t).1 with
    | none => rfl
    | some observed =>
      exact congrArg (Option.map (c.verdict family observed :: ·)) (ih _ _ _)

/-- There are verdicts unless a case is broken off. -/
theorem isSome_runCases (cases : List Case) :
    (runCases host p family places t cases).1.isSome = true ↔
      ∀ c ∈ cases, c.isBrokenOff host p = false := by
  induction cases generalizing places t with
  | nil => exact ⟨fun _ _ hc => absurd hc List.not_mem_nil, fun _ => rfl⟩
  | cons c rest ih =>
    have hc := c.isSome_execute host (places 0) p t
    rw [runCases_cons, List.forall_mem_cons]
    cases hobserved : (c.execute host (places 0) p t).1 with
    | none =>
      rw [hobserved] at hc
      constructor
      · intro hnone
        cases hnone
      · rintro ⟨hkept, -⟩
        rw [hkept] at hc
        cases hc
    | some observed =>
      rw [hobserved, Option.isSome_some] at hc
      dsimp only
      rw [Option.isSome_map, ih]
      exact ⟨fun h => ⟨by simpa using hc.symm, h⟩, fun h => h.2⟩

/-- Cases behind others get the verdicts that they get from any thread. -/
theorem fst_runCases_append (cases more : List Case) (u : Thread) :
    (runCases host p family places t (cases ++ more)).1 =
      (runCases host p family places t cases).1.bind fun verdicts =>
        (runCases host p family (fun i => places (i + cases.length)) u more).1.map
          (verdicts ++ ·) := by
  induction cases generalizing places t with
  | nil =>
    rw [List.nil_append, fst_runCases host p family places u rfl t]
    exact Option.map_id'.symm
  | cons c rest ih =>
    rw [List.cons_append, runCases_cons, runCases_cons]
    cases (c.execute host (places 0) p t).1 with
    | none => rfl
    | some observed =>
      dsimp only
      rw [ih, Option.map_bind, Option.bind_map]
      refine congrArg (Option.bind _) (funext fun verdicts => ?_)
      rw [Function.comp_apply, Function.comp_apply, Option.map_map]
      rfl

/-- Every verdict of cases is the one that its case gets alone. -/
theorem forall₂_runCases {q : Process} (h : q.encoding = p.encoding) (u : Thread)
    {cases : List Case} {verdicts : List Verdict}
    (hrun : (runCases host p family places t cases).1 = some verdicts) :
    List.Forall₂
      (fun (x : Case × Placement) v =>
        (runCases host q family (fun _ => x.2) u [x.1]).1 = some [v])
      (cases.mapIdx fun i c => (c, places i)) verdicts := by
  induction cases generalizing places t verdicts with
  | nil =>
    cases hrun
    exact .nil
  | cons c rest ih =>
    rw [runCases_cons] at hrun
    rw [List.mapIdx_cons]
    cases hobserved : (c.execute host (places 0) p t).1 with
    | none =>
      rw [hobserved] at hrun
      cases hrun
    | some observed =>
      rw [hobserved] at hrun
      obtain ⟨later, hlater, rfl⟩ := Option.map_eq_some_iff.mp hrun
      refine .cons ?_ (ih _ _ hlater)
      rw [runCases_cons, c.fst_execute host (places 0) h t u, hobserved]
      rfl

/-- The thread after cases none of which was broken off. -/
theorem snd_runCases {cases : List Case}
    (h : (runCases host p family places t cases).1.isSome = true) :
    (runCases host p family places t cases).2 = Case.threadAfter t cases := by
  induction cases generalizing places t with
  | nil => rfl
  | cons c rest ih =>
    rw [runCases_cons] at h ⊢
    cases hobserved : (c.execute host (places 0) p t).1 with
    | none =>
      rw [hobserved] at h
      cases h
    | some observed =>
      rw [hobserved] at h
      dsimp only at h ⊢
      rw [Option.isSome_map] at h
      rw [ih _ _ h, c.threadAfter_execute host (places 0) p t (by rw [hobserved]; rfl)]

/-- Whatever becomes of the cases, the thread keeps its error number and its implicit states. -/
theorem keeps_runCases (cases : List Case) :
    (runCases host p family places t cases).2.errno = t.errno ∧
      (runCases host p family places t cases).2.implicit = t.implicit := by
  induction cases generalizing places t with
  | nil => exact ⟨rfl, rfl⟩
  | cons c rest ih =>
    obtain ⟨herrno, himplicit⟩ := c.keeps_execute host (places 0) p t
    rw [runCases_cons]
    cases (c.execute host (places 0) p t).1 with
    | none => exact ⟨herrno, himplicit⟩
    | some observed =>
      obtain ⟨herrno', himplicit'⟩ := ih (fun i => places (i + 1)) (c.execute host (places 0) p t).2
      exact ⟨herrno'.trans herrno, himplicit'.trans himplicit⟩

end Runs

namespace FixtureSet

/-- The cases of a set are carried out independently of one another, on any machine, in any
thread of any process, whatever is selected. -/
theorem carriedOutApart (set : FixtureSet) (only : Option String) (host : Host)
    (places : Nat → Placement) (p : Process) (t : Thread) :
    set.CarriedOutApart only host places p t where
  returns := isSome_runCases host p set.family places t _
  alone q h verdicts hrun := forall₂_runCases host p set.family places t h .fresh hrun
  elsewhere c _ hc place place' v halone := by
    rw [GivesAlone, run] at halone ⊢
    rw [← halone]
    change (runCases host p set.family _ _ [c]).1 = (runCases host p set.family _ _ [c]).1
    rw [runCases_cons, runCases_cons, c.fst_execute_relocated host place p .fresh hc place']
    cases (c.execute host place p .fresh).1 <;> rfl
  append more u := by
    rw [run, List.filter_append]
    exact fst_runCases_append host p set.family places t _ _ u
  keeps := keeps_runCases host p set.family places t _
  thread h := snd_runCases host p set.family places t h
  begun front c rest _ hc h := by
    have hany : (front ++ [c]).any Case.isBegun = true := by
      rw [List.any_append, List.any_cons, hc, Bool.true_or, Bool.or_true]
    rw [snd_runCases host p set.family places t h, Case.threadAfter, if_pos hany]
  session w hp ht := by
    subst hp ht
    exact Case.performEach_eq host set.family places w _

end FixtureSet

/-- A case whose buffer is longer than any machine can make. -/
def Case.overlong : Case where
  name := "overlong"
  function := "snprintf"
  inputs := .object
    [("format", .string ""), ("capacity", .number (.integer 18446744073709551615)),
     ("locale", .string "C.UTF-8")]
  expectedOutput := ""
  expectedReturn := none
  expectedError := none

/-- A case that shows where its text stands, and expects it at a certain address. -/
def Case.ofAddress : Case where
  name := "address"
  function := "asprintf"
  inputs := .object
    [("format", .string "%p"), ("args", .array [.object [("str", .string "text")]])]
  expectedOutput := "0x1000"
  expectedReturn := none
  expectedError := none

/-- Without a look at memory cases would not be carried out apart: a case with an overlong buffer
leaves no verdicts and its encoding in the thread, on every machine, and a case that shows an
address passes or does not by where its text stands. -/
theorem FixtureSet.carriedOutApart_overlong :
    (∀ host places p t,
      (run ⟨"v1", "printf", [Case.overlong]⟩ none host places p t).1 = none ∧
        (run ⟨"v1", "printf", [Case.overlong]⟩ none host places p t).2.override = some .utf8) ∧
      (run ⟨"v1", "printf", [Case.ofAddress]⟩ none (.ample fun _ _ => "") (fun _ _ => 0x1000)
        (.start .unset) .fresh).1.map (·.map Verdict.passed) = some [true] ∧
      (run ⟨"v1", "printf", [Case.ofAddress]⟩ none (.ample fun _ _ => "") (fun _ _ => 0x2000)
        (.start .unset) .fresh).1.map (·.map Verdict.passed) = some [false] := by
  refine ⟨fun host places p t => ?_, by decide +kernel, by decide +kernel⟩
  have hlocale : Case.overlong.localeName?.mapM Locale.parse = .ok (some ⟨"C.UTF-8", .utf8⟩) :=
    eq_ok_of_toOption (by decide +kernel)
  have hop : Operation.names.lookup Case.overlong.function = some (.printToBuffer .full) := by
    decide +kernel
  have hinputs : PrintInputs.ofJson? Case.overlong.inputs = some ⟨"", [], 18446744073709551615⟩ :=
    rfl
  have hreserves : host.reserves 18446744073709551615 = false :=
    Bool.eq_false_iff.mpr fun h => absurd (host.reserves_lt _ h) (by decide)
  have hexecute : Case.overlong.execute host (places 0) p t =
      (none, { t with override := some .utf8 }) := by
    have hobserve : Case.overlong.observe host (places 0) .utf8 = none := by
      rw [Case.observe, hop]
      simp only [Operation.observe, Operation.trial, hinputs, Trial.ofInputs, Trial.ofPrint]
      change (if host.reserves 18446744073709551615 && _ then _ else _) = none
      rw [hreserves]
      rfl
    rw [Case.execute_of_begun host (places 0) hlocale, Case.during, hlocale]
    simp only [Option.map_some, Option.getD_some, hobserve]
  change (runCases host p "printf" places t [Case.overlong]).1 = none ∧
    (runCases host p "printf" places t [Case.overlong]).2.override = some .utf8
  rw [runCases_cons, hexecute]
  exact ⟨rfl, rfl⟩

end Conformance

end FormattedText
