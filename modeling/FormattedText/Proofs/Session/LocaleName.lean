import Mathlib.Data.List.TakeWhile
import FormattedText.Proofs.Session.Frame

/-!
# The name and the encoding of a process

A process has the encoding of its locale and the name that is reported for it. Requests for a
locale set both together: a request is refused and changes nothing, or it installs a locale
that its own name selects (`Process.setLocale_request`). So, while no call sets the encoding
alone, the reported name always selects the encoding in effect (`World.InLocale.consistent`),
and a name that was ever reported may be passed back to restore what it stood for
(`World.InLocale.keepsLocale`).
-/

namespace FormattedText

/-- Is the number that of a category which includes character handling? -/
def Category.codeGoverns (code : Int) : Bool := (ofCode? code).any governsCharacters

namespace Locale

/-- The locale is the one that its name selects, and the name can be reported. -/
structure IsReported (locale : Locale) : Prop where
  /-- The name is accepted, and selects the encoding of the locale. -/
  parse : Locale.parse locale.name = .ok locale
  /-- The name has no zero byte. -/
  reportable : Process.isReportable locale.name = true

/-- A locale keeps the name that it was asked for by. -/
theorem name_of_parse {name : String} {locale : Locale} (h : parse name = .ok locale) :
    locale.name = name := by
  simp only [parse] at h
  repeat' split at h
  all_goals cases h <;> rfl

/-- The environment gives a locale that its name selects. -/
theorem parse_ofEnvironment (env : Environment) :
    parse (ofEnvironment env).name = .ok (ofEnvironment env) := by
  rw [ofEnvironment]
  split
  · rfl
  · split
    · rename_i h
      rw [name_of_parse h, h]
    · rfl

theorem isEmpty_of_parse {name : String} {locale : Locale} (h : parse name = .ok locale) :
    name.isEmpty = false := by
  rw [Bool.eq_false_iff]
  intro hempty
  simp only [parse, hempty, ite_true] at h
  cases h

end Locale

namespace Process

variable {p : Process} {code : Int} {name : Option (List UInt8)} {locale : Locale}

/-- A name that can be reported is read back from its bytes. -/
theorem nameOfBytes?_bytesOfName {name : String} (h : isReportable name = true) :
    nameOfBytes? (bytesOfName name) = some name := by
  have hzero : ∀ b ∈ bytesOfName name, decide (b ≠ 0) = true := by
    intro b hb
    refine decide_eq_true fun hz => ?_
    rw [isReportable, Bool.not_eq_true', List.contains_eq_mem, decide_eq_false_iff_not] at h
    exact h (hz ▸ hb)
  rw [nameOfBytes?, List.takeWhile_eq_self_iff.mpr hzero]
  exact dif_pos name.isValidUTF8

/-- What is installed at a request is a locale that its name selects. -/
theorem isReported_of_requested? {name : String} (h : p.requested? name = some locale) :
    locale.IsReported := by
  obtain ⟨hlocale, hreportable⟩ := Option.filter_eq_some_iff.mp h
  refine ⟨?_, hreportable⟩
  split at hlocale
  · cases hlocale
    exact Locale.parse_ofEnvironment p.environment
  · split at hlocale
    · rename_i hparse
      cases hlocale
      rw [Locale.name_of_parse hparse, hparse]
    · cases hlocale

/-- All that a request for a locale can come to: the answer, and the process afterwards. -/
inductive LocaleRequest (p : Process) (code : Int) :
    Option (List UInt8) → Option String × Process → Prop where
  /-- It is refused. -/
  | refused (name : Option (List UInt8)) : LocaleRequest p code name (none, p)
  /-- It asks for the name in effect. -/
  | query (hc : Category.codeGoverns code = true) :
      LocaleRequest p code none (some p.localeName, p)
  /-- Its category is always that of the C locale. -/
  | fixed (hc : Category.codeGoverns code = false) (name : Option (List UInt8)) :
      LocaleRequest p code name (some Locale.c.name, p)
  /-- A locale is installed, its name and its encoding together. -/
  | installed (hc : Category.codeGoverns code = true) (bytes : List UInt8) {locale : Locale}
      (h : locale.IsReported) :
      LocaleRequest p code (some bytes) (some locale.name, p.install locale)

theorem setLocale_request (p : Process) (code : Int) (name : Option (List UInt8)) :
    LocaleRequest p code name (p.setLocale code name) := by
  simp only [setLocale]
  cases hcode : Category.ofCode? code with
  | none => exact .refused name
  | some category =>
    have hgoverns : Category.codeGoverns code = category.governsCharacters := by
      rw [Category.codeGoverns, hcode]
      rfl
    simp only
    cases hc : category.governsCharacters with
    | false =>
      rw [hc] at hgoverns
      cases name with
      | none => exact .fixed hgoverns none
      | some bytes =>
        simp only
        split
        · split
          · exact .fixed hgoverns _
          · exact .refused _
        · exact .refused _
    | true =>
      rw [hc] at hgoverns
      cases name with
      | none => exact .query hgoverns
      | some bytes =>
        simp only
        split
        · exact .refused _
        · rename_i hlocale
          obtain ⟨_, _, hrequested⟩ := Option.bind_eq_some_iff.mp hlocale
          exact .installed hgoverns bytes (isReported_of_requested? hrequested)

/-- A locale is installed again by its name, whatever is in effect. -/
theorem setLocale_bytesOfName (h : locale.IsReported) (hc : Category.codeGoverns code = true)
    (q : Process) : q.setLocale code (some (bytesOfName locale.name)) =
      (some locale.name, q.install locale) := by
  obtain ⟨category, hcode, hgoverns⟩ := (Option.any_eq_true _ _).mp hc
  have hrequested : q.requested? locale.name = some locale := by
    simp only [requested?, Locale.isEmpty_of_parse h.parse, Bool.false_eq_true, ite_false,
      h.parse]
    exact Option.filter_eq_some_iff.mpr ⟨rfl, h.reportable⟩
  simp only [setLocale, hcode, hgoverns, nameOfBytes?_bytesOfName h.reportable,
    Option.bind_some, hrequested]

/-- The reported name selects the encoding of the process. -/
def IsConsistent (p : Process) : Prop := (⟨p.localeName, p.encoding⟩ : Locale).IsReported

theorem isReportable_c : isReportable Locale.c.name = true := by decide

theorem isConsistent_start (environment : Locale.Environment) :
    (start environment).IsConsistent := ⟨rfl, isReportable_c⟩

/-- A request for a locale keeps name and encoding together. -/
theorem IsConsistent.setLocale (h : p.IsConsistent) (code : Int) (name : Option (List UInt8)) :
    (p.setLocale code name).2.IsConsistent := by
  have hrequest := p.setLocale_request code name
  generalize p.setLocale code name = r at hrequest ⊢
  cases hrequest with
  | refused | query | fixed => exact h
  | installed _ _ hlocale => exact hlocale

/-- How a process keeps its locale. -/
structure KeepsLocale (p : Process) : Prop where
  /-- The name that is reported for character handling is accepted, and selects the encoding
  of the process. -/
  reported : ∀ code, Category.codeGoverns code = true →
    ∃ name, p.setLocale code none = (some name, p) ∧
      Locale.parse name = .ok ⟨name, p.encoding⟩
  /-- A request that is refused, a query, and a request for a category without character
  handling change nothing. -/
  unchanged : ∀ code name, (p.setLocale code name).1 = none ∨ name = none ∨
    Category.codeGoverns code = false → (p.setLocale code name).2 = p
  /-- A name that a request for character handling was answered with may be passed back in any
  later state of the process: it is accepted, and restores the encoding that was in effect
  with the answer. -/
  restored : ∀ code request name, Category.codeGoverns code = true →
    (p.setLocale code request).1 = some name →
    ∀ (q : Process) (again : Int), Category.codeGoverns again = true →
      q.setLocale again (some (bytesOfName name)) =
        (some name, { q with
          encoding := (p.setLocale code request).2.encoding
          localeName := name })

theorem IsConsistent.keeps (h : p.IsConsistent) : p.KeepsLocale where
  reported code hc := by
    have hrequest := p.setLocale_request code none
    generalize hr : p.setLocale code none = r at hrequest ⊢
    cases hrequest with
    | refused =>
      obtain ⟨category, hcode, hgoverns⟩ := (Option.any_eq_true _ _).mp hc
      simp only [Process.setLocale, hcode, hgoverns] at hr
      cases hr
    | query => exact ⟨p.localeName, rfl, h.parse⟩
    | fixed hfixed =>
      rw [hc] at hfixed
      cases hfixed
  unchanged code name hnot := by
    have hrequest := p.setLocale_request code name
    generalize p.setLocale code name = r at hrequest hnot ⊢
    cases hrequest with
    | refused | query | fixed => rfl
    | installed hc =>
      rcases hnot with hnone | hnone | hother
      · cases hnone
      · cases hnone
      · rw [hc] at hother
        cases hother
  restored code request name hc hname q again hagain := by
    have hrequest := p.setLocale_request code request
    generalize p.setLocale code request = r at hrequest hname ⊢
    cases hrequest with
    | refused => cases hname
    | query =>
      cases hname
      exact setLocale_bytesOfName h hagain q
    | fixed hfixed =>
      rw [hc] at hfixed
      cases hfixed
    | installed _ _ hlocale =>
      cases hname
      exact setLocale_bytesOfName hlocale hagain q

end Process

mutual

/-- Is the encoding of the process set through its locale only? -/
def Call.setsByLocale : Call → Bool
  | .useGlobally _ => false
  | .thread calls => Call.allSetByLocale calls
  | _ => true

/-- Is it so in each of several calls? -/
def Call.allSetByLocale : List Call → Bool
  | [] => true
  | call :: rest => call.setsByLocale && allSetByLocale rest

end

namespace World

variable {w : World}

theorem process_save (w : World) (usage : StateUsage) (name : Option String)
    (s : ConversionState) : (w.save usage name s).process = w.process := by
  cases usage <;> cases name <;> rfl

theorem process_publish (w : World) (errno : Option Errno) :
    (w.publish errno).process = w.process := by
  cases errno <;> rfl

mutual

/-- A call that sets the encoding through the locale only keeps name and encoding together. -/
theorem isConsistent_perform (w : World) (h : w.process.IsConsistent) :
    (call : Call) → call.setsByLocale = true → (w.perform call).2.process.IsConsistent
  | .convert encoding name c, _ => by
    rw [perform_convert, convert, process_publish, process_save]
    exact h
  | .setLocale code name, _ => h.setLocale code name
  | .thread calls, hcalls => by
    rw [perform_thread]
    exact isConsistent_performAll (newThread w.process) h calls hcalls
  | .useGlobally _, hcall => nomatch hcall
  | .reset name, _ => by cases name <;> exact h
  | .implicit slot reset, _ => by cases reset <;> exact h
  | .useInThread name, _ => by
    rw [perform]
    split <;> exact h
  | .inspect _, _ | .mbsinit _, _ | .encodings, _ | .setEnvironment _, _ | .setErrno _ _, _
  | .maxCharacterLength, _ => h

theorem isConsistent_performAll (w : World) (h : w.process.IsConsistent) :
    (calls : List Call) → Call.allSetByLocale calls = true →
      (w.performAll calls).2.process.IsConsistent
  | [], _ => h
  | call :: rest, hcalls => by
    obtain ⟨hcall, hrest⟩ := Bool.and_eq_true_iff.mp hcalls
    rw [performAll_cons]
    exact isConsistent_performAll _ (isConsistent_perform w h call hcall) rest hrest

end

/-- The worlds that the threads of a process can come to while its encoding is set through its
locale only. -/
inductive InLocale : World → Prop where
  /-- The first thread of a process, as it starts. -/
  | start (environment : Locale.Environment) : InLocale (start environment)
  /-- A thread that another one starts. -/
  | newThread {w : World} (h : InLocale w) : InLocale (newThread w.process)
  /-- A thread after a call. -/
  | perform {w : World} (h : InLocale w) (call : Call) (hcall : call.setsByLocale = true) :
      InLocale (w.perform call).2

theorem InLocale.performAll (h : w.InLocale) {calls : List Call}
    (hcalls : Call.allSetByLocale calls = true) : (w.performAll calls).2.InLocale := by
  induction calls generalizing w with
  | nil => exact h
  | cons call rest ih =>
    obtain ⟨hcall, hrest⟩ := Bool.and_eq_true_iff.mp hcalls
    rw [performAll_cons]
    exact ih (h.perform call hcall) hrest

theorem InLocale.consistent (h : w.InLocale) : w.process.IsConsistent := by
  induction h with
  | start environment => exact Process.isConsistent_start environment
  | newThread _ ih => exact ih
  | perform _ call hcall ih => exact isConsistent_perform _ ih call hcall

/-- Requests for a locale keep name and encoding together, with any other calls between them
that do not set the encoding of the process alone: changes of the environment, locales of
threads, and calls of other threads among them. -/
theorem InLocale.keepsLocale (h : w.InLocale) : w.process.KeepsLocale := h.consistent.keeps

/-- A caller saves the reported name. Another thread installs the locale of the environment,
whose most specific variable holds a name that is refused, and the caller restores. -/
theorem keepsLocale_restored :
    let saved := ((start .unset).performAll
      [.setLocale 0 (some (Process.bytesOfName "ja_JP.JIS")), .useInThread (some "C.UTF-8")]).2
    let w := (saved.performAll
      [.setEnvironment ⟨none, some "xx.NOPE", some "C.UTF-8"⟩, .thread [.setLocale 6 (some [])],
        .setLocale 0 (some (Process.bytesOfName "xx.NOPE"))]).2
    saved.InLocale ∧ w.InLocale ∧
      (saved.process.setLocale 6 none).1 = some "ja_JP.JIS" ∧ saved.process.encoding = .jis ∧
      (w.process.setLocale 0 none).1 = some "C" ∧ w.process.encoding = .ascii ∧
      w.process.KeepsLocale ∧
      w.process.setLocale 0 (some (Process.bytesOfName "ja_JP.JIS")) =
        (some "ja_JP.JIS", { w.process with encoding := .jis, localeName := "ja_JP.JIS" }) := by
  intro saved w
  have hsaved : saved.InLocale := (InLocale.start .unset).performAll rfl
  have hw : w.InLocale := hsaved.performAll rfl
  have hrestored := hsaved.keepsLocale.restored 6 none "ja_JP.JIS" rfl rfl w.process 0 rfl
  exact ⟨hsaved, hw, rfl, rfl, rfl, rfl, hw.keepsLocale, hrestored⟩

end World

end FormattedText
