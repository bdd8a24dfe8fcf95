import FormattedText.Locale

/-!
# The parts of a locale name

A locale name has a language, a charset behind a point, and a modifier behind an at sign
(`LocaleParts`). Every text is made of such parts in exactly one way, if no part may hold a mark
that would end it, so what a name comes to can be told by its parts: which names are accepted
and with which encoding, and why the others are refused (`LocaleParts.Parsed`).

The modifier never counts, the language counts only where there is no charset, and in the charset
neither the case of letters nor hyphens and underscores count (`LocaleParts.Matches`). The
environment asks for the first name that it holds, and for no other one where that is refused.
-/

namespace FormattedText

/-- A part of a name behind its mark, where there is such a part. -/
def markedPart (mark : Char) : Option (List Char) → List Char
  | none => []
  | some part => mark :: part

/-- The parts of a locale name. -/
structure LocaleParts where
  /-- The language, with its territory. -/
  language : List Char
  /-- The charset, if one is given. -/
  charset : Option (List Char)
  /-- The modifier, if one is given. -/
  modifier : Option (List Char)

/-- May the character stand in a language? -/
def IsLanguageChar (c : Char) : Prop :=
  ('A' ≤ c ∧ c ≤ 'Z') ∨ ('a' ≤ c ∧ c ≤ 'z') ∨ ('0' ≤ c ∧ c ≤ '9') ∨ c = '_'

/-- Two spellings of a charset: hyphens and underscores may be left out, and of ASCII letters the
case does not count. -/
inductive Respells : List Char → List Char → Prop where
  /-- No characters. -/
  | nil : Respells [] []
  /-- Only the first has the hyphen or underscore. -/
  | first {c : Char} {s t : List Char} (hc : c = '-' ∨ c = '_') (h : Respells s t) :
      Respells (c :: s) t
  /-- Only the second has it. -/
  | second {c : Char} {s t : List Char} (hc : c = '-' ∨ c = '_') (h : Respells s t) :
      Respells s (c :: t)
  /-- Both have the character, except for its case. -/
  | both {c d : Char} {s t : List Char} (hcase : c.toUpper = d.toUpper) (h : Respells s t) :
      Respells (c :: s) (d :: t)

namespace LocaleParts

/-- The name that the parts make up. -/
def name (p : LocaleParts) : String :=
  String.ofList (p.language ++ markedPart '.' p.charset ++ markedPart '@' p.modifier)

/-- No part holds a mark that would end it. -/
structure IsApart (p : LocaleParts) : Prop where
  /-- A language ends at a point and at an at sign. -/
  language : '.' ∉ p.language ∧ '@' ∉ p.language
  /-- A charset ends at an at sign. -/
  charset : ∀ s, p.charset = some s → '@' ∉ s

/-- The language has characters, and only those that it may have. -/
def HasLanguage (p : LocaleParts) : Prop :=
  p.language ≠ [] ∧ ∀ c ∈ p.language, IsLanguageChar c

/-- The encoding that the parts select. -/
inductive Selects (p : LocaleParts) : Encoding → Prop where
  /-- A charset selects the encoding of any of its known names. -/
  | charset {s key : List Char} {enc : Encoding} (hs : p.charset = some s)
      (hkey : (key, enc) ∈ Encoding.charsetKeys) (h : Respells s key) : Selects p enc
  /-- Without a charset the C locale is ASCII, under both of its names. -/
  | portable (hs : p.charset = none) (h : p.language = "C".toList ∨ p.language = "POSIX".toList) :
      Selects p .ascii
  /-- Any other language without a charset is ISO-8859-1. -/
  | language (hs : p.charset = none)
      (h : ¬(p.language = "C".toList ∨ p.language = "POSIX".toList)) : Selects p .latin1

end LocaleParts

namespace Locale

/-- A text is split at its first mark. -/
theorem splitAtMark_eq_iff {mark : Char} {s front : List Char} {rest : Option (List Char)} :
    splitAtMark mark s = (front, rest) ↔ mark ∉ front ∧ s = front ++ markedPart mark rest := by
  have hall := List.takeWhile_append_dropWhile (p := (· ≠ mark)) (l := s)
  have hfront : mark ∉ s.takeWhile (· ≠ mark) := by
    intro h
    exact of_decide_eq_true (List.all_eq_true.mp List.all_takeWhile mark h) rfl
  constructor
  · intro h
    simp only [splitAtMark] at h
    cases hdrop : s.dropWhile (· ≠ mark) with
    | nil =>
      rw [hdrop] at h hall
      cases h
      rw [List.append_nil] at hall
      rw [hall] at hfront
      exact ⟨hfront, (List.append_nil s).symm⟩
    | cons c more =>
      have hhead := List.head?_dropWhile_not (· ≠ mark) s
      rw [hdrop] at h hall hhead
      cases h
      obtain rfl : c = mark := Decidable.not_not.mp (of_decide_eq_false hhead)
      exact ⟨hfront, hall.symm⟩
  · rintro ⟨hmark, rfl⟩
    have hne : ∀ c ∈ front, decide (c ≠ mark) = true := by
      intro c hc
      exact decide_eq_true fun h => hmark (h ▸ hc)
    have hstop : decide (mark ≠ mark) = false := decide_eq_false fun h => h rfl
    rw [splitAtMark, List.takeWhile_append_of_pos hne, List.dropWhile_append_of_pos hne]
    cases rest with
    | none => rw [markedPart, List.append_nil, List.dropWhile_nil]
    | some part =>
      simp only [markedPart, List.dropWhile_cons, List.takeWhile_cons, hstop, Bool.false_eq_true,
        ite_false, List.append_nil]

theorem isLanguageChar_iff {c : Char} : isLanguageChar c = true ↔ IsLanguageChar c := by
  rw [isLanguageChar, IsLanguageChar]
  delta Char.isAlphanum Char.isAlpha Char.isUpper Char.isLower Char.isDigit
  simp only [Char.le_def, Bool.or_eq_true, Bool.and_eq_true, decide_eq_true_eq, beq_iff_eq,
    ge_iff_le, or_assoc]

end Locale

namespace Encoding

/-- Upper case makes letters only of letters. -/
theorem eq_of_toUpper_eq {c mark : Char} (hmark : mark = '-' ∨ mark = '_')
    (h : c.toUpper = mark) : c = mark := by
  delta Char.toUpper at h
  split at h
  · rename_i hlower
    have hval := congrArg (fun d : Char => d.val.toNat) h
    simp only [UInt32.le_iff_toNat_le] at hlower
    rcases hmark with rfl | rfl
    · simp at hval hlower
      omega
    · simp at hval hlower
      omega
  · exact h

section Keys

variable {c d : Char} {s t : List Char}

theorem charsetKey_skipped (hc : c = '-' ∨ c = '_') : charsetKey (c :: s) = charsetKey s := by
  rcases hc with rfl | rfl <;> rfl

theorem charsetKey_kept (hc : ¬(c = '-' ∨ c = '_')) :
    charsetKey (c :: s) = c.toUpper :: charsetKey s := by
  rw [not_or] at hc
  rw [charsetKey, List.filter_cons, if_pos (decide_eq_true hc), List.map_cons]
  rfl

/-- Two spellings differ in nothing that counts exactly if they have the same key. -/
theorem respells_iff : Respells s t ↔ charsetKey s = charsetKey t := by
  constructor
  · intro h
    induction h with
    | nil => rfl
    | first hc _ ih => rw [charsetKey_skipped hc, ih]
    | second hc _ ih => rw [charsetKey_skipped hc, ih]
    | @both c d s t hcase _ ih =>
      by_cases hc : c = '-' ∨ c = '_'
      · have hd : d = c := eq_of_toUpper_eq hc (by rw [← hcase]; rcases hc with rfl | rfl <;> rfl)
        rw [hd, charsetKey_skipped hc, charsetKey_skipped hc, ih]
      · have hd : ¬(d = '-' ∨ d = '_') := by
          intro hd
          have hcd : c = d := eq_of_toUpper_eq hd (by rw [hcase]; rcases hd with rfl | rfl <;> rfl)
          exact hc (hcd ▸ hd)
        rw [charsetKey_kept hc, charsetKey_kept hd, hcase, ih]
  · intro h
    induction s generalizing t with
    | nil =>
      induction t with
      | nil => exact .nil
      | cons d t ih =>
        by_cases hd : d = '-' ∨ d = '_'
        · exact .second hd (ih (h.trans (charsetKey_skipped hd)))
        · rw [charsetKey_kept hd] at h
          cases h
    | cons c s ihs =>
      by_cases hc : c = '-' ∨ c = '_'
      · exact .first hc (ihs ((charsetKey_skipped hc).symm.trans h))
      · induction t with
        | nil =>
          rw [charsetKey_kept hc] at h
          cases h
        | cons d t iht =>
          by_cases hd : d = '-' ∨ d = '_'
          · exact .second hd (iht (h.trans (charsetKey_skipped hd)))
          · rw [charsetKey_kept hc, charsetKey_kept hd, List.cons.injEq] at h
            exact .both h.1 (ihs h.2)

end Keys

/-- Each known name of a charset is its own key, and no two charsets share one. -/
theorem lookup_charsetKeys : ∀ entry ∈ charsetKeys,
    charsetKey entry.1 = entry.1 ∧ charsetKeys.lookup entry.1 = some entry.2 := by
  decide

/-- A charset is found under the spellings of its known names. -/
theorem ofCharset?_eq_some_iff {s : List Char} {enc : Encoding} :
    ofCharset? s = some enc ↔ ∃ key, (key, enc) ∈ charsetKeys ∧ Respells s key := by
  constructor
  · intro h
    obtain ⟨before, after, hkeys, _⟩ := List.lookup_eq_some_iff.mp h
    have hmem : (charsetKey s, enc) ∈ charsetKeys := by
      rw [hkeys]
      exact List.mem_append_right before List.mem_cons_self
    exact ⟨charsetKey s, hmem, respells_iff.mpr (lookup_charsetKeys _ hmem).1.symm⟩
  · rintro ⟨key, hmem, hspelled⟩
    obtain ⟨hkey, hlookup⟩ := lookup_charsetKeys _ hmem
    rw [ofCharset?, respells_iff.mp hspelled, hkey]
    exact hlookup

end Encoding

namespace LocaleParts

section Parts

variable {p q : LocaleParts}

/-- The parser finds the parts. -/
theorem IsApart.split (h : p.IsApart) :
    Locale.splitAtMark '@' p.name.toList =
        (p.language ++ markedPart '.' p.charset, p.modifier) ∧
      Locale.splitAtMark '.' (p.language ++ markedPart '.' p.charset) =
        (p.language, p.charset) := by
  refine ⟨Locale.splitAtMark_eq_iff.mpr ⟨?_, String.toList_ofList⟩,
    Locale.splitAtMark_eq_iff.mpr ⟨h.language.1, rfl⟩⟩
  rw [List.mem_append, not_or]
  refine ⟨h.language.2, ?_⟩
  cases hs : p.charset with
  | none => exact List.not_mem_nil
  | some s =>
    intro hmem
    rcases List.mem_cons.mp hmem with hmark | hmem
    · cases hmark
    · exact h.charset s hs hmem

/-- A name has only one list of parts. -/
theorem IsApart.eq_of_name_eq (hp : p.IsApart) (hq : q.IsApart) (h : p.name = q.name) : p = q := by
  obtain ⟨hpat, hppoint⟩ := hp.split
  obtain ⟨hqat, hqpoint⟩ := hq.split
  rw [h, hqat, Prod.mk.injEq] at hpat
  obtain ⟨hstem, hmodifier⟩ := hpat
  rw [← hstem, hqpoint, Prod.mk.injEq] at hppoint
  obtain ⟨hlanguage, hcharset⟩ := hppoint
  obtain ⟨language, charset, modifier⟩ := p
  obtain rfl : q.language = language := hlanguage
  obtain rfl : q.charset = charset := hcharset
  obtain rfl : q.modifier = modifier := hmodifier
  rfl

/-- Every text is a name that is made of parts. -/
theorem exists_isApart (name : String) : ∃ p : LocaleParts, p.IsApart ∧ p.name = name := by
  obtain ⟨hstem, hname⟩ := Locale.splitAtMark_eq_iff.mp
    (Prod.eta (Locale.splitAtMark '@' name.toList)).symm
  generalize Locale.splitAtMark '@' name.toList = cut at hstem hname
  obtain ⟨hlanguage, hparts⟩ := Locale.splitAtMark_eq_iff.mp
    (Prod.eta (Locale.splitAtMark '.' cut.1)).symm
  generalize Locale.splitAtMark '.' cut.1 = inner at hlanguage hparts
  rw [hparts, List.mem_append, not_or] at hstem
  refine ⟨⟨inner.1, inner.2, cut.2⟩, ⟨⟨hlanguage, hstem.1⟩, ?_⟩, ?_⟩
  · intro s hs hmem
    have hcharset : inner.2 = some s := hs
    rw [hcharset] at hstem
    exact hstem.2 (List.mem_cons_of_mem '.' hmem)
  · rw [LocaleParts.name, ← hparts, ← hname]
    exact String.ofList_toList

/-- A charset selects the encoding that it is found to have. -/
theorem selects_charset_iff {s : List Char} (hs : p.charset = some s) {enc : Encoding} :
    p.Selects enc ↔ Encoding.ofCharset? s = some enc := by
  rw [Encoding.ofCharset?_eq_some_iff]
  constructor
  · intro h
    cases h with
    | charset hs' hkey h =>
      obtain rfl := Option.some.inj (hs.symm.trans hs')
      exact ⟨_, hkey, h⟩
    | portable hnone => cases hs.symm.trans hnone
    | language hnone => cases hs.symm.trans hnone
  · rintro ⟨key, hkey, h⟩
    exact .charset hs hkey h

/-- Without a charset the language selects its encoding. -/
theorem selects_language_iff (hs : p.charset = none) {enc : Encoding} :
    p.Selects enc ↔ Locale.languageEncoding p.language = enc := by
  rw [Locale.languageEncoding]
  constructor
  · intro h
    cases h with
    | charset hs' => cases hs.symm.trans hs'
    | portable _ h => exact if_pos h
    | language _ h => exact if_neg h
  · rintro rfl
    by_cases h : p.language = "C".toList ∨ p.language = "POSIX".toList
    · rw [if_pos h]
      exact .portable hs h
    · rw [if_neg h]
      exact .language hs h

/-- The parts select at most one encoding. -/
theorem Selects.unique {enc other : Encoding} (h : p.Selects enc) (ho : p.Selects other) :
    enc = other := by
  cases hs : p.charset with
  | none =>
    rw [selects_language_iff hs] at h ho
    exact h.symm.trans ho
  | some s =>
    rw [selects_charset_iff hs] at h ho
    exact Option.some.inj (h.symm.trans ho)

theorem hasLanguage_iff :
    p.HasLanguage ↔ (p.language.isEmpty || !p.language.all Locale.isLanguageChar) = false := by
  simp only [HasLanguage, Bool.or_eq_false_iff, Bool.not_eq_false', List.all_eq_true,
    Locale.isLanguageChar_iff, List.isEmpty_eq_false_iff]

end Parts

/-- What the parser makes of the name of parts. -/
inductive Parsed (p : LocaleParts) : Except LocaleError Locale → Prop where
  /-- The name has no characters. -/
  | empty (hname : p.name = "") : Parsed p (.error .empty)
  /-- The language is bad, whatever the charset. -/
  | invalidName (hname : p.name ≠ "") (hlanguage : ¬p.HasLanguage) :
      Parsed p (.error (.invalidName p.name))
  /-- The charset is not known. -/
  | unknownCharset (hlanguage : p.HasLanguage) (h : ∀ enc, ¬p.Selects enc) :
      Parsed p (.error (.unknownCharset p.name))
  /-- The parts select an encoding. -/
  | accepted {enc : Encoding} (hlanguage : p.HasLanguage) (h : p.Selects enc) :
      Parsed p (.ok ⟨p.name, enc⟩)

/-- The C locale has two names, and both are languages without a charset. -/
theorem IsApart.parsed_portable {p : LocaleParts} (h : p.IsApart)
    (hname : p.name = "C" ∨ p.name = "POSIX") : p.Parsed (.ok ⟨p.name, .ascii⟩) := by
  have hparts : ∀ language : List Char, p.name = (⟨language, none, none⟩ : LocaleParts).name →
      '.' ∉ language ∧ '@' ∉ language → p = ⟨language, none, none⟩ := by
    intro language hp hlanguage
    exact h.eq_of_name_eq ⟨hlanguage, fun _ hs => nomatch hs⟩ hp
  rcases hname with hc | hposix
  · have hp := hparts "C".toList hc (by decide)
    have hlanguage : p.HasLanguage := hasLanguage_iff.mpr (by rw [hp]; rfl)
    exact .accepted hlanguage (.portable (by rw [hp]) (Or.inl (by rw [hp])))
  · have hp := hparts "POSIX".toList hposix (by decide)
    have hlanguage : p.HasLanguage := hasLanguage_iff.mpr (by rw [hp]; rfl)
    exact .accepted hlanguage (.portable (by rw [hp]) (Or.inr (by rw [hp])))

/-- The parser goes by the parts. -/
theorem IsApart.parsed {p : LocaleParts} (h : p.IsApart) : p.Parsed (Locale.parse p.name) := by
  obtain ⟨hat, hpoint⟩ := h.split
  simp only [Locale.parse, hat, hpoint]
  by_cases hempty : p.name = ""
  · rw [if_pos (String.isEmpty_iff.mpr hempty)]
    exact .empty hempty
  rw [if_neg fun he => hempty (String.isEmpty_iff.mp he)]
  by_cases hportable : p.name = "C" ∨ p.name = "POSIX"
  · rw [if_pos hportable]
    exact h.parsed_portable hportable
  rw [if_neg hportable]
  cases hbad : p.language.isEmpty || !p.language.all Locale.isLanguageChar with
  | true =>
    rw [if_pos rfl]
    exact .invalidName hempty fun hl => by rw [hasLanguage_iff, hbad] at hl; cases hl
  | false =>
    have hlanguage := hasLanguage_iff.mpr hbad
    rw [if_neg Bool.false_ne_true]
    cases hs : p.charset with
    | none => exact .accepted hlanguage ((selects_language_iff hs).mpr rfl)
    | some s =>
      simp only
      cases hfound : Encoding.ofCharset? s with
      | some enc => exact .accepted hlanguage ((selects_charset_iff hs).mpr hfound)
      | none =>
        refine .unknownCharset hlanguage fun enc henc => ?_
        rw [selects_charset_iff hs, hfound] at henc
        cases henc

theorem HasLanguage.name_ne {p : LocaleParts} (h : p.HasLanguage) : p.name ≠ "" := by
  intro hname
  have hnil := String.toList_eq_nil_iff.mpr hname
  rw [LocaleParts.name, String.toList_ofList, List.append_assoc, List.append_eq_nil_iff] at hnil
  exact h.1 hnil.1

/-- A name comes to one thing only. -/
theorem Parsed.unique {p : LocaleParts} {r other : Except LocaleError Locale} (h : p.Parsed r)
    (ho : p.Parsed other) : r = other := by
  cases h with
  | empty hname =>
    cases ho with
    | empty => rfl
    | invalidName hne => exact absurd hname hne
    | unknownCharset hl | accepted hl => exact absurd hname hl.name_ne
  | invalidName hne hbad =>
    cases ho with
    | empty hname => exact absurd hname hne
    | invalidName => rfl
    | unknownCharset hl | accepted hl => exact absurd hl hbad
  | unknownCharset hl hnone =>
    cases ho with
    | empty hname => exact absurd hname hl.name_ne
    | invalidName _ hbad => exact absurd hl hbad
    | unknownCharset => rfl
    | accepted _ henc => exact absurd henc (hnone _)
  | accepted hl henc =>
    cases ho with
    | empty hname => exact absurd hname hl.name_ne
    | invalidName _ hbad => exact absurd hl hbad
    | unknownCharset _ hnone => exact absurd henc (hnone _)
    | accepted _ henc' => rw [henc.unique henc']

theorem IsApart.parse_eq_iff {p : LocaleParts} (h : p.IsApart) {r : Except LocaleError Locale} :
    Locale.parse p.name = r ↔ p.Parsed r :=
  ⟨fun hr => hr ▸ h.parsed, fun hr => h.parsed.unique hr⟩

/-- Two names whose parts agree in all that counts: in the charset as it is spelled, or in the
language where none is given. -/
inductive Matches (p q : LocaleParts) : Prop where
  /-- Both have a charset, and the same one. -/
  | charset {s t : List Char} (hp : p.charset = some s) (hq : q.charset = some t)
      (h : Respells s t) : Matches p q
  /-- Neither has a charset, and the languages are the same. -/
  | language (hp : p.charset = none) (hq : q.charset = none) (h : p.language = q.language) :
      Matches p q

theorem Matches.selects_iff {p q : LocaleParts} (h : p.Matches q) (enc : Encoding) :
    p.Selects enc ↔ q.Selects enc := by
  cases h with
  | charset hp hq h =>
    rw [selects_charset_iff hp, selects_charset_iff hq, Encoding.ofCharset?, Encoding.ofCharset?,
      Encoding.respells_iff.mp h]
  | language hp hq h => rw [selects_language_iff hp, selects_language_iff hq, h]

/-- A name is accepted with an encoding exactly if its language is good and its parts select the
encoding. -/
theorem IsApart.parse_eq_ok_iff {p : LocaleParts} (h : p.IsApart) {enc : Encoding} :
    Locale.parse p.name = .ok ⟨p.name, enc⟩ ↔ p.HasLanguage ∧ p.Selects enc := by
  rw [h.parse_eq_iff]
  constructor
  · intro hparsed
    cases hparsed with
    | accepted hl henc => exact ⟨hl, henc⟩
  · rintro ⟨hl, henc⟩
    exact .accepted hl henc

end LocaleParts

namespace Locale

/-- The values of the variables, the most specific first. -/
def Environment.values (env : Environment) : List (Option String) := [env.all, env.ctype, env.lang]

/-- A variable that is not set, or empty. -/
def IsUnset (value : Option String) : Prop := value = none ∨ value = some ""

/-- What the environment asks for. -/
structure Resolves (env : Environment) : Prop where
  /-- The first name counts: its locale is taken, and the C locale where it is refused, whatever
  the variables behind it hold. -/
  first : ∀ before name after, env.values = before ++ some name :: after →
    (∀ value ∈ before, IsUnset value) → name ≠ "" →
      (∀ locale, parse name = .ok locale → ofEnvironment env = locale) ∧
        ∀ e, parse name = .error e → ofEnvironment env = c
  /-- Without a name it is the C locale. -/
  unset : (∀ value ∈ env.values, IsUnset value) → ofEnvironment env = c

theorem isUnset_iff {value : Option String} :
    IsUnset value ↔ (value.filter fun name => !name.isEmpty) = none := by
  cases value with
  | none => exact iff_of_true (Or.inl rfl) rfl
  | some name =>
    simp only [IsUnset, Option.filter_some, reduceCtorEq, false_or, Option.some.injEq,
      ← String.isEmpty_iff, ite_eq_right_iff, imp_false, Bool.not_eq_true, Bool.not_eq_false']

theorem resolves (env : Environment) : Resolves env where
  first before name after hvalues hbefore hname := by
    have hrequest : env.request? = some name := by
      have hchosen : (some name).filter (fun n => !n.isEmpty) = some name := by
        rw [Option.filter_some, String.isEmpty_eq_false_iff.mpr hname]
        rfl
      exact List.findSome?_eq_some_iff.mpr ⟨before, some name, after, hvalues, hchosen,
        fun value hvalue => isUnset_iff.mp (hbefore value hvalue)⟩
    constructor
    · intro locale h
      rw [ofEnvironment, hrequest]
      simp only [h]
    · intro e h
      rw [ofEnvironment, hrequest]
      simp only [h]
  unset h := by
    have hrequest : env.request? = none :=
      List.findSome?_eq_none_iff.mpr fun value hvalue => isUnset_iff.mp (h value hvalue)
    rw [ofEnvironment, hrequest]

/-- Locale names are parsed exactly. Every name is made of parts in one way, and its parts tell
what it comes to: it is empty, its language is bad, its charset is not known, or it is accepted
under its own name with the encoding that the parts select. Parts that agree in the charset up to
its spelling, or without one in the language, select the same encoding. And the environment takes
the first name that it holds. -/
theorem parse_parts :
    (∀ name : String, ∃ p : LocaleParts, (p.IsApart ∧ p.name = name) ∧
      ∀ q : LocaleParts, q.IsApart → q.name = name → q = p) ∧
    (∀ p : LocaleParts, p.IsApart → ∀ r, parse p.name = r ↔ p.Parsed r) ∧
    (∀ p q : LocaleParts, p.IsApart → q.IsApart → p.HasLanguage → q.HasLanguage → p.Matches q →
      ∀ enc, parse p.name = .ok ⟨p.name, enc⟩ ↔ parse q.name = .ok ⟨q.name, enc⟩) ∧
    ∀ env : Environment, Resolves env := by
  refine ⟨fun name => ?_, fun p h r => h.parse_eq_iff, fun p q hp hq hlp hlq h enc => ?_, resolves⟩
  · obtain ⟨p, hp, hname⟩ := LocaleParts.exists_isApart name
    exact ⟨p, ⟨hp, hname⟩, fun q hq hqname => hq.eq_of_name_eq hp (hqname.trans hname.symm)⟩
  · rw [hp.parse_eq_ok_iff, hq.parse_eq_ok_iff, h.selects_iff enc]
    exact and_congr_left' (iff_of_true hlp hlq)

/-- Two names of one charset, and an environment whose first name is refused. -/
theorem parse_parts_respelled :
    let p : LocaleParts := ⟨"de_DE".toList, some "ISO-8859-1".toList, some "euro.x@y".toList⟩
    let q : LocaleParts := ⟨"fr".toList, some "iso88_591".toList, none⟩
    p.IsApart ∧ q.IsApart ∧ p.HasLanguage ∧ q.HasLanguage ∧ p.Matches q ∧
      parse "de_DE.ISO-8859-1@euro.x@y" = .ok ⟨"de_DE.ISO-8859-1@euro.x@y", .latin1⟩ ∧
      parse "fr.iso88_591" = .ok ⟨"fr.iso88_591", .latin1⟩ ∧
      ofEnvironment ⟨some "", some "xx.NOPE", some "C.UTF-8"⟩ = c := by
  intro p q
  obtain ⟨_, hparse, hmatch, henv⟩ := parse_parts
  have hp : p.IsApart := ⟨by decide, fun s hs => by cases hs; decide⟩
  have hq : q.IsApart := ⟨by decide, fun s hs => by cases hs; decide⟩
  have hlp : p.HasLanguage := LocaleParts.hasLanguage_iff.mpr (by decide)
  have hlq : q.HasLanguage := LocaleParts.hasLanguage_iff.mpr (by decide)
  have hpq : p.Matches q := .charset rfl rfl (Encoding.respells_iff.mpr (by decide))
  have hlatin1 : q.Selects .latin1 := (LocaleParts.selects_charset_iff rfl).mpr (by decide)
  have hfr : parse q.name = .ok ⟨q.name, .latin1⟩ := (hparse q hq _).mpr (.accepted hlq hlatin1)
  have hrefused : parse "xx.NOPE" = .error (.unknownCharset "xx.NOPE") := rfl
  have hc := ((henv ⟨some "", some "xx.NOPE", some "C.UTF-8"⟩).first [some ""] "xx.NOPE"
    [some "C.UTF-8"] rfl (fun _ hv => Or.inr (List.mem_singleton.mp hv)) (by decide)).2 _ hrefused
  exact ⟨hp, hq, hlp, hlq, hpq, (hmatch p q hp hq hlp hlq hpq .latin1).mpr hfr, hfr, hc⟩

end Locale

end FormattedText
