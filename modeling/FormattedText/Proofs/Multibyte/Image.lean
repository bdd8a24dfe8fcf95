import FormattedText.Multibyte.Character
import FormattedText.Proofs.Multibyte.Feeding

/-!
# What the decoder accepts

In an encoding without escape sequences the first character of a source is decided
by the sequences that begin it: the source begins with a sequence, is itself the
beginning of one, or has a byte with which no sequence goes on (`scan_first`). As the
sequences are what the encoder writes, the decoder accepts exactly the image of the
encoder (`DecodesImage`), and refuses a byte sequence at the first byte that no
character allows there.
-/

namespace FormattedText

namespace Encoding

section Writing

variable {enc : Encoding}

/-- The bytes are what the encoder writes for a character from the initial state. -/
def Spells (enc : Encoding) (wc : UInt32) (bytes : List UInt8) : Prop :=
  enc.encodeOne (some longestCharacter) wc .initial = ⟨.ok bytes.length, bytes, .initial⟩

/-- The bytes are a proper beginning of what the encoder writes for some character. -/
def Begins (enc : Encoding) (bytes : List UInt8) : Prop :=
  ∃ wc more, more ≠ [] ∧ enc.Spells wc (bytes ++ more)

/-- Without escape sequences a character is spelled by the one sequence that stands
for it. -/
theorem spells_iff (he : enc.isStateful = false) {wc : UInt32} {bytes : List UInt8} :
    enc.Spells wc bytes ↔ enc.isSequence bytes = true ∧ enc.sequenceValue bytes = wc := by
  constructor
  · intro h
    simp only [Spells, encodeOne] at h
    cases hw : enc.encode .initial wc with
    | none =>
      rw [hw] at h
      cases h
    | some written =>
      obtain ⟨b, t⟩ := written
      obtain ⟨_, hs, hv⟩ := isSequence_of_encode he hw
      have hl := (isSequence_length hs).2
      simp only [hw, longestCharacter, if_neg (show ¬8 < b.length by omega),
        CharacterWrite.mk.injEq] at h
      rw [← h.2.1]
      exact ⟨hs, hv⟩
  · rintro ⟨hs, rfl⟩
    have hl := (isSequence_length hs).2
    simp only [Spells, encodeOne, encode_sequenceValue hs, longestCharacter,
      if_neg (show ¬8 < bytes.length by omega)]

theorem begins_iff (he : enc.isStateful = false) {bytes : List UInt8} :
    enc.Begins bytes ↔ bytes = [] ∨ enc.isPartial bytes = true := by
  constructor
  · rintro ⟨wc, more, hm, h⟩
    by_cases hb : bytes = []
    · exact Or.inl hb
    · exact Or.inr (isPartial_of_isSequence hb hm ((spells_iff he).mp h).1)
  · rintro (rfl | h)
    · exact ⟨0, [0], List.cons_ne_nil _ _,
        (spells_iff he).mpr ⟨isSequence_zero he, rfl⟩⟩
    · obtain ⟨more, hm, hs⟩ := exists_isSequence h
      exact ⟨_, more, hm, (spells_iff he).mpr ⟨hs, rfl⟩⟩

end Writing

/-- What a source gives first, told by the sequences. -/
inductive FirstCharacter (enc : Encoding) (src : List UInt8) : Decoded → Prop where
  /-- The source begins with a sequence. -/
  | whole (front rest : List UInt8) (hsrc : src = front ++ rest)
      (hs : enc.isSequence front = true) :
      FirstCharacter enc src (.character (enc.sequenceValue front)
        (reportedCount (enc.sequenceValue front) front.length) .initial)
  /-- The source is the beginning of a sequence. -/
  | partly (hp : enc.isPartial src = true) : FirstCharacter enc src (.incomplete ⟨src, .ascii⟩)
  /-- No sequence goes on with a byte of the source. -/
  | refused (front : List UInt8) (b : UInt8) (rest : List UInt8) (hsrc : src = front ++ b :: rest)
      (hf : front = [] ∨ enc.isPartial front = true)
      (hno : ∀ more, enc.isSequence (front ++ b :: more) = false) :
      FirstCharacter enc src .invalid

section First

variable {enc : Encoding}

/-- A byte that neither ends nor continues a sequence is in none. -/
theorem not_isSequence_append {front : List UInt8} {b : UInt8}
    (hs : enc.isSequence (front ++ [b]) = false) (hp : enc.isPartial (front ++ [b]) = false)
    (more : List UInt8) : enc.isSequence (front ++ b :: more) = false := by
  rw [List.append_cons]
  by_cases hm : more = []
  · rw [hm, List.append_nil, hs]
  · rw [Bool.eq_false_iff]
    intro h
    rw [isPartial_of_isSequence (by simp) hm h] at hp
    cases hp

/-- Feeding the bytes of a source up to its first character. -/
theorem scan_first (he : enc.isStateful = false) (held : List UInt8) {src : List UInt8}
    (hh : held = [] ∨ enc.isPartial held = true) (hne : held ++ src ≠ []) :
    FirstCharacter enc (held ++ src) (enc.scan ⟨held, .ascii⟩ held.length src) := by
  induction src generalizing held with
  | nil =>
    rw [List.append_nil] at hne ⊢
    exact .partly (hh.resolve_left hne)
  | cons b src ih =>
    have hlen : (held ++ [b]).length = held.length + 1 := List.length_append
    rw [scan, feed_eq he hh]
    cases hs : enc.isSequence (held ++ [b]) with
    | true =>
      simp only [ite_true, ← hlen]
      exact .whole (held ++ [b]) src (List.append_cons held b src) hs
    | false =>
      cases hp : enc.isPartial (held ++ [b]) with
      | true =>
        simp only [Bool.false_eq_true, ite_false, ite_true, ← hlen]
        have hi := ih (held ++ [b]) (Or.inr hp) (by simp)
        rw [← List.append_cons] at hi
        exact hi
      | false =>
        simp only [Bool.false_eq_true, ite_false]
        exact .refused held b src rfl hh (not_isSequence_append hs hp)

/-- What decoding a character gives from the initial state. -/
theorem decode_first (he : enc.isStateful = false) {src : List UInt8} (hne : src ≠ []) :
    FirstCharacter enc src (enc.decode .initial src) := by
  have hscan := scan_first he [] (Or.inl rfl) hne
  rw [(resumable_initial enc).decode_eq_scan hne]
  exact hscan

/-- Where no sequence goes on, neither a sequence begins the source nor is the source
the beginning of one. -/
theorem no_sequence_of_refused {front : List UInt8} {b : UInt8}
    (hf : front = [] ∨ enc.isPartial front = true)
    (hno : ∀ more, enc.isSequence (front ++ b :: more) = false) (rest : List UInt8) :
    (∀ p q, front ++ b :: rest = p ++ q → enc.isSequence p = false) ∧
      enc.isPartial (front ++ b :: rest) = false := by
  constructor
  · intro p q h
    rw [Bool.eq_false_iff]
    intro hp
    rcases List.append_eq_append_iff.mp h with ⟨more, rfl, hmore⟩ | ⟨more, rfl, _⟩
    · cases more with
      | nil =>
        rcases hf with hn | hpart
        · rw [hn] at hp
          cases hp
        · have hfalse := not_isPartial_append hp []
          rw [List.append_nil, List.append_nil, hpart] at hfalse
          cases hfalse
      | cons c more =>
        obtain ⟨rfl, rfl⟩ := List.cons.inj hmore
        rw [hno more] at hp
        cases hp
    · rcases hf with hn | hpart
      · rw [List.append_eq_nil_iff] at hn
        rw [hn.1] at hp
        cases hp
      · rw [not_isPartial_append hp more] at hpart
        cases hpart
  · rw [Bool.eq_false_iff]
    intro h
    obtain ⟨more, _, hs⟩ := exists_isSequence h
    rw [List.append_assoc, List.cons_append, hno] at hs
    cases hs

end First

/-- The decoder accepts exactly the image of the encoder: what reading a source from
the initial state gives, told by what the encoder writes. -/
structure DecodesImage (enc : Encoding) (src : List UInt8) : Prop where
  /-- One of four outcomes: the terminator, another character, a beginning of a
  character that is kept, and a refusal that leaves the state alone. -/
  outcome : enc.decodeOne (some src) .initial = ⟨.ok 0, some 0, .initial⟩ ∨
    (∃ n wc, 1 ≤ n ∧ enc.decodeOne (some src) .initial = ⟨.ok n, some wc, .initial⟩) ∨
    enc.decodeOne (some src) .initial = ⟨.error .incompleteSequence, none, ⟨src, .ascii⟩⟩ ∨
    enc.decodeOne (some src) .initial = ⟨.error .invalidSequence, none, .initial⟩
  /-- The terminator is read where the source begins with it. -/
  terminator : (enc.decodeOne (some src) .initial).result = .ok 0 ↔ src.head? = some 0
  /-- A character is read from the bytes that the encoder writes for it. -/
  character : ∀ n wc, 1 ≤ n →
    ((enc.decodeOne (some src) .initial).result = .ok n ∧
      (enc.decodeOne (some src) .initial).character = some wc ↔
    wc ≠ 0 ∧ n ≤ src.length ∧ enc.Spells wc (src.take n))
  /-- Bytes lack where the encoder writes the source and more. -/
  incomplete : (enc.decodeOne (some src) .initial).result = .error .incompleteSequence ↔
    enc.Begins src
  /-- Every other source is refused. -/
  invalid : (enc.decodeOne (some src) .initial).result = .error .invalidSequence ↔
    src.head? ≠ some 0 ∧ (∀ n wc, ¬enc.Spells wc (src.take n)) ∧ ¬enc.Begins src
  /-- A source is refused where it has a byte with which no character goes on. -/
  refused : (enc.decodeOne (some src) .initial).result = .error .invalidSequence ↔
    ∃ front b rest, src = front ++ b :: rest ∧ enc.Begins front ∧
      ∀ wc more, ¬enc.Spells wc (front ++ b :: more)

/-- The source is refused at the first byte that rules every character out, whatever
follows that byte. -/
def RefusedEarly (enc : Encoding) (src : List UInt8) : Prop :=
  ∃ front b back, src = front ++ b :: back ∧ enc.Begins front ∧
    (∀ wc more, ¬enc.Spells wc (front ++ b :: more)) ∧
    ∀ rest, enc.decodeOne (some (front ++ b :: rest)) .initial =
      ⟨.error .invalidSequence, none, .initial⟩

section Accepting

variable {enc : Encoding} {src : List UInt8}

/-- A source that begins with the terminator begins with a sequence. -/
theorem head?_ne_zero (he : enc.isStateful = false)
    (h : ∀ p q, src = p ++ q → enc.isSequence p = false) : src.head? ≠ some 0 := by
  intro h0
  obtain ⟨rest, rfl⟩ := List.head?_eq_some_iff.mp h0
  have hz := h [0] rest rfl
  rw [isSequence_zero he] at hz
  cases hz

theorem not_spells_take (he : enc.isStateful = false)
    (h : ∀ p q, src = p ++ q → enc.isSequence p = false) (n : Nat) (wc : UInt32) :
    ¬enc.Spells wc (src.take n) := by
  intro hsp
  have hs := ((spells_iff he).mp hsp).1
  rw [h _ _ (List.take_append_drop n src).symm] at hs
  cases hs

/-- A byte with which no character goes on is in no sequence that begins the source. -/
theorem no_sequence_of_refusal (he : enc.isStateful = false)
    (h : ∃ front b rest, src = front ++ b :: rest ∧ enc.Begins front ∧
      ∀ wc more, ¬enc.Spells wc (front ++ b :: more)) :
    (∀ p q, src = p ++ q → enc.isSequence p = false) ∧ enc.isPartial src = false := by
  obtain ⟨front, b, rest, rfl, hf, hno⟩ := h
  refine no_sequence_of_refused ((begins_iff he).mp hf) (fun more => ?_) rest
  rw [Bool.eq_false_iff]
  exact fun hs => hno _ more ((spells_iff he).mpr ⟨hs, rfl⟩)

/-- A source that begins with a sequence begins no other one, and with no other one. -/
theorem sequence_unique (he : enc.isStateful = false) {front : List UInt8}
    (hs : enc.isSequence front = true) (rest : List UInt8) :
    ¬enc.Begins (front ++ rest) ∧
      ∀ p q, front ++ rest = p ++ q → enc.isSequence p = true → p = front := by
  constructor
  · rw [begins_iff he, not_isPartial_append hs rest]
    rintro (hn | hp)
    · rw [(List.append_eq_nil_iff.mp hn).1] at hs
      cases hs
    · cases hp
  · intro p q h hp
    rcases List.append_eq_append_iff.mp h with ⟨more, rfl, _⟩ | ⟨more, rfl, _⟩
    · rw [isSequence_append hs hp, List.append_nil]
    · rw [isSequence_append hp hs, List.append_nil]

/-- A sequence is read as the character it stands for, whatever follows. -/
theorem decode_sequence (he : enc.isStateful = false) {bytes : List UInt8}
    (hs : enc.isSequence bytes = true) (tail : List UInt8) :
    enc.decode .initial (bytes ++ tail) = .character (enc.sequenceValue bytes)
      (reportedCount (enc.sequenceValue bytes) bytes.length) .initial := by
  have hne : bytes ++ tail ≠ [] := by
    intro hn
    rw [(List.append_eq_nil_iff.mp hn).1] at hs
    cases hs
  have hfirst := decode_first he hne
  generalize enc.decode .initial (bytes ++ tail) = decoded at hfirst ⊢
  cases hfirst with
  | whole front rest hsrc hfront => rw [(sequence_unique he hs tail).2 front rest hsrc hfront]
  | partly hp =>
    rw [not_isPartial_append hs tail] at hp
    cases hp
  | refused front b rest hsrc hf hno =>
    rw [(no_sequence_of_refused hf hno rest).1 bytes tail hsrc.symm] at hs
    cases hs

/-- No source that begins with a sequence is refused. -/
theorem not_refusal (he : enc.isStateful = false) {front rest : List UInt8}
    (hs : enc.isSequence front = true) :
    ¬∃ f b r, front ++ rest = f ++ b :: r ∧ enc.Begins f ∧
      ∀ wc more, ¬enc.Spells wc (f ++ b :: more) := by
  intro h
  rw [(no_sequence_of_refusal he h).1 front rest rfl] at hs
  cases hs

/-- The terminator is read at the start of a source. -/
theorem decodesImage_of_terminator (he : enc.isStateful = false) {rest : List UInt8}
    (hread : enc.decodeOne (some ([0] ++ rest)) .initial = ⟨.ok 0, some 0, .initial⟩) :
    enc.DecodesImage ([0] ++ rest) := by
  have hs := isSequence_zero he
  obtain ⟨hbegins, honly⟩ := sequence_unique he hs rest
  refine ⟨Or.inl hread, ?_, ?_, ?_, ?_, ?_⟩
  · rw [hread]
    exact iff_of_true rfl rfl
  · intro n wc hn
    rw [hread]
    refine iff_of_false ?_ ?_
    · rintro ⟨h, _⟩
      cases h
      cases hn
    · rintro ⟨hw, _, hsp⟩
      obtain ⟨hseq, hv⟩ := (spells_iff he).mp hsp
      rw [honly _ _ (List.take_append_drop n _).symm hseq] at hv
      exact hw hv.symm
  · rw [hread]
    exact iff_of_false nofun hbegins
  · rw [hread]
    exact iff_of_false nofun fun h => h.1 rfl
  · rw [hread]
    exact iff_of_false nofun (not_refusal he hs)

/-- Another character is read from the sequence that begins the source. -/
theorem decodesImage_of_character (he : enc.isStateful = false) {front rest : List UInt8}
    (hs : enc.isSequence front = true) (h0 : front ≠ [0])
    (hread : enc.decodeOne (some (front ++ rest)) .initial =
      ⟨.ok front.length, some (enc.sequenceValue front), .initial⟩) :
    enc.DecodesImage (front ++ rest) := by
  have hlen := (isSequence_length hs).1
  obtain ⟨hbegins, honly⟩ := sequence_unique he hs rest
  have hv := mt (sequenceValue_eq_zero_iff he hs).mp h0
  have hspells : enc.Spells (enc.sequenceValue front) ((front ++ rest).take front.length) := by
    rw [List.take_left]
    exact (spells_iff he).mpr ⟨hs, rfl⟩
  refine ⟨Or.inr (Or.inl ⟨_, _, hlen, hread⟩), ?_, ?_, ?_, ?_, ?_⟩
  · rw [hread]
    refine iff_of_false ?_ ?_
    · intro h
      rw [Except.ok.injEq] at h
      omega
    · intro h
      obtain ⟨ys, hys⟩ := List.head?_eq_some_iff.mp h
      exact h0 (honly [0] ys hys (isSequence_zero he)).symm
  · intro n wc hn
    rw [hread]
    constructor
    · rintro ⟨h, hw⟩
      cases h
      cases hw
      exact ⟨hv, by rw [List.length_append]; omega, hspells⟩
    · rintro ⟨_, hl, hsp⟩
      obtain ⟨hseq, hval⟩ := (spells_iff he).mp hsp
      have htake := honly _ _ (List.take_append_drop n _).symm hseq
      have hn' := congrArg List.length htake
      rw [List.length_take, Nat.min_eq_left hl] at hn'
      rw [htake] at hval
      exact ⟨congrArg Except.ok hn'.symm, congrArg some hval⟩
  · rw [hread]
    exact iff_of_false nofun hbegins
  · rw [hread]
    exact iff_of_false nofun fun h => h.2.1 _ _ hspells
  · rw [hread]
    exact iff_of_false nofun (not_refusal he hs)

/-- The beginning of a character is kept. -/
theorem decodesImage_of_partly (he : enc.isStateful = false) (hp : enc.isPartial src = true)
    (hread : enc.decodeOne (some src) .initial =
      ⟨.error .incompleteSequence, none, ⟨src, .ascii⟩⟩) : enc.DecodesImage src := by
  have hbegins := (begins_iff he).mpr (Or.inr hp)
  have hno : ∀ p q, src = p ++ q → enc.isSequence p = false := by
    rintro p q rfl
    rw [Bool.eq_false_iff]
    intro hs
    rw [not_isPartial_append hs q] at hp
    cases hp
  refine ⟨Or.inr (Or.inr (Or.inl hread)), ?_, ?_, ?_, ?_, ?_⟩
  · rw [hread]
    exact iff_of_false nofun (head?_ne_zero he hno)
  · intro n wc hn
    rw [hread]
    exact iff_of_false nofun fun h => not_spells_take he hno n wc h.2.2
  · rw [hread]
    exact iff_of_true rfl hbegins
  · rw [hread]
    exact iff_of_false nofun fun h => h.2.2 hbegins
  · rw [hread]
    refine iff_of_false nofun fun h => ?_
    rw [(no_sequence_of_refusal he h).2] at hp
    cases hp

/-- Any other source is refused. -/
theorem decodesImage_of_refused (he : enc.isStateful = false) {front rest : List UInt8}
    {b : UInt8} (hf : front = [] ∨ enc.isPartial front = true)
    (hno : ∀ more, enc.isSequence (front ++ b :: more) = false)
    (hread : enc.decodeOne (some (front ++ b :: rest)) .initial =
      ⟨.error .invalidSequence, none, .initial⟩) : enc.DecodesImage (front ++ b :: rest) := by
  obtain ⟨hseq, hpart⟩ := no_sequence_of_refused hf hno rest
  have hbegins : ¬enc.Begins (front ++ b :: rest) := by
    rw [begins_iff he, hpart]
    rintro (h | h)
    · exact List.cons_ne_nil b rest (List.append_eq_nil_iff.mp h).2
    · cases h
  have hspells := not_spells_take he hseq
  refine ⟨Or.inr (Or.inr (Or.inr hread)), ?_, ?_, ?_, ?_, ?_⟩
  · rw [hread]
    exact iff_of_false nofun (head?_ne_zero he hseq)
  · intro n wc hn
    rw [hread]
    exact iff_of_false nofun fun h => hspells n wc h.2.2
  · rw [hread]
    exact iff_of_false nofun hbegins
  · rw [hread]
    exact iff_of_true rfl ⟨head?_ne_zero he hseq, hspells, hbegins⟩
  · rw [hread]
    refine iff_of_true rfl ⟨front, b, rest, rfl, (begins_iff he).mpr hf, fun wc more h => ?_⟩
    have hs := ((spells_iff he).mp h).1
    rw [hno more] at hs
    cases hs

/-- The decoder accepts exactly the image of the encoder. -/
theorem decodesImage (he : enc.isStateful = false) (hne : src ≠ []) : enc.DecodesImage src := by
  have hfirst := decode_first he hne
  generalize hd : enc.decode .initial src = decoded at hfirst
  cases hfirst with
  | whole front rest hsrc hs =>
    subst hsrc
    by_cases h0 : front = [0]
    · subst h0
      refine decodesImage_of_terminator he ?_
      simp only [decodeOne, hd, (sequenceValue_eq_zero_iff he hs).mpr rfl, reportedCount, ite_true]
    · refine decodesImage_of_character he hs h0 ?_
      have hv := mt (sequenceValue_eq_zero_iff he hs).mp h0
      simp only [decodeOne, hd, reportedCount, hv, ite_false]
  | partly hp => exact decodesImage_of_partly he hp (by simp only [decodeOne, hd])
  | refused front b rest hsrc hf hno =>
    subst hsrc
    exact decodesImage_of_refused he hf hno (by simp only [decodeOne, hd])

end Accepting

/-- A refused source is refused at one of its bytes, whatever follows it. -/
theorem refusedEarly_of_invalid {enc : Encoding} (he : enc.isStateful = false)
    {src : List UInt8} (hne : src ≠ [])
    (h : (enc.decodeOne (some src) .initial).result = .error .invalidSequence) :
    enc.RefusedEarly src := by
  obtain ⟨front, b, back, hsrc, hf, hno⟩ := (decodesImage he hne).refused.mp h
  refine ⟨front, b, back, hsrc, hf, hno, fun rest => ?_⟩
  have hrest : front ++ b :: rest ≠ [] := by simp
  have himage := decodesImage he hrest
  have hinvalid := himage.refused.mpr ⟨front, b, rest, rfl, hf, hno⟩
  rcases himage.outcome with hr | ⟨_, _, _, hr⟩ | hr | hr
  · rw [hr] at hinvalid
    cases hinvalid
  · rw [hr] at hinvalid
    cases hinvalid
  · rw [hr] at hinvalid
    cases hinvalid
  · exact hr

section Utf8

/-- The bytes of a value in a lead byte and `tails` further bytes of six bits each, as
UTF-8 was once laid out for up to 31 bits: `ED A0 80` for `0xD800` and two of them. -/
def utf8Layout (tails value : Nat) : List UInt8 :=
  UInt8.ofNat (256 - 2 ^ (7 - tails) + value / 64 ^ tails) ::
    (List.range tails).reverse.map fun k => UInt8.ofNat (0x80 + value / 64 ^ k % 64)

/-- The least value that needs as many further bytes. -/
def utf8LayoutMin (tails : Nat) : Nat := if tails = 1 then 0x80 else 2 ^ (5 * tails + 1)

/-- The values that UTF-8 does not write in `tails` further bytes: those that need fewer,
the surrogates, and those past the last code point. -/
def Utf8Excluded (tails value : Nat) : Prop :=
  value < utf8LayoutMin tails ∨ (0xD800 ≤ value ∧ value ≤ 0xDFFF) ∨ 0x10FFFF < value

theorem length_utf8Layout (tails value : Nat) : (utf8Layout tails value).length = tails + 1 := by
  simp only [utf8Layout, List.length_cons, List.length_map, List.length_reverse,
    List.length_range]

/-- Joining the further bytes gives back the low bits of the value. -/
theorem foldl_utf8Layout (tails value start : Nat) :
    ((List.range tails).reverse.map fun k => UInt8.ofNat (0x80 + value / 64 ^ k % 64)).foldl
      (fun joined b => joined * 64 + b.toNat % 64) start =
        start * 64 ^ tails + value % 64 ^ tails := by
  induction tails generalizing start with
  | zero => simp [Nat.mod_one]
  | succ tails ih =>
    have hb : (UInt8.ofNat (0x80 + value / 64 ^ tails % 64)).toNat % 64 =
        value / 64 ^ tails % 64 := by
      rw [UInt8.toNat_ofNat']
      omega
    rw [List.range_succ, List.reverse_concat, List.map_cons, List.foldl_cons, ih, hb,
      Nat.mod_pow_succ, Nat.pow_succ, Nat.add_mul, Nat.mul_assoc, Nat.mul_comm 64,
      Nat.mul_comm (value / 64 ^ tails % 64), Nat.add_assoc, Nat.add_comm (64 ^ tails * _)]

/-- The lead byte of a layout announces as many further bytes as there are, if it
announces any. -/
theorem sequenceLength?_utf8Layout {tails value n : Nat} (h1 : 1 ≤ tails) (h5 : tails ≤ 5)
    (hv : value < 2 ^ (5 * tails + 6))
    (h : utf8.sequenceLength? (UInt8.ofNat (256 - 2 ^ (7 - tails) + value / 64 ^ tails)) = some n) :
    n = tails + 1 := by
  rw [sequenceLength?_utf8_iff, UInt8.toNat_ofNat'] at h
  obtain rfl | rfl | rfl | rfl | rfl :
      tails = 1 ∨ tails = 2 ∨ tails = 3 ∨ tails = 4 ∨ tails = 5 := by omega
  all_goals omega

/-- What begins a layout with a sequence is the whole layout. -/
theorem eq_utf8Layout_of_isSequence {tails value : Nat} (h1 : 1 ≤ tails) (h5 : tails ≤ 5)
    (hv : value < 2 ^ (5 * tails + 6)) {p q : List UInt8} (h : utf8Layout tails value = p ++ q)
    (hp : utf8.isSequence p = true) : utf8Layout tails value = p := by
  match p, hp with
  | lead :: rest, hp =>
    have hl := length_utf8Layout tails value
    have hlead := (List.cons.inj h).1
    have hn := (isSequence_cons.mp hp).1
    rw [← hlead] at hn
    have hlen := sequenceLength?_utf8Layout h1 h5 hv hn
    rw [h, List.length_append, List.length_cons] at hl
    rw [h, List.eq_nil_of_length_eq_zero (show q.length = 0 by omega), List.append_nil]

theorem isPartial_utf8Layout {tails value : Nat} (h1 : 1 ≤ tails) (h5 : tails ≤ 5)
    (hv : value < 2 ^ (5 * tails + 6)) : utf8.isPartial (utf8Layout tails value) = false := by
  rw [Bool.eq_false_iff]
  intro hp
  obtain ⟨⟨n, hn, hlt⟩, _⟩ := isPartial_cons.mp hp
  have hlen := sequenceLength?_utf8Layout h1 h5 hv hn
  simp only [List.length_map, List.length_reverse, List.length_range] at hlt
  omega

/-- A layout that is a sequence stands for its value. -/
theorem toNat_sequenceValue_utf8Layout {tails value : Nat} (h1 : 1 ≤ tails) (h3 : tails ≤ 3)
    (hv : value < 2 ^ (5 * tails + 6)) :
    (utf8.sequenceValue (utf8Layout tails value)).toNat = value := by
  have hcons : ∀ (lead : UInt8) (rest : List UInt8), rest ≠ [] → utf8.sequenceValue (lead :: rest) =
      UInt32.ofNat (rest.foldl (fun joined b => joined * 64 + b.toNat % 64)
        (lead.toNat % 2 ^ (6 - rest.length))) := by
    intro lead rest hne
    match rest, hne with
    | b :: rest, _ => rfl
  rw [utf8Layout, hcons _ _ (List.ne_nil_of_length_pos (by simp; omega)), foldl_utf8Layout,
    UInt32.toNat_ofNat', UInt8.toNat_ofNat', List.length_map, List.length_reverse,
    List.length_range]
  obtain rfl | rfl | rfl : tails = 1 ∨ tails = 2 ∨ tails = 3 := by omega
  all_goals omega

/-- The UTF-8 encoder writes code points only, each in as many bytes as it needs. -/
theorem encodeUtf8_bounds {wc : UInt32} {bytes : List UInt8} (h : encodeUtf8 wc = some bytes) :
    ¬(0xD800 ≤ wc.toNat ∧ wc.toNat ≤ 0xDFFF) ∧ wc.toNat ≤ 0x10FFFF ∧
      (bytes.length = 2 → 0x80 ≤ wc.toNat) ∧ (bytes.length = 3 → 0x800 ≤ wc.toNat) ∧
      (bytes.length = 4 → 0x10000 ≤ wc.toNat) ∧ bytes.length ≤ 4 := by
  simp only [encodeUtf8, Nat.pow_eq] at h
  split at h
  · cases h
  repeat' split at h
  all_goals
    cases h
    simp only [List.length_cons, List.length_nil]
    omega

/-- The layout of an excluded value is no sequence. -/
theorem not_isSequence_utf8Layout {tails value : Nat} (h1 : 1 ≤ tails) (h5 : tails ≤ 5)
    (hv : value < 2 ^ (5 * tails + 6)) (hx : Utf8Excluded tails value) :
    utf8.isSequence (utf8Layout tails value) = false := by
  rw [Bool.eq_false_iff]
  intro hs
  have hbounds := encodeUtf8_bounds (encodeUtf8_sequenceValue hs)
  have hlen := length_utf8Layout tails value
  have hval := toNat_sequenceValue_utf8Layout h1 (by omega) hv
  rw [hlen, hval] at hbounds
  simp only [Utf8Excluded, utf8LayoutMin] at hx
  obtain rfl | rfl | rfl : tails = 1 ∨ tails = 2 ∨ tails = 3 := by omega
  all_goals
    simp only [ite_true, Nat.reduceMul, Nat.reduceAdd, Nat.reducePow, Nat.reduceEqDiff,
      ite_false] at hx
    omega

/-- An excluded value is refused in every layout. -/
theorem refusedEarly_utf8Layout {tails value : Nat} (h1 : 1 ≤ tails) (h5 : tails ≤ 5)
    (hv : value < 2 ^ (5 * tails + 6)) (hx : Utf8Excluded tails value) :
    utf8.RefusedEarly (utf8Layout tails value) := by
  have hno : ∀ p q, utf8Layout tails value = p ++ q → utf8.isSequence p = false := by
    intro p q h
    rw [Bool.eq_false_iff]
    intro hp
    rw [← eq_utf8Layout_of_isSequence h1 h5 hv h hp, not_isSequence_utf8Layout h1 h5 hv hx] at hp
    cases hp
  have hne : utf8Layout tails value ≠ [] := List.cons_ne_nil _ _
  have hbegins : ¬utf8.Begins (utf8Layout tails value) := by
    rw [begins_iff rfl, isPartial_utf8Layout h1 h5 hv]
    exact fun h => h.elim hne nofun
  exact refusedEarly_of_invalid rfl hne ((decodesImage rfl hne).invalid.mpr
    ⟨head?_ne_zero rfl hno, not_spells_take rfl hno, hbegins⟩)

end Utf8

/-- Without escape sequences the decoder accepts exactly the image of the encoder, for
every source. For UTF-8 a value that is written in too many bytes, a surrogate, and a
value past the last code point are refused at the first byte that rules every character
out. -/
theorem decodeOne_image :
    (∀ enc src, enc.isStateful = false → src ≠ [] → DecodesImage enc src) ∧
    ∀ tails value, 1 ≤ tails → tails ≤ 5 → value < 2 ^ (5 * tails + 6) →
      Utf8Excluded tails value → utf8.RefusedEarly (utf8Layout tails value) :=
  ⟨fun _ _ he hne => decodesImage he hne, fun _ _ => refusedEarly_utf8Layout⟩

/-- A character of EUC-JP, and the surrogate U+D800 in three bytes of UTF-8. -/
theorem decodeOne_image_examples :
    eucJp.DecodesImage [0x8F, 0xB0, 0xA1] ∧ utf8.RefusedEarly (utf8Layout 2 0xD800) :=
  ⟨decodeOne_image.1 eucJp [0x8F, 0xB0, 0xA1] rfl (by decide),
    decodeOne_image.2 2 0xD800 (by decide) (by decide) (by decide) (Or.inr (Or.inl (by decide)))⟩

end Encoding

end FormattedText
