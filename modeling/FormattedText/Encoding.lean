/-!
# Character encodings

The encodings that multibyte text may be written in. An encoding has a
canonical charset name, a bound on the bytes of one character, and may depend
on a shift state. `Encoding.ofCharset?` looks a charset up by any of its
spellings; case, hyphens and underscores never matter.
-/

namespace FormattedText

/-- A multibyte character encoding. -/
inductive Encoding where
  /-- Seven bits, the encoding of the C locale. -/
  | ascii
  /-- ISO-8859-1: one byte for each of the first 256 code points. -/
  | latin1
  /-- UTF-8. -/
  | utf8
  /-- EUC-JP: JIS X 0208 pairs, half-width kana and JIS X 0212. -/
  | eucJp
  /-- Shift_JIS: pairs and half-width kana. -/
  | shiftJis
  /-- ISO-2022-JP, the only encoding here with a shift state. -/
  | jis
  deriving DecidableEq, Repr, Inhabited

namespace Encoding

/-- All encodings. -/
def all : List Encoding := [ascii, latin1, utf8, eucJp, shiftJis, jis]

/-- The canonical name of the charset. -/
def charsetName : Encoding → String
  | ascii => "ANSI_X3.4-1968"
  | latin1 => "ISO-8859-1"
  | utf8 => "UTF-8"
  | eucJp => "EUC-JP"
  | shiftJis => "SJIS"
  | jis => "JIS"

/-- The greatest number of bytes that one character may take, escape sequences
included. -/
def maxCharacterLength : Encoding → Nat
  | ascii | latin1 => 1
  | utf8 => 4
  | eucJp => 3
  | shiftJis => 2
  | jis => 8

/-- Does decoding depend on a shift state? -/
def isStateful : Encoding → Bool
  | jis => true
  | _ => false

/-- The charset spellings that are known, in the form that `charsetKey` gives them. -/
def charsetKeys : List (List Char × Encoding) :=
  [("ASCII".toList, ascii), ("USASCII".toList, ascii), ("ANSIX3.41968".toList, ascii),
   ("ISO88591".toList, latin1), ("LATIN1".toList, latin1),
   ("UTF8".toList, utf8),
   ("EUCJP".toList, eucJp),
   ("SJIS".toList, shiftJis), ("SHIFTJIS".toList, shiftJis),
   ("JIS".toList, jis), ("ISO2022JP".toList, jis)]

/-- A charset name without hyphens and underscores and with its ASCII letters in
upper case: two spellings of one charset have the same key. -/
def charsetKey (name : List Char) : List Char :=
  (name.filter fun c => c ≠ '-' ∧ c ≠ '_').map Char.toUpper

/-- The encoding of a charset, by any spelling of its name. -/
def ofCharset? (name : List Char) : Option Encoding :=
  charsetKeys.lookup (charsetKey name)

/-- The greatest number of bytes of one character over all encodings. -/
def longestCharacter : Nat := 8

theorem maxCharacterLength_le (e : Encoding) : e.maxCharacterLength ≤ longestCharacter := by
  cases e <;> decide

end Encoding

end FormattedText
