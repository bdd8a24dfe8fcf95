import FormattedText.Multibyte.Text

/-!
# Texts to measure with

Texts of any length, made by repeating a sample, as wide characters and in each
encoding. Every character of a sample can be written in its encoding.
-/

namespace FormattedText

namespace Benchmark

/-- The first `length` elements of a sample that is repeated without end; an empty
sample gives none. -/
def repeated {α : Type} (sample : List α) (length : Nat) : List α :=
  (List.range length).filterMap fun i => sample[i % sample.length]?

/-- The code points of the first `length` characters of a repeated sample. -/
def wideText (sample : String) (length : Nat) : List UInt32 :=
  repeated (sample.toList.map Char.val) length

end Benchmark

namespace Encoding

/-- A sample of text that the encoding can write. The wide characters of the Japanese
encodings are made of their bytes. -/
def sample : Encoding → String
  | ascii => "plain ascii text, "
  | latin1 => "caf\u00e9 cr\u00e8me br\u00fbl\u00e9e "
  | utf8 => "na\u00efve \u20ac100 \u65e5\u672c "
  | eucJp => "\ub0a1\ub0a2ab\uc6fc"
  | shiftJis => "\u93fa\u967bab\u00b1"
  | jis => "\u467c\u4b5cab\u3021"

/-- A text of `length` characters in the encoding with a terminator, converted into
a buffer that has room for the longest characters. -/
def sampleText (enc : Encoding) (length : Nat) : List UInt8 :=
  let wide := Benchmark.wideText enc.sample length ++ [0]
  let room := wide.length * enc.maxCharacterLength
  let t := enc.encodeWhole room wide
  match t.result with
  | .ok n => (overlay t.stored (List.replicate room 0)).take (n + 1)
  | .error _ => []

end Encoding

end FormattedText
