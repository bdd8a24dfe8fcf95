import FormattedText.Multibyte.Decoder

/-!
# Text from bytes that may not be text

Bytes as UTF-8 text, with a replacement character for what is none: each longest
run of bytes that begins a character without finishing it is replaced at once,
and so is each byte that begins no character.
-/

namespace FormattedText

namespace Replacement

/-- The character that stands for bytes which are no text. -/
def mark : Char := '\uFFFD'

/-- The number of bytes at the front that begin a character without finishing it. -/
def unfinishedLength (s : ConversionState) : List UInt8 → Nat
  | [] => 0
  | b :: rest =>
      match Encoding.utf8.feed s b with
      | .more s' => unfinishedLength s' rest + 1
      | _ => 0

/-- The characters of bytes. -/
def chars : List UInt8 → List Char
  | [] => []
  | b :: rest =>
      match Encoding.utf8.decode .initial (b :: rest) with
      | .character wc count _ => Char.ofNat wc.toNat :: chars (rest.drop (count - 1))
      | .incomplete _ => [mark]
      | .invalid =>
          mark :: chars (rest.drop (unfinishedLength .initial (b :: rest) - 1))
  termination_by bytes => bytes.length
  decreasing_by all_goals simp only [List.length_drop, List.length_cons]; omega

/-- The text of bytes. -/
def text (bytes : List UInt8) : String := String.ofList (chars bytes)

end Replacement

end FormattedText
