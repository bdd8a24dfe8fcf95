import FormattedText.Number.Digits
import FormattedText.Text.Unshown

/-!
# Quoted text

A text in quotation marks for a reader: quotation marks, backslashes, line ends
and tabs have escapes of two characters, and every other character that is not
shown as it is has its code point in braces.
-/

namespace FormattedText

namespace Quoted

/-- The escape of a code point: its hexadecimal digits in braces. -/
def codePoint (c : Char) : List Char :=
  ['\\', 'u', '\x7b'] ++ Digits.chars (Digits.text 16 c.toNat) ++ ['\x7d']

/-- A character as it stands in a quoted text. -/
def char : Char → List Char
  | '"' => ['\\', '"']
  | '\\' => ['\\', '\\']
  | '\n' => ['\\', 'n']
  | '\r' => ['\\', 'r']
  | '\t' => ['\\', 't']
  | '\x00' => ['\\', '0']
  | c => if isUnshown c then codePoint c else [c]

/-- A text in quotation marks. -/
def text (s : String) : String := "\"" ++ String.ofList (s.toList.flatMap char) ++ "\""

end Quoted

end FormattedText
