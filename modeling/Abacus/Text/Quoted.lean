import Abacus.Text.Printable
import Abacus.Text.Extender

/-!
# Abacus.Text.Quoted

Text between quotes, with escapes for what cannot be shown as itself.  Line
breaks, tabs, NUL, quotes and backslashes have short escapes; hidden and
joining characters are written by code point in hexadecimal.
-/

namespace Abacus

namespace Text

/-- The code point of a character in lower-case hexadecimal, without padding. -/
def hexCode (c : Char) : List Char := Nat.toDigits 16 c.toNat

/-- A character as it stands between quotes. -/
def escape (c : Char) : List Char :=
  match c with
  | '\x00' => ['\\', '0']
  | '\t' => ['\\', 't']
  | '\r' => ['\\', 'r']
  | '\n' => ['\\', 'n']
  | '"' => ['\\', '"']
  | '\\' => ['\\', '\\']
  | c =>
    if isExtender c || !isPrintable c then
      ['\\', 'u', '\x7b'] ++ hexCode c ++ ['\x7d']
    else [c]

/-- A text in quotes. -/
def quoted (s : String) : String :=
  String.ofList ('"' :: (s.toList.flatMap escape ++ ['"']))

end Text

end Abacus
