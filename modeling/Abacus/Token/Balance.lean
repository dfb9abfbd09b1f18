/-!
# Abacus.Token.Balance

The brace balance of a text, read character by character.  A small automaton
tells braces that count from braces inside strings and comments, so the
balance is known also of a text that does not scan.
-/

namespace Abacus

namespace Balance

/-- Where a character stands: in the program, in a string, after a backslash
of a string, or in a comment. -/
inductive Mode where
  | code | text | escape | comment
deriving DecidableEq, Repr

/-- Where the character after `c` stands. -/
def Mode.next : Mode → Char → Mode
  | .comment, c => if c = '\n' then .code else .comment
  | .escape, _ => .text
  | .text, c => if c = '\\' then .escape else if c = '"' then .code else .text
  | .code, c => if c = '"' then .text else if c = '#' then .comment else .code

/-- What a character adds to the balance. -/
def weight : Mode → Char → Int
  | .code, '\x7b' => 1
  | .code, '\x7d' => -1
  | _, _ => 0

/-- The balance of a text that starts in the given mode. -/
def total : Mode → List Char → Int
  | _, [] => 0
  | m, c :: cs => weight m c + total (m.next c) cs

end Balance

/-- Opening braces less closing braces of a text, strings and comments apart.
A positive balance means that a block is still open. -/
def openBraces (source : String) : Int := Balance.total .code source.toList

end Abacus
