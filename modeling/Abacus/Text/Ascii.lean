/-!
# Abacus.Text.Ascii

The ASCII classes that spell numbers and words.
-/

namespace Abacus

namespace Text

/-- A decimal digit. -/
def isDigit (c : Char) : Bool := '0' ≤ c && c ≤ '9'

/-- A letter from `a` to `z`, small or capital. -/
def isLetter (c : Char) : Bool := ('a' ≤ c && c ≤ 'z') || ('A' ≤ c && c ≤ 'Z')

/-- The value of a decimal digit. -/
def digitValue (c : Char) : Nat := c.toNat - '0'.toNat

end Text

end Abacus
