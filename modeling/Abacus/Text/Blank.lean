/-!
# Abacus.Text.Blank

The characters that count as white space around a number or a submitted line,
and `trim`, which takes them off both ends of a text.
-/

namespace Abacus

namespace Text

/-- Whether a character is white space: the ASCII controls from tab to carriage
return, the space, and the separators of the other scripts. -/
def isBlank (c : Char) : Bool :=
  let n := c.toNat
  (0x09 ≤ n && n ≤ 0x0d) || n = 0x20 || n = 0x85 || n = 0xa0 || n = 0x1680 ||
    (0x2000 ≤ n && n ≤ 0x200a) || n = 0x2028 || n = 0x2029 || n = 0x202f ||
    n = 0x205f || n = 0x3000

/-- Drop the elements that satisfy `p` from the end of a list. -/
def dropEndWhile {α : Type} (p : α → Bool) (l : List α) : List α :=
  (l.reverse.dropWhile p).reverse

/-- A text without the white space at its ends. -/
def trim (cs : List Char) : List Char := dropEndWhile isBlank (cs.dropWhile isBlank)

end Text

end Abacus
