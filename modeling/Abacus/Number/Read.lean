import Abacus.Text.Ascii
import Abacus.Text.Blank

/-!
# Abacus.Number.Read

Reading a number from text.  A number is a sign, digits with at most one point,
and an exponent; or one of the words for the infinities and for what is not a
number, in any case.  The value is the double nearest to the decimal.
-/

namespace Abacus

namespace Number

open Text (isDigit digitValue)

/-- The number that a list of digits spells. -/
def digitsValue (ds : List Char) : Nat :=
  ds.foldl (fun n d => 10 * n + digitValue d) 0

/-- The double nearest to `coefficient * 10 ^ exponent`.  A decimal whose
leading digit is beyond `10 ^ 400` or below `10 ^ -400` is an infinity or zero. -/
def ofDecimal (coefficient : Nat) (exponent : Int) : Float :=
  let leading := ((Nat.toDigits 10 coefficient).length : Int) + exponent
  if coefficient = 0 ∨ leading < -400 then 0
  else if 400 < leading then Float.ofBits 0x7ff0000000000000
  else Float.ofScientific coefficient (exponent < 0) exponent.natAbs

/-- The sign of a text and what follows it. -/
def takeSign : List Char → Bool × List Char
  | '-' :: cs => (true, cs)
  | '+' :: cs => (false, cs)
  | cs => (false, cs)

/-- The exponent that a text spells: nothing, or `e` with an integer. -/
def exponent? : List Char → Option Int
  | [] => some 0
  | c :: cs =>
    if c = 'e' ∨ c = 'E' then
      let (negative, ds) := takeSign cs
      if ds.isEmpty || !ds.all isDigit then none
      else some (if negative then -(digitsValue ds : Int) else digitsValue ds)
    else none

/-- The value of an unsigned decimal. -/
def unsigned? (cs : List Char) : Option Float :=
  let whole := cs.takeWhile isDigit
  let (places, tail) :=
    match cs.dropWhile isDigit with
    | '.' :: ds => (ds.takeWhile isDigit, ds.dropWhile isDigit)
    | rest => ([], rest)
  if whole.isEmpty && places.isEmpty then none
  else (exponent? tail).map fun e => ofDecimal (digitsValue (whole ++ places)) (e - places.length)

/-- The value of a word that stands for no real number. -/
def word? (cs : List Char) : Option Float :=
  let w := String.ofList (cs.map Char.toLower)
  if w = "inf" ∨ w = "infinity" then some (Float.ofBits 0x7ff0000000000000)
  else if w = "nan" then some (Float.ofBits 0x7ff8000000000000)
  else none

/-- The number that a text spells. -/
def read? (s : String) : Option Float :=
  let (negative, cs) := takeSign s.toList
  ((word? cs).or (unsigned? cs)).map fun x => if negative then -x else x

/-- The number that a text spells between white space. -/
def readTrimmed? (s : String) : Option Float := read? (String.ofList (Text.trim s.toList))

end Number

end Abacus
