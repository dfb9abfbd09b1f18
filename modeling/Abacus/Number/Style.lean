import Abacus.Number.Decimal

/-!
# Abacus.Number.Style

The text of numbers.  Every text uses the shortest digits that read back; a
`Style` fixes what is left open: the choice at equal distance, where positional
writing ends, whether whole numbers keep a fraction and how values that are no
real numbers are spelled.  `Style.display` is what programs print,
`Style.json` what variable listings in JSON use.
-/

namespace Abacus

/-- The decisions behind a number format. -/
structure Style where
  /-- Which of two equally near shortest decimals is taken. -/
  tie : Tie
  /-- The least and greatest leading exponent that is written positionally. -/
  positional : Option (Int × Int)
  /-- Whether a whole number ends in `.0`. -/
  fraction : Bool
  /-- The text of what is not a number. -/
  nan : String
  /-- The text of the positive infinity. -/
  infinity : String
  /-- The text of the negative infinity. -/
  minusInfinity : String

namespace Style

/-- Printed numbers are always positional, and a half goes away from zero. -/
def display : Style := ⟨.up, none, false, "NaN", "inf", "-inf"⟩

/-- JSON numbers keep a fraction, leave positional writing outside `10 ^ -5` to
`10 ^ 15`, and a half goes to the even neighbour. -/
def json : Style := ⟨.even, some (-5, 15), true, "null", "null", "null"⟩

/-- `n` zeros. -/
def zeros (n : Nat) : String := String.ofList (List.replicate n '0')

/-- Digits with the exponent of their last one, written positionally. -/
def positionally (fraction : Bool) (digits : List Char) (exponent : Int) : String :=
  if 0 ≤ exponent then
    String.ofList digits ++ zeros exponent.toNat ++ (if fraction then ".0" else "")
  else
    let places := (-exponent).toNat
    if places < digits.length then
      String.ofList (digits.take (digits.length - places)) ++ "." ++
        String.ofList (digits.drop (digits.length - places))
    else "0." ++ zeros (places - digits.length) ++ String.ofList digits

/-- Digits with the exponent of the leading one, written with that exponent. -/
def scientifically (digits : List Char) (leading : Int) : String :=
  let head := String.ofList (digits.take 1)
  let tail := digits.drop 1
  let mantissa := if tail.isEmpty then head else head ++ "." ++ String.ofList tail
  mantissa ++ "e" ++ (if leading < 0 then "-" else "+") ++ toString leading.natAbs

/-- A decimal in the given style. -/
def decimal (style : Style) (d : Decimal) : String :=
  let digits := Nat.toDigits 10 d.coefficient
  let leading := d.exponent + digits.length - 1
  match style.positional with
  | none => positionally style.fraction digits d.exponent
  | some (least, greatest) =>
    if least ≤ leading ∧ leading ≤ greatest then positionally style.fraction digits d.exponent
    else scientifically digits leading

/-- A double taken apart, in the given style. -/
def binary (style : Style) : Binary → String
  | .nan => style.nan
  | .infinite false => style.infinity
  | .infinite true => style.minusInfinity
  | .finite negative m q =>
    let d := if m = 0 then ⟨0, 0⟩ else Decimal.shortest style.tie m q
    (if negative then "-" else "") ++ style.decimal d

/-- A number in the given style. -/
def text (style : Style) (x : Float) : String := style.binary (Binary.ofFloat x)

end Style

namespace Number

/-- Whether a number is whole and below `10 ^ 15` in size. -/
def isPlainWhole (b : Binary) : Bool := b.isWhole && decide (b.truncate.natAbs < 1000000000000000)

/-- How a program shows a number: whole numbers below `10 ^ 15` in size as
integers, without a sign on zero, and all others in the printed style. -/
def display (x : Float) : String :=
  let b := Binary.ofFloat x
  if isPlainWhole b then toString b.truncate else Style.display.binary b

/-- How a token listing shows the value of a number: as `display`, but whole
numbers below `10 ^ 15` in size keep a fraction. -/
def literal (x : Float) : String :=
  let b := Binary.ofFloat x
  if isPlainWhole b then toString b.truncate ++ ".0" else Style.display.binary b

end Number

end Abacus
