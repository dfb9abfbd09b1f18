/-!
# Abacus.Number.Binary

Doubles taken apart.  A finite double is a sign, a whole mantissa below `2 ^ 53`
and an exponent of two; `Binary.ofFloat` reads these off the bits and
`Binary.toFloat` puts them back.  The exact operations that the language needs
beside the arithmetic of `Float` are defined on the parts: the whole part, the
remainder of a division, and the smaller and larger of two numbers.
-/

namespace Abacus

/-- A double by its parts: not a number, an infinity, or
`± mantissa * 2 ^ exponent`. -/
inductive Binary where
  | nan
  | infinite (negative : Bool)
  | finite (negative : Bool) (mantissa : Nat) (exponent : Int)
deriving DecidableEq, Repr

namespace Binary

/-! ## Taking apart and putting together -/

/-- The parts that a bit pattern encodes. -/
def ofBits (bits : UInt64) : Binary :=
  let n := bits.toNat
  let negative := decide (Nat.pow 2 63 ≤ n)
  let fraction : Nat := n % Nat.pow 2 52
  let biased : Nat := n / Nat.pow 2 52 % Nat.pow 2 11
  if biased = 2047 then
    if fraction = 0 then infinite negative else nan
  else if biased = 0 then finite negative fraction (-1074)
  else finite negative (fraction + Nat.pow 2 52) ((biased : Int) - 1075)

/-- The parts of a double. -/
def ofFloat (x : Float) : Binary := ofBits x.toBits

/-- The bits of `mantissa * 2 ^ exponent`, for a mantissa below `2 ^ 53` and an
exponent from `-1074` up: the mantissa is shifted until its top bit is in place
or the exponent is the least one. -/
def magnitudeBits (mantissa : Nat) (exponent : Int) : Nat :=
  let shift := min (52 - mantissa.log2) (exponent + 1074).toNat
  let m := mantissa * Nat.pow 2 shift
  let e := exponent - shift
  if m < Nat.pow 2 52 then m
  else (e + 1075).toNat * Nat.pow 2 52 + (m - Nat.pow 2 52)

/-- The double with the given parts. -/
def toFloat : Binary → Float
  | nan => Float.ofBits 0x7ff8000000000000
  | infinite negative =>
    let x := Float.ofBits 0x7ff0000000000000
    if negative then -x else x
  | finite negative mantissa exponent =>
    let x := Float.ofBits (UInt64.ofNat (magnitudeBits mantissa exponent))
    if negative then -x else x

/-! ## Whole parts -/

/-- The natural number `⌊mantissa * 2 ^ exponent⌋`. -/
def wholePart (mantissa : Nat) (exponent : Int) : Nat :=
  if 0 ≤ exponent then mantissa * Nat.pow 2 exponent.toNat
  else mantissa / Nat.pow 2 (-exponent).toNat

/-- Whether a double is a whole number; the infinities are not. -/
def isWhole : Binary → Bool
  | finite _ mantissa exponent => 0 ≤ exponent || mantissa % Nat.pow 2 (-exponent).toNat = 0
  | _ => false

/-- A double without its fraction, as an integer; zero if it is not finite. -/
def truncate : Binary → Int
  | finite negative mantissa exponent =>
    let n := wholePart mantissa exponent
    if negative then -n else n
  | _ => 0

/-- The least and the greatest integer of 64 bits. -/
def minInt64 : Int := -9223372036854775808

@[inherit_doc minInt64]
def maxInt64 : Int := 9223372036854775807

/-- A double without its fraction, held within the integers of 64 bits. -/
def truncateInt64 : Binary → Int
  | infinite negative => if negative then minInt64 else maxInt64
  | b => max minInt64 (min maxInt64 b.truncate)

/-! ## Remainders -/

/-- The remainder of a division that rounds toward zero.  It is exact and has
the sign of the dividend. -/
def remainder : Binary → Binary → Binary
  | a@(finite _ _ _), infinite _ => a
  | finite negative m e, finite _ n f =>
    if n = 0 then nan
    else
      let low := min e f
      finite negative
        (m * Nat.pow 2 (e - low).toNat % (n * Nat.pow 2 (f - low).toNat)) low
  | _, _ => nan

end Binary

namespace Number

/-- The remainder of `a / b` that keeps the sign of `a`. -/
def remainder (a b : Float) : Float := ((Binary.ofFloat a).remainder (Binary.ofFloat b)).toFloat

/-- The smaller of two numbers; a missing number loses, and of equals the first wins. -/
def smaller (a b : Float) : Float := if a.isNaN then b else if b < a then b else a

/-- The larger of two numbers; a missing number loses, and of equals the first wins. -/
def larger (a b : Float) : Float := if a.isNaN then b else if a < b then b else a

/-- The integer that a bound stands for: truncated, and held within 64 bits. -/
def bound (x : Float) : Int := (Binary.ofFloat x).truncateInt64

end Number

end Abacus
