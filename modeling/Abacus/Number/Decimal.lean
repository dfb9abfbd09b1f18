import Abacus.Number.Binary

/-!
# Abacus.Number.Decimal

The shortest decimal that reads back as a given double.  A double
`m * 2 ^ q` is the rounding of an interval of numbers around it; for one digit,
two digits and so on, the two neighbours of the double among the decimals of so
many digits are tested for lying in that interval.  The first hit wins, of two
hits the nearer one; `Tie` says which to take at equal distance.
-/

namespace Abacus

/-- A decimal number `coefficient * 10 ^ exponent`. -/
structure Decimal where
  coefficient : Nat
  exponent : Int
deriving DecidableEq, Repr

/-- Which of two equally near neighbours is taken. -/
inductive Tie where
  | up | even
deriving DecidableEq, Repr

namespace Decimal

/-- A positive double `mantissa * 2 ^ exponent` as a fraction. -/
structure Ratio where
  num : Nat
  den : Nat

/-- The fraction `m * 2 ^ q`. -/
def Ratio.ofBinary (m : Nat) (q : Int) : Ratio :=
  if 0 ≤ q then ⟨m * Nat.pow 2 q.toNat, 1⟩ else ⟨m, Nat.pow 2 (-q).toNat⟩

/-- Whether `10 ^ k` is at most the fraction. -/
def Ratio.hasPower (r : Ratio) (k : Int) : Bool :=
  if 0 ≤ k then r.den * Nat.pow 10 k.toNat ≤ r.num
  else r.den ≤ r.num * Nat.pow 10 (-k).toNat

/-- The exponent of the leading decimal digit of `m * 2 ^ q`, for `0 < m`.  The
estimate from the bit length is at most one off. -/
def leadingExponent (m : Nat) (q : Int) : Int :=
  let r := Ratio.ofBinary m q
  let estimate := ((m.log2 : Int) + q) * 30103 / 100000
  if r.hasPower (estimate + 1) then estimate + 1
  else if r.hasPower estimate then estimate
  else estimate - 1

/-- The neighbours of a double on a decimal grid, in quarter units: the double
is `4 * m * unit`, a grid point `c` is `4 * c * grid`, and the double is the
rounding of what lies between `low` and `high`. -/
structure Grid where
  mantissa : Nat
  unit : Nat
  grid : Nat
  low : Nat
  high : Nat

/-- The grid of step `10 ^ k` around `m * 2 ^ q`.  Below a power of two the
doubles lie half as far apart as above it. -/
def Grid.around (m : Nat) (q k : Int) : Grid :=
  let unit := Nat.pow 2 q.toNat * Nat.pow 10 (-k).toNat
  let grid := Nat.pow 2 (-q).toNat * Nat.pow 10 k.toNat
  let below := if m = Nat.pow 2 52 ∧ -1074 < q then 1 else 2
  ⟨m, unit, grid, (4 * m - below) * unit, (4 * m + 2) * unit⟩

namespace Grid

/-- Whether the grid point `c` reads back as the double.  The ends of the
interval do so for an even mantissa. -/
def hit (g : Grid) (c : Nat) : Bool :=
  let x := 4 * c * g.grid
  if g.mantissa % 2 = 0 then g.low ≤ x && x ≤ g.high else g.low < x && x < g.high

/-- The grid point at or below the double. -/
def floor (g : Grid) : Nat := g.mantissa * g.unit / g.grid

/-- Whether the grid point above the double is taken rather than the one below,
when both read back. -/
def roundsUp (g : Grid) (tie : Tie) : Bool :=
  let c := g.floor
  let below := g.mantissa * g.unit - c * g.grid
  let above := (c + 1) * g.grid - g.mantissa * g.unit
  if below = above then
    match tie with
    | .up => true
    | .even => c % 2 = 1
  else above < below

/-- The grid point that reads back as the double and is nearest to it, if any. -/
def nearest? (g : Grid) (tie : Tie) : Option Nat :=
  let c := g.floor
  match g.hit c, g.hit (c + 1) with
  | true, true => some (if g.roundsUp tie then c + 1 else c)
  | true, false => some c
  | false, true => some (c + 1)
  | false, false => none

end Grid

/-- Move one trailing zero of the coefficient to the exponent. -/
def dropZero (d : Decimal) : Decimal :=
  if d.coefficient = 10 then ⟨1, d.exponent + 1⟩ else d

/-- The shortest decimal that reads back as `m * 2 ^ q`, for `0 < m`.  Seventeen
digits always suffice. -/
def shortest (tie : Tie) (m : Nat) (q : Int) : Decimal :=
  let top := leadingExponent m q
  let found := (List.range 17).findSome? fun (n : Nat) =>
    let k := top - (n : Int)
    ((Grid.around m q k).nearest? tie).map fun c => dropZero ⟨c, k⟩
  found.getD ⟨m, q⟩

end Decimal

end Abacus
