import SurfaceLanguage.Number.Binary64

/-!
# Written numbers

Integers are written in decimal. A floating point number is written by its
shortest decimal: positionally, with at least one digit behind the point, when it
is zero or lies from `10 ^ (-4)` up to but not including `10 ^ 16`, and otherwise
with one digit before the point and a power of ten.

Among the decimals that read back to a given number, the shortest one is sought,
and among those of its length the nearest. Everything is exact: the number and
the ends of the interval that rounds to it are brought to a common power of ten,
so that they are naturals, and a decimal of a given length is a multiple of a
power of ten beside them.
-/
namespace SurfaceLanguage.Number

/-- The value `coefficient * 10 ^ exponent`. -/
structure Decimal where
  coefficient : Nat
  exponent : Int
deriving DecidableEq, Repr

/-- The numbers that round to a positive number, all of them in units of
`10 ^ (-scale)`. The ends are in quarters of the unit, and belong to the interval
if `closed`. -/
structure Rounding where
  value : Nat
  lowQuarters : Nat
  highQuarters : Nat
  closed : Bool
  scale : Nat
deriving DecidableEq, Repr

/-- A half goes to the even significand, so the ends of an even one belong to it. -/
def Binary64.rounding (x : Binary64) : Rounding :=
  let m := x.significand
  let unit := if 0 ≤ x.exponent then Nat.pow 2 x.exponent.toNat else Nat.pow 5 (-x.exponent).toNat
  { value := m * unit
    lowQuarters := (4 * m - if x.isAtBinade then 1 else 2) * unit
    highQuarters := (4 * m + 2) * unit
    closed := m % 2 == 0
    scale := (-x.exponent).toNat }

namespace Rounding

def contains (r : Rounding) (n : Nat) : Bool :=
  if r.closed then r.lowQuarters ≤ 4 * n && 4 * n ≤ r.highQuarters
  else r.lowQuarters < 4 * n && 4 * n < r.highQuarters

/-- The multiple of `grid` in the interval that is nearest to the value, if there
is one, as a count of grid steps. Of two equally near the upper one is taken. If
the interval meets the grid at all, it meets it next to the value. -/
def nearest? (r : Rounding) (grid : Nat) : Option Nat :=
  let below := r.value / grid
  let belowFits := r.contains (below * grid)
  let aboveFits := r.contains ((below + 1) * grid)
  if aboveFits && (!belowFits || grid ≤ 2 * (r.value % grid)) then some (below + 1)
  else if belowFits then some below
  else none

/-- The first power of ten, from `10 ^ power` downwards, with a multiple in the
interval. The value itself is a multiple of one. -/
def coarsest (r : Rounding) : Nat → Decimal
  | 0 => ⟨r.value, -r.scale⟩
  | power + 1 =>
      match r.nearest? (Nat.pow 10 (power + 1)) with
      | some count => ⟨count, (power + 1 : Nat) - r.scale⟩
      | none => r.coarsest power

end Rounding

/-- The shortest decimal that reads back to a positive finite number, and the
nearest of that length. The search starts at the first power of ten above the
value, because the interval ends below the next one. -/
def Binary64.shortest (x : Binary64) : Decimal :=
  let r := x.rounding
  r.coarsest (Nat.toDigits 10 r.value).length

namespace Decimal

def digits (d : Decimal) : List Char := Nat.toDigits 10 d.coefficient

/-- The power of ten of the leading digit. -/
def leadingPower (d : Decimal) : Int := d.exponent + d.digits.length - 1

def isPositional (d : Decimal) : Bool := -4 ≤ d.leadingPower && d.leadingPower < 16

def zeros (n : Nat) : List Char := List.replicate n '0'

/-- Digits with a point, at least one digit on either side. -/
def positional (d : Decimal) : List Char :=
  if 0 ≤ d.exponent then d.digits ++ zeros d.exponent.toNat ++ ['.', '0']
  else
    let places := (-d.exponent).toNat
    let padded := zeros (places + 1 - d.digits.length) ++ d.digits
    padded.take (padded.length - places) ++ '.' :: padded.drop (padded.length - places)

/-- The point stands behind the first digit if others follow. -/
def scientific (d : Decimal) : List Char :=
  let mantissa :=
    match d.digits with
    | first :: second :: rest => first :: '.' :: second :: rest
    | short => short
  mantissa ++ 'e' :: (toString d.leadingPower).toList

def letters (d : Decimal) : List Char := if d.isPositional then d.positional else d.scientific

end Decimal

/-- A NaN has no sign. Every other number has one if its bits have. -/
def Binary64.written (x : Binary64) : String :=
  let magnitude :=
    if x.isInfinite then "inf"
    else if x.isZero then "0.0"
    else String.ofList x.shortest.letters
  if x.isNaN then "NaN" else if x.isNegative then "-" ++ magnitude else magnitude

def writtenInt (n : Int64) : String := toString n.toInt

end SurfaceLanguage.Number
