import HclOverlay.Decimal.Binary

/-!
# The shortest decimal that reads back

A float stands for every real that rounds to it, an interval around its exact value. The shortest
decimal of the float lies in that interval on the coarsest decimal grid that meets it; of two
points of the grid in the interval it is the nearer, and of two equally near the even one.

* `Binary.onGrid` — the point chosen on the grid of multiples of `10 ^ j`, if one is inside.
* `shortest` — the search from coarse grids to fine ones.

The coarsest grid gives the fewest digits: a shorter decimal would lie on a coarser grid.
-/

namespace HclOverlay.Decimal

/-- The decimal `significand * 10 ^ exponent`. -/
structure Digits where
  /-- the digits, as one number without trailing zeros -/
  significand : Nat
  /-- the power of ten that scales them -/
  exponent : Int
  deriving DecidableEq

/-- Whether the decimal point `c * unit` lies between the halfway points to the neighbouring
floats, all in quarters of the last binary place. The halfway points themselves round to the float
with the even mantissa. -/
def Binary.covers (b : Binary) (scale unit c : Nat) : Bool :=
  let lower := (4 * b.mantissa - (if b.narrowBelow then 1 else 2)) * scale
  let upper := (4 * b.mantissa + 2) * scale
  if b.mantissa % 2 = 0 then lower ≤ c * unit && c * unit ≤ upper
  else lower < c * unit && c * unit < upper

/-- The multiple of `10 ^ j` that stands for the float, if one rounds to it. -/
def Binary.onGrid (b : Binary) (j : Int) : Option Nat :=
  let e := b.exponent - 2
  let scale := pow2 e.toNat * pow10 (-j).toNat
  let unit := pow2 (-e).toNat * pow10 j.toNat
  let value := 4 * b.mantissa * scale
  let low := value / unit
  let gapBelow := value - low * unit
  let gapAbove := (low + 1) * unit - value
  match b.covers scale unit low, b.covers scale unit (low + 1) with
  | true, true =>
    if gapBelow < gapAbove || (gapBelow == gapAbove && low % 2 == 0) then some low
    else some (low + 1)
  | true, false => some low
  | false, true => some (low + 1)
  | false, false => none

/-- Tries the grids `10 ^ j`, `10 ^ (j - 1)`, … in turn. -/
def Binary.search (b : Binary) : Nat → Int → Digits
  | 0, j => ⟨0, j⟩
  | steps + 1, j =>
    match b.onGrid j with
    | some c => ⟨c, j⟩
    | none => b.search steps (j - 1)

/-- The shortest decimal that reads back as the magnitude of a finite, nonzero float. The first
grid is coarser than the value; seventeen digits always suffice, so twenty grids do. -/
def shortest (x : Float) : Digits :=
  let b := Binary.ofFloat x
  let bits : Int := Nat.log2 b.mantissa + b.exponent
  b.search 20 (((bits + 1) * 30103).fdiv 100000 + 1)

end HclOverlay.Decimal
