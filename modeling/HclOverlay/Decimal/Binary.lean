/-!
# Binary floating point, decoded

A finite binary64 value is `mantissa * 2 ^ exponent`; every exact question about it (is it a whole
number, which decimals round to it, what is its remainder by another) is asked of that pair with
`Nat` and `Int` arithmetic.

* `pow2`, `pow10`, `unsignedLimit`, `signedLimit` — the numbers all of this is measured by.
* `Binary.ofFloat` — the magnitude of a float as such a pair.
* `wholeValue?` — the integer a float equals, if it is one.
* `remainder` — the truncating remainder, exact, with the sign of the dividend.
* `ofDecimal?` — the float nearest to a decimal, unless it is out of range.
-/

namespace HclOverlay.Decimal

/-! ## Powers and limits -/

/-- The powers of two. -/
def pow2 (n : Nat) : Nat := Nat.pow 2 n

/-- The powers of ten. -/
def pow10 (n : Nat) : Nat := Nat.pow 10 n

/-- The first natural number that does not fit 64 bits. -/
def unsignedLimit : Nat := 18446744073709551616

/-- The first natural number that does not fit 64 bits with a sign. -/
def signedLimit : Nat := 9223372036854775808

/-! ## Floats as integers -/

/-- The magnitude of a finite float: `mantissa * 2 ^ exponent`. -/
structure Binary where
  /-- the significant bits, as a whole number -/
  mantissa : Nat
  /-- the power of two that scales them -/
  exponent : Int
  /-- whether the next smaller float lies half as far away as the next larger one -/
  narrowBelow : Bool

/-- Decodes the magnitude of a finite float from its bits. -/
def Binary.ofFloat (x : Float) : Binary :=
  let bits := x.toBits.toNat
  let fraction : Nat := bits % pow2 52
  let biased : Nat := bits / pow2 52 % pow2 11
  if biased = 0 then ⟨fraction, -1074, false⟩
  else ⟨pow2 52 + fraction, (biased : Int) - 1075, fraction = 0 && 1 < biased⟩

/-- Whether the sign bit is set; it tells `-0.0` from `0.0`. -/
def signBit (x : Float) : Bool :=
  signedLimit ≤ x.toBits.toNat

/-- The natural number a magnitude equals, if it is whole. -/
def Binary.toNat? (b : Binary) : Option Nat :=
  if 0 ≤ b.exponent then some (b.mantissa * pow2 b.exponent.toNat)
  else
    let unit := pow2 (-b.exponent).toNat
    if b.mantissa % unit = 0 then some (b.mantissa / unit) else none

/-- The integer a float equals, if it is finite and whole. -/
def wholeValue? (x : Float) : Option Int :=
  if x.isFinite then
    (Binary.ofFloat x).toNat?.map fun n => if signBit x then -(n : Int) else n
  else none

/-- The float `n * 2 ^ e`, exact whenever that value is one. -/
def scale (n : Nat) (e : Int) : Float :=
  (Float.ofNat n).scaleB e

/-- The remainder of truncating division. It is always exact, takes the sign of the dividend, and
is undefined (`nan`) when the divisor is zero or an operand is not finite. -/
def remainder (x y : Float) : Float :=
  if !x.isFinite || y.isNaN || y == 0 then 0.0 / 0.0
  else if !y.isFinite then x
  else
    let a := Binary.ofFloat x
    let b := Binary.ofFloat y
    let e := min a.exponent b.exponent
    let dividend := a.mantissa * pow2 (a.exponent - e).toNat
    let divisor := b.mantissa * pow2 (b.exponent - e).toNat
    let r := scale (dividend % divisor) e
    if signBit x then -r else r

/-- The float nearest to `significand * 10 ^ exponent`, or `none` when that is beyond every finite
float. Powers far outside the range are settled by the number of digits alone. -/
def ofDecimal? (significand : Nat) (exponent : Int) : Option Float :=
  let size := (Nat.toDigits 10 significand).length
  if significand = 0 then some 0.0
  else if (size : Int) + exponent < -330 then some 0.0
  else if 310 < (size : Int) + exponent then none
  else
    let x :=
      if exponent < 0 then Float.ofScientific significand true (-exponent).toNat
      else Float.ofScientific significand false exponent.toNat
    if x.isFinite then some x else none

end HclOverlay.Decimal
