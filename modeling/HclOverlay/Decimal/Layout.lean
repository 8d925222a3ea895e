import HclOverlay.Decimal.Shortest

/-!
# How decimals are written

A format that writes floats decides when to use positional notation and how the exponent looks;
`Layout` holds those decisions, and `Layout.write` carries them out on the shortest digits.
-/

namespace HclOverlay.Decimal

/-- The choices of a format that writes floats. -/
structure Layout where
  /-- the least power of ten of the first digit that is written positionally -/
  leastPositional : Int
  /-- the first power of ten too large for positional notation -/
  firstScientific : Int
  /-- whether a whole number keeps the ending `.0` -/
  wholePoint : Bool
  /-- whether a positive exponent has a `+` -/
  plusSign : Bool

/-- The characters of a natural number in decimal. -/
def digitsOf (n : Nat) : List Char :=
  Nat.toDigits 10 n

/-- The value of decimal digits. -/
def digitsValue (ds : List Char) : Nat :=
  ds.foldl (fun n c => 10 * n + (c.toNat - '0'.toNat)) 0

/-- The characters of an integer in decimal. -/
def integerDigits (n : Int) : List Char :=
  if n < 0 then '-' :: digitsOf n.natAbs else digitsOf n.natAbs

/-- Writes the positive decimal `d` by the rules of the layout. -/
def Layout.digits (layout : Layout) (d : Digits) : List Char :=
  let ds := digitsOf d.significand
  let power : Int := d.exponent + ds.length - 1
  if layout.leastPositional ≤ power && power < layout.firstScientific then
    if 0 ≤ d.exponent then
      ds ++ List.replicate d.exponent.toNat '0' ++ (if layout.wholePoint then ['.', '0'] else [])
    else if 0 ≤ power then
      ds.take (power.toNat + 1) ++ '.' :: ds.drop (power.toNat + 1)
    else
      '0' :: '.' :: List.replicate (-power - 1).toNat '0' ++ ds
  else
    let head := match ds with
      | first :: second :: rest => first :: '.' :: second :: rest
      | _ => ds
    let sign := if 0 ≤ power && layout.plusSign then ['+'] else []
    head ++ 'e' :: sign ++ integerDigits power

/-- Writes a finite float: sign, then the shortest digits that read back. -/
def Layout.write (layout : Layout) (x : Float) : List Char :=
  let sign := if signBit x then ['-'] else []
  if x == 0 then sign ++ '0' :: (if layout.wholePoint then ['.', '0'] else [])
  else sign ++ layout.digits (shortest x)

end HclOverlay.Decimal
