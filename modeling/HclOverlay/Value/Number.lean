import HclOverlay.Decimal.Layout

/-!
# Numbers

A number is an integer of 64 bits (from `-2^63` up to but excluding `2^64`) or a float. A float that
is read or computed and equals such an integer is turned into it. Integers count as negative or not,
which decides how they combine with others; nearly always this is their sign. But a sum or a
remainder of integers that count as negative counts as negative, whatever it is, and so does a
difference below zero, which is computed in 64 signed bits and may come out positive.

* `Number.ofFloat` — the normal form of a float.
* `a == b`, `lt`, `le` — comparison, exact between integers of one sign and otherwise by the nearest
  floats.
* `add`, `sub`, `mul`, `div`, `rem`, `neg` — arithmetic. Operands of one sign stay integers; mixed
  signs, floats and every division go through floating point and are normalised again.
* `toChars` — how a number is written: integers in full, floats by their shortest digits.
* `read?` — the number a decimal text denotes.
-/

namespace HclOverlay

open Decimal

/-- A number of a configuration. -/
inductive Number where
  /-- a 64-bit integer that counts as its sign says -/
  | int (value : Int)
  /-- an integer of zero or more that counts as negative -/
  | belowZero (value : Nat)
  /-- any other finite value -/
  | float (value : Float)

namespace Number

/-- The float nearest to a number. -/
def toFloat : Number → Float
  | .int n => if n < 0 then -(Float.ofNat n.natAbs) else Float.ofNat n.natAbs
  | .belowZero n => Float.ofNat n
  | .float x => x

/-- Numbers are equal when their values are; where they do not count alike, when the floats nearest
to them are. -/
instance : BEq Number where
  beq
    | .int a, .int b => a == b
    | .belowZero a, .belowZero b => a == b
    | a, b => a.toFloat == b.toFloat

instance : Inhabited Number := ⟨.int 0⟩

/-! ## Normal form -/

/-- Whether an integer has a 64-bit representation. -/
def fits (n : Int) : Bool :=
  -signedLimit ≤ n && n < unsignedLimit

/-- The number a float denotes: an integer whenever it is whole and in range. -/
def ofFloat (x : Float) : Number :=
  match wholeValue? x with
  | some n => if fits n then .int n else .float x
  | none => .float x

/-! ## Arithmetic -/

/-- The integer that 64 bits stand for when they are read as signed. -/
def signed64 (n : Int) : Int := Int.bmod n unsignedLimit

/-- An integer and whether it counts as negative. -/
structure Counted where
  negative : Bool
  value : Int

/-- A number as an integer, unless it is a float. -/
def counted? : Number → Option Counted
  | .int n => some ⟨n < 0, n⟩
  | .belowZero n => some ⟨true, n⟩
  | .float _ => none

/-- The number of an integer that counts as negative. -/
def ofNegative (n : Int) : Number :=
  if n < 0 then .int n else .belowZero n.toNat

/-- An operation that stays exact on integers that count alike. -/
def exactOr (onIntegers : Bool → Int → Int → Number) (onFloats : Float → Float → Float)
    (a b : Number) : Number :=
  match a.counted?, b.counted? with
  | some m, some n =>
    if m.negative == n.negative then onIntegers m.negative m.value n.value
    else ofFloat (onFloats a.toFloat b.toFloat)
  | _, _ => ofFloat (onFloats a.toFloat b.toFloat)

/-- The number of an integer that counts like those it was computed from. -/
def ofLike (negative : Bool) (n : Int) : Number :=
  if negative then ofNegative n else .int n

/-- Sum; it counts as its operands do. -/
def add : Number → Number → Number := exactOr (fun s m n => ofLike s (m + n)) (· + ·)

/-- Difference. Where it falls below zero, integers that are not negative are taken as 64 signed
bits. -/
def sub : Number → Number → Number :=
  exactOr (fun s m n =>
    if !s && m < n then ofNegative (signed64 (signed64 m - signed64 n)) else .int (m - n)) (· - ·)

/-- Product. -/
def mul : Number → Number → Number := exactOr (fun _ m n => .int (m * n)) (· * ·)

/-- Remainder of truncating division, with the sign of the dividend; it counts as its operands
do. -/
def rem : Number → Number → Number := exactOr (fun s m n => ofLike s (m.tmod n)) remainder

/-- Quotient, always by way of floating point. -/
def div (a b : Number) : Number := ofFloat (a.toFloat / b.toFloat)

/-- Negation; an integer whose negative does not fit 64 signed bits becomes a float. Floats stay
floats, even where they equal an integer of 64 bits. -/
def neg : Number → Number
  | .int n => if n ≤ signedLimit then .int (-n) else .float (-(Number.int n).toFloat)
  | .belowZero n => .int n
  | .float x => .float (-x)

/-- Strict order, exact between integers that count alike. -/
def lt : Number → Number → Bool
  | .int m, .int n => m < n
  | .belowZero m, .belowZero n => m < n
  | a, b => a.toFloat < b.toFloat

/-- Order, exact between integers that count alike. -/
def le : Number → Number → Bool
  | .int m, .int n => m ≤ n
  | .belowZero m, .belowZero n => m ≤ n
  | a, b => a.toFloat ≤ b.toFloat

/-- The position in a list that a number gives, unless it is below zero or a float. -/
def position? : Number → Option Nat
  | .int n => if 0 ≤ n then some n.toNat else none
  | .belowZero n => some n
  | .float _ => none

/-! ## Text -/

/-- Floats are written positionally from `1e-5` up to but excluding `1e16`, and otherwise with a
bare exponent: `0.25`, `1e20`, `1.5e-6`. -/
def layout : Layout := ⟨-5, 16, false, false⟩

/-- The characters of a number. -/
def toChars : Number → List Char
  | .int n => integerDigits n
  | .belowZero n => digitsOf n
  | .float x => layout.write x

instance : ToString Number := ⟨fun n => String.ofList n.toChars⟩

/-- The number with the given digits before and after the point and the given power of ten. Digits
alone must fit 64 bits unsigned; anything with a fraction or a power is a float and must be
finite. -/
def ofDecimal? (whole : List Char) (fraction : Option (List Char)) (power : Option Int) :
    Option Number :=
  match fraction, power with
  | none, none =>
    let n := digitsValue whole
    if n < unsignedLimit then some (.int n) else none
  | _, _ =>
    let part := fraction.getD []
    (Decimal.ofDecimal? (digitsValue (whole ++ part)) (power.getD 0 - part.length)).map ofFloat

/-- Splits off the leading digits. -/
def spanDigits (cs : List Char) : List Char × List Char :=
  cs.span Char.isDigit

/-- Reads `e`, an optional sign and digits, if all of them are there. -/
def readPower? : List Char → Option (Int × List Char)
  | 'e' :: cs | 'E' :: cs =>
    let (negative, cs) := match cs with
      | '+' :: r => (false, r)
      | '-' :: r => (true, r)
      | r => (false, r)
    match spanDigits cs with
    | ([], _) => none
    | (ds, rest) => some ((if negative then -(digitsValue ds : Int) else digitsValue ds), rest)
  | _ => none

/-- Reads an unsigned number from the front of a text: digits, an optional fraction and an optional
power of ten. Where that is not finite, the number is the digits alone. -/
def readUnsigned? (cs : List Char) : Option (Number × List Char) :=
  match spanDigits cs with
  | ([], _) => none
  | (whole, afterWhole) =>
    let (fraction, rest) := match afterWhole with
      | '.' :: r =>
        match spanDigits r with
        | ([], _) => (none, afterWhole)
        | (ds, r) => (some ds, r)
      | r => (none, r)
    let (power, rest) := match readPower? rest with
      | some (p, r) => (some p, r)
      | none => (none, rest)
    match ofDecimal? whole fraction power with
    | some n => some (n, rest)
    | none => (ofDecimal? whole none none).map (·, afterWhole)

/-- The number a whole text denotes; integers too large for 64 bits become floats. -/
def read? (text : String) : Option Number :=
  let (negative, cs) := match text.toList with
    | '-' :: r => (true, r)
    | r => (false, r)
  let magnitude : Option Number := match spanDigits cs with
    | (ds@(_ :: _), []) =>
      if fits (digitsValue ds) then some (.int (digitsValue ds))
      else (Decimal.ofDecimal? (digitsValue ds) 0).map ofFloat
    | _ =>
      match readUnsigned? cs with
      | some (n, []) => some n
      | _ => none
  magnitude.map fun n =>
    match negative, n.neg with
    | false, _ => n
    | true, .float x => ofFloat x
    | true, m => m

/-! ## Equations -/

@[simp] theorem beq_int (a b : Int) : (Number.int a == Number.int b) = (a == b) := rfl

/-- Integers of one sign are added exactly. -/
theorem add_int {a b : Int} (h : a < 0 ↔ b < 0) : add (.int a) (.int b) = .int (a + b) := by
  by_cases ha : a < 0
  · have hb := h.1 ha
    have hs : a + b < 0 := by omega
    simp [add, exactOr, counted?, ofLike, ofNegative, ha, hb, hs]
  · have hb : ¬ b < 0 := fun hb => ha (h.2 hb)
    simp [add, exactOr, counted?, ofLike, ha, hb]

@[simp] theorem toChars_int (n : Int) : toChars (.int n) = integerDigits n := rfl

end Number

end HclOverlay
