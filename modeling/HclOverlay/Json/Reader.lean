import HclOverlay.Decimal.Layout
import HclOverlay.Json.Basic
import HclOverlay.Text.Characters

/-!
# Reading JSON

A strict reader: one value between blanks, nothing after it, no trailing commas, no lone surrogates
and no control characters in strings. Every reader takes a value off the front of a text and returns
the rest.

* `readString?` — a string after its opening quote.
* `readNumeral?` — a number. Digits alone that fit 64 bits are an integer; everything else, `-0`
  included, is a float.
* `readItems?`, `readMembers?` — the inside of arrays and objects, for any reader of values.
* `readValue?` — a value of limited depth.
* `Json.read?` — the value that a whole text is.
-/

namespace HclOverlay.Json

open Decimal (digitsValue)
open Text (hexDigit?)

/-! ## Blanks -/

/-- The characters that may stand between tokens. -/
def isBlank (c : Char) : Bool := c == ' ' || c == '\t' || c == '\n' || c == '\r'

/-- The text after its leading blanks. -/
def skipBlanks (cs : List Char) : List Char := cs.dropWhile isBlank

/-! ## Strings -/

/-- The value of four hexadecimal digits. -/
def hex4? (a b c d : Char) : Option Nat := do
  return (((← hexDigit? a) * 16 + (← hexDigit? b)) * 16 + (← hexDigit? c)) * 16 + (← hexDigit? d)

/-- Whether a unit starts a surrogate pair. -/
def isHighSurrogate (n : Nat) : Bool := 0xd800 ≤ n && n < 0xdc00

/-- Whether a unit ends a surrogate pair. -/
def isLowSurrogate (n : Nat) : Bool := 0xdc00 ≤ n && n < 0xe000

/-- The character a surrogate pair stands for. -/
def pairChar (high low : Nat) : Char :=
  Char.ofNat (0x10000 + (high - 0xd800) * 0x400 + (low - 0xdc00))

/-- The character that a backslash and one more character stand for. -/
def escape? : Char → Option Char
  | '"' => some '"'
  | '\\' => some '\\'
  | '/' => some '/'
  | 'b' => some '\x08'
  | 'f' => some '\x0c'
  | 'n' => some '\n'
  | 'r' => some '\r'
  | 't' => some '\t'
  | _ => none

/-- Reads the characters of a string up to and including its closing quote. -/
def readString? : List Char → Option (List Char × List Char)
  | [] => none
  | '"' :: rest => some ([], rest)
  | '\\' :: 'u' :: a :: b :: c :: d :: '\\' :: 'u' :: e :: f :: g :: h :: rest =>
    match hex4? a b c d with
    | none => none
    | some n =>
      if isLowSurrogate n then none
      else if isHighSurrogate n then
        match hex4? e f g h with
        | some m =>
          if isLowSurrogate m then
            (readString? rest).map fun (more, rest) => (pairChar n m :: more, rest)
          else none
        | none => none
      else
        (readString? ('\\' :: 'u' :: e :: f :: g :: h :: rest)).map fun (more, rest) =>
          (Char.ofNat n :: more, rest)
  | '\\' :: 'u' :: a :: b :: c :: d :: rest =>
    match hex4? a b c d with
    | none => none
    | some n =>
      if isLowSurrogate n || isHighSurrogate n then none
      else (readString? rest).map fun (more, rest) => (Char.ofNat n :: more, rest)
  | '\\' :: c :: rest =>
    match escape? c with
    | none => none
    | some e => (readString? rest).map fun (more, rest) => (e :: more, rest)
  | c :: rest =>
    if c.toNat < 0x20 then none
    else (readString? rest).map fun (more, rest) => (c :: more, rest)

/-! ## Numbers -/

/-- Continues a significand by as many digits as 64 bits hold; tells how many are left over. -/
def significand : Nat → List Char → Nat × Nat
  | n, [] => (n, 0)
  | n, c :: rest =>
    let m := 10 * n + (c.toNat - '0'.toNat)
    if m < Decimal.unsignedLimit then significand m rest else (n, rest.length + 1)

/-- Multiplies by a power of ten in floating point, in steps that the range of floats allows; an
infinite result is none. -/
def scaled (x : Float) (power : Int) : Option Float :=
  if power.natAbs ≤ 308 then
    if 0 ≤ power then
      let y := x * Float.ofScientific 1 false power.natAbs
      if y.isInf then none else some y
    else some (x / Float.ofScientific 1 false power.natAbs)
  else if x == 0 then some x
  else if 0 ≤ power then none
  else scaled (x / 1e308) (power + 308)
termination_by power.natAbs
decreasing_by omega

/-- The float of a number with the given sign, significand and power of ten. -/
def floatOf? (negative : Bool) (n : Nat) (power : Int) : Option Numeral :=
  (scaled (Float.ofNat n) power).map fun x => .float (if negative then -x else x)

/-- The integer with the given sign and magnitude; `-0` and what does not fit 64 bits with a sign
are floats. -/
def integerOf (negative : Bool) (n : Nat) : Numeral :=
  if negative then
    if n = 0 || Decimal.signedLimit < n then .float (-(Float.ofNat n)) else .int (-n)
  else .int n

/-- Reads a sign and digits of a power of ten; `none` if there is none, and fails if it is cut
short. -/
def readPower? : List Char → Option (Option Int × List Char)
  | c :: cs =>
    if c == 'e' || c == 'E' then
      let (negative, cs) := match cs with
        | '+' :: r => (false, r)
        | '-' :: r => (true, r)
        | r => (false, r)
      match cs.span Char.isDigit with
      | ([], _) => none
      | (ds, rest) =>
        some (some (if negative then -(digitsValue ds : Int) else digitsValue ds), rest)
    else some (none, c :: cs)
  | [] => some (none, [])

/-- Reads the digits after a point; `none` if there is none, and fails if no digit follows. -/
def readFraction? : List Char → Option (Option (List Char) × List Char)
  | '.' :: cs =>
    match cs.span Char.isDigit with
    | ([], _) => none
    | (ds, rest) => some (some ds, rest)
  | cs => some (none, cs)

/-- Reads the digits before a point: a zero stands alone. -/
def readWhole? (cs : List Char) : Option (List Char × List Char) :=
  match cs.span Char.isDigit with
  | ([], _) => none
  | ('0' :: _ :: _, _) => none
  | (ds, rest) => some (ds, rest)

/-- Reads a number whose sign is known. -/
def readMagnitude? (negative : Bool) (cs : List Char) : Option (Numeral × List Char) := do
  let (whole, cs) ← readWhole? cs
  let (n, left) := significand 0 whole
  let (fraction, cs) ← readFraction? cs
  let (power, cs) ← readPower? cs
  match fraction, power with
  | none, none =>
    if left = 0 then return (integerOf negative n, cs)
    else return (← floatOf? negative n left, cs)
  | _, _ =>
    let digits := fraction.getD []
    let (n, ignored) := significand n digits
    let taken : Int := digits.length - ignored
    return (← floatOf? negative n (left - taken + power.getD 0), cs)

/-- Reads a number. -/
def readNumeral? : List Char → Option (Numeral × List Char)
  | '-' :: cs => readMagnitude? true cs
  | cs => readMagnitude? false cs

/-! ## Arrays and objects -/

/-- Reads the rest of an array after its first bracket or a comma, item by item. -/
def readItems? (value : List Char → Option (Json × List Char)) :
    Nat → List Char → Option (List Json × List Char)
  | 0, _ => none
  | rounds + 1, cs =>
    match value (skipBlanks cs) with
    | none => none
    | some (item, cs) =>
      match skipBlanks cs with
      | ']' :: rest => some ([item], rest)
      | ',' :: rest => (readItems? value rounds rest).map fun (more, rest) => (item :: more, rest)
      | _ => none

/-- Reads a name, a colon and a value. -/
def readMember? (value : List Char → Option (Json × List Char)) :
    List Char → Option ((String × Json) × List Char)
  | '"' :: cs =>
    match readString? cs with
    | none => none
    | some (name, cs) =>
      match skipBlanks cs with
      | ':' :: cs =>
        (value (skipBlanks cs)).map fun (v, rest) => ((String.ofList name, v), rest)
      | _ => none
  | _ => none

/-- Reads the rest of an object after its first brace or a comma, member by member. -/
def readMembers? (value : List Char → Option (Json × List Char)) :
    Nat → List Char → Option (List (String × Json) × List Char)
  | 0, _ => none
  | rounds + 1, cs =>
    match readMember? value (skipBlanks cs) with
    | none => none
    | some (m, cs) =>
      match skipBlanks cs with
      | '}' :: rest => some ([m], rest)
      | ',' :: rest => (readMembers? value rounds rest).map fun (more, rest) => (m :: more, rest)
      | _ => none

/-! ## Values -/

/-- Reads a value that is neither an array nor an object. -/
def readScalar? : List Char → Option (Json × List Char)
  | 'n' :: 'u' :: 'l' :: 'l' :: rest => some (.null, rest)
  | 't' :: 'r' :: 'u' :: 'e' :: rest => some (.bool true, rest)
  | 'f' :: 'a' :: 'l' :: 's' :: 'e' :: rest => some (.bool false, rest)
  | '"' :: cs => (readString? cs).map fun (s, rest) => (.string (String.ofList s), rest)
  | cs => (readNumeral? cs).map fun (n, rest) => (.number n, rest)

/-- Reads a value in which arrays and objects nest at most `depth` deep. -/
def readValue? : Nat → List Char → Option (Json × List Char)
  | 0, cs => readScalar? cs
  | depth + 1, cs =>
    match cs with
    | '[' :: cs =>
      match skipBlanks cs with
      | ']' :: rest => some (.array [], rest)
      | cs =>
        (readItems? (readValue? depth) cs.length cs).map fun (items, rest) => (.array items, rest)
    | '{' :: cs =>
      match skipBlanks cs with
      | '}' :: rest => some (.object [], rest)
      | cs =>
        (readMembers? (readValue? depth) cs.length cs).map fun (members, rest) =>
          (.object members, rest)
    | cs => readScalar? cs

/-- How deep arrays and objects may nest. -/
def depthLimit : Nat := 127

/-- The value that a whole text is. -/
def read? (cs : List Char) : Option Json :=
  match readValue? depthLimit (skipBlanks cs) with
  | some (v, rest) => if (skipBlanks rest).isEmpty then some v else none
  | none => none

end HclOverlay.Json
