import HclOverlay.Decimal.Layout
import HclOverlay.Json.Basic

/-!
# Printing JSON

Items and members stand on lines of their own, indented two spaces deeper than the bracket that
opens them; empty arrays and objects stay on one line. Strings escape quotes, backslashes and
control characters only.

* `Json.chars` — the characters of a value on a line indented by `indent`.
* `Json.print` — a value that starts at the margin.
-/

namespace HclOverlay.Json

/-- How much deeper items and members are indented. -/
def indentStep : List Char := [' ', ' ']

/-- Floats are written positionally from `1e-5` up to but excluding `1e16`, whole ones with `.0`;
beyond, the exponent has a sign: `1e-7`, `1.5e+29`. -/
def layout : Decimal.Layout := ⟨-5, 16, true, true⟩

/-- The characters of a number. -/
def Numeral.chars : Numeral → List Char
  | .int n => Decimal.integerDigits n
  | .float x => layout.write x

/-- A lower-case hexadecimal digit. -/
def hexDigit (n : Nat) : Char := Nat.digitChar n

/-- The characters that stand for one character of a string. -/
def charChars (c : Char) : List Char :=
  match c with
  | '"' => ['\\', '"']
  | '\\' => ['\\', '\\']
  | '\x08' => ['\\', 'b']
  | '\x0c' => ['\\', 'f']
  | '\n' => ['\\', 'n']
  | '\r' => ['\\', 'r']
  | '\t' => ['\\', 't']
  | c =>
    if c.toNat < 0x20 then
      ['\\', 'u', '0', '0', hexDigit (c.toNat / 16), hexDigit (c.toNat % 16)]
    else [c]

/-- A string in quotes. -/
def stringChars (s : String) : List Char :=
  '"' :: (s.toList.flatMap charChars ++ ['"'])

mutual

/-- The characters of a value on a line indented by `indent`. -/
def chars (indent : List Char) : Json → List Char
  | .null => ['n', 'u', 'l', 'l']
  | .bool true => ['t', 'r', 'u', 'e']
  | .bool false => ['f', 'a', 'l', 's', 'e']
  | .number n => n.chars
  | .string s => stringChars s
  | .array [] => ['[', ']']
  | .array (first :: rest) =>
    let inner := indent ++ indentStep
    '[' :: '\n' :: (inner ++ chars inner first ++ itemsChars inner rest ++ '\n' :: indent ++ [']'])
  | .object [] => ['{', '}']
  | .object (first :: rest) =>
    let inner := indent ++ indentStep
    '{' :: '\n' ::
      (inner ++ memberChars inner first ++ membersChars inner rest ++ '\n' :: indent ++ ['}'])
termination_by structural v => v

/-- Further items of an array, each after a comma and a line end. -/
def itemsChars (inner : List Char) : List Json → List Char
  | [] => []
  | item :: rest => ',' :: '\n' :: (inner ++ chars inner item ++ itemsChars inner rest)
termination_by structural items => items

/-- Further members of an object, each after a comma and a line end. -/
def membersChars (inner : List Char) : List (String × Json) → List Char
  | [] => []
  | m :: rest => ',' :: '\n' :: (inner ++ memberChars inner m ++ membersChars inner rest)
termination_by structural members => members

/-- One member: name, colon, value. -/
def memberChars (inner : List Char) : String × Json → List Char
  | (name, value) => stringChars name ++ ':' :: ' ' :: chars inner value
termination_by structural m => m

end

/-- The characters of a value that starts at the margin. -/
def print (v : Json) : List Char := v.chars []

end HclOverlay.Json
