import HclOverlay.Hcl.Quoted
import HclOverlay.Text.Characters
import HclOverlay.Value.Basic

/-!
# Rendering values

A value is written as an expression. Scalars and lists of scalars take one line; any other list and
every object takes a line for each entry, indented two spaces deeper than the line it starts on.

* `Value.chars` — the characters of a value that starts on a line indented by `indent`.
* `Value.render` — the same on strings.
-/

namespace HclOverlay.Value

open Hcl

/-- How much deeper the entries of a list or object are indented. -/
def indentStep : List Char := [' ', ' ']

/-- An object key: bare when it is an identifier, quoted otherwise. -/
def keyChars (key : String) : List Char :=
  if Text.isIdentifier key then key.toList else Quoted.quote key.toList

mutual

/-- The characters of a value that starts on a line indented by `indent`. -/
def chars (indent : List Char) : Value → List Char
  | .null => ['n', 'u', 'l', 'l']
  | .bool true => ['t', 'r', 'u', 'e']
  | .bool false => ['f', 'a', 'l', 's', 'e']
  | .number n => n.toChars
  | .string s => Quoted.quote s.toList
  | .unevaluated source => source.toList
  | .list [] => ['[', ']']
  | .list (first :: rest) =>
    if (first :: rest).all isScalar then
      '[' :: (chars indent first ++ inlineItems indent rest ++ [']'])
    else
      '[' :: '\n' :: (lineItems (indent ++ indentStep) (first :: rest) ++ indent ++ [']'])
  | .object [] => ['{', '}']
  | .object (first :: rest) =>
    '{' :: '\n' :: (lineFields (indent ++ indentStep) (first :: rest) ++ indent ++ ['}'])
termination_by structural v => v

/-- Further items of a list that takes one line, each after a comma. -/
def inlineItems (indent : List Char) : List Value → List Char
  | [] => []
  | item :: rest => ',' :: ' ' :: (chars indent item ++ inlineItems indent rest)
termination_by structural items => items

/-- Items of a list on a line each. -/
def lineItems (inner : List Char) : List Value → List Char
  | [] => []
  | item :: rest => inner ++ chars inner item ++ [',', '\n'] ++ lineItems inner rest
termination_by structural items => items

/-- Fields of an object on a line each. -/
def lineFields (inner : List Char) : List (String × Value) → List Char
  | [] => []
  | field :: rest => inner ++ fieldChars inner field ++ ['\n'] ++ lineFields inner rest
termination_by structural fields => fields

/-- One field: key, equals sign, value. -/
def fieldChars (inner : List Char) : String × Value → List Char
  | (key, value) => keyChars key ++ [' ', '=', ' '] ++ chars inner value
termination_by structural field => field

end

/-- The text of a value that starts on a line indented by `indent`. -/
def render (v : Value) (indent : String) : String :=
  String.ofList (v.chars indent.toList)

/-! ## Equations -/

@[simp] theorem toList_render (v : Value) (indent : String) :
    (v.render indent).toList = v.chars indent.toList := by
  simp [render]

/-- Scalars do not depend on the indentation. -/
theorem chars_of_isScalar {v : Value} (h : v.isScalar = true) (a b : List Char) :
    v.chars a = v.chars b := by
  cases v with
  | list _ => simp [isScalar] at h
  | object _ => simp [isScalar] at h
  | bool value => cases value <;> rfl
  | _ => rfl

end HclOverlay.Value
