import HclOverlay.Table
import HclOverlay.Value.Number

/-!
# Values

What an expression of a configuration evaluates to: the usual data, with objects in the order of
their keys, and `unevaluated` for an expression that needs variables or functions and is kept as
its source text.
-/

namespace HclOverlay

/-- A configuration value. -/
inductive Value where
  | null
  | bool (value : Bool)
  | number (value : Number)
  | string (value : String)
  | list (items : List Value)
  /-- the fields of an object in order; `Value.ofFields` keeps the keys distinct -/
  | object (fields : List (String × Value))
  /-- an expression that could not be evaluated, as source text -/
  | unevaluated (source : String)

namespace Value

instance : Inhabited Value := ⟨.null⟩

/-- An object from fields of which a later one replaces an earlier one of the same key. -/
def ofFields (fields : List (String × Value)) : Value :=
  .object (Table.ofEntries fields)

/-- The word for the kind of a value in diagnostics. -/
def typeName : Value → String
  | .null => "null"
  | .bool _ => "bool"
  | .number _ => "number"
  | .string _ => "string"
  | .list _ => "list"
  | .object _ => "object"
  | .unevaluated _ => "expression"

/-- Whether the value is an object. -/
def isObject : Value → Bool
  | .object _ => true
  | _ => false

/-- Whether the value is a list. -/
def isList : Value → Bool
  | .list _ => true
  | _ => false

/-- Whether the value is an expression kept as text. -/
def isUnevaluated : Value → Bool
  | .unevaluated _ => true
  | _ => false

/-- Whether the value is written on one line: everything but lists and objects. -/
def isScalar : Value → Bool
  | .list _ | .object _ => false
  | _ => true

/-- The text of a string value. -/
def asString? : Value → Option String
  | .string s => some s
  | _ => none

mutual

/-- Structural equality: numbers by value, objects without regard to the order of their keys. -/
def same : Value → Value → Bool
  | .null, .null => true
  | .bool a, .bool b => a == b
  | .number a, .number b => a == b
  | .string a, .string b => a == b
  | .list as, .list bs => sameItems as bs
  | .object as, .object bs => as.length == bs.length && sameFields as bs
  | .unevaluated a, .unevaluated b => a == b
  | _, _ => false
termination_by structural v => v

/-- Lists are equal item by item. -/
def sameItems : List Value → List Value → Bool
  | [], [] => true
  | a :: as, b :: bs => same a b && sameItems as bs
  | _, _ => false
termination_by structural vs => vs

/-- Every field on the left has an equal one on the right. -/
def sameFields : List (String × Value) → List (String × Value) → Bool
  | [], _ => true
  | a :: as, bs => sameField a bs && sameFields as bs
termination_by structural fs => fs

/-- The field has an equal one of the same key among `fields`. -/
def sameField : String × Value → List (String × Value) → Bool
  | (key, value), fields =>
    match Table.find? fields key with
    | some other => same value other
    | none => false
termination_by structural f => f

end

end Value

end HclOverlay
