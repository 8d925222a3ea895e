import HclOverlay.Table

/-!
# JSON values

The data of a JSON text. Members of an object stay in the order of the text, and a text may repeat a
name; `Json.merged` gives every repeated name one member.

* `Json` — the values; `Json.Numeral` — the numbers, which remember whether they are integers.
* `Json.merged` — of members with one name, the last value in the place of the first.
-/

namespace HclOverlay

/-- A JSON number: an integer of 64 bits, or a float, which may be whole as well. -/
inductive Json.Numeral where
  | int (value : Int)
  | float (value : Float)

/-- A JSON value. -/
inductive Json where
  | null
  | bool (value : Bool)
  | number (value : Json.Numeral)
  | string (value : String)
  | array (items : List Json)
  /-- members in order; a name may occur again -/
  | object (members : List (String × Json))

namespace Json

instance : Inhabited Json := ⟨.null⟩

mutual

/-- The value with repeated names of every object merged: the last value in the first place. -/
def merged : Json → Json
  | .array items => .array (mergedItems items)
  | .object members => .object (Table.ofEntries (mergedMembers members))
  | .null => .null
  | .bool b => .bool b
  | .number n => .number n
  | .string s => .string s
termination_by structural v => v

/-- The items of an array, each merged. -/
def mergedItems : List Json → List Json
  | [] => []
  | item :: rest => merged item :: mergedItems rest
termination_by structural items => items

/-- The members of an object, each merged. -/
def mergedMembers : List (String × Json) → List (String × Json)
  | [] => []
  | m :: rest => mergedMember m :: mergedMembers rest
termination_by structural members => members

/-- One member, its value merged. -/
def mergedMember : String × Json → String × Json
  | (name, value) => (name, merged value)
termination_by structural m => m

end

end Json

end HclOverlay
