import HclOverlay.Json.Printer
import HclOverlay.Json.Reader

/-!
# The module manifest

A JSON file that records in which directory every installed module lies. Its object holds a list
`Modules`; members that mean nothing here are kept and written back after the known ones.

* `Manifest`, `Manifest.Entry` — the file and its entries.
* `ofJson?`, `toJson` — a manifest and its JSON.
* `read?`, `print` — a manifest and its text.
-/

namespace HclOverlay

/-- One installed module. -/
structure Manifest.Entry where
  /-- the address of the module; empty for the root -/
  key : String
  /-- the source it was installed from -/
  source : String
  /-- the directory it is loaded from -/
  dir : String
  /-- its other members, in order -/
  others : List (String × Json)

/-- The record of installed modules. -/
structure Manifest where
  entries : List Manifest.Entry
  /-- the other members of the file, in order -/
  others : List (String × Json)

namespace Manifest

/-! ## Members of objects -/

/-- The values of a name among members. -/
def valuesOf (name : String) (members : List (String × Json)) : List Json :=
  (members.filter (·.1 == name)).map Prod.snd

/-- A text that must be given exactly once. -/
def requiredText? (name : String) (members : List (String × Json)) : Option String :=
  match valuesOf name members with
  | [.string s] => some s
  | _ => none

/-- A text that may be missing, and then is empty. -/
def optionalText? (name : String) (members : List (String × Json)) : Option String :=
  match valuesOf name members with
  | [] => some ""
  | [.string s] => some s
  | _ => none

/-- The members with other names than the given ones, repeated names merged. -/
def othersThan (names : List String) (members : List (String × Json)) : List (String × Json) :=
  Table.ofEntries (Json.mergedMembers (members.filter fun m => !names.contains m.1))

/-! ## Conversion -/

/-- The names of the members of an entry that have a meaning. -/
def entryNames : List String := ["Key", "Source", "Dir"]

/-- The entry a JSON value describes. -/
def Entry.ofJson? : Json → Option Entry
  | .object members => do
    let key ← requiredText? "Key" members
    let source ← optionalText? "Source" members
    let dir ← requiredText? "Dir" members
    return ⟨key, source, dir, othersThan entryNames members⟩
  | _ => none

/-- The JSON of an entry. -/
def Entry.toJson (e : Entry) : Json :=
  .object (("Key", .string e.key) :: ("Source", .string e.source) :: ("Dir", .string e.dir) ::
    e.others)

/-- The name of the member that holds the entries. -/
def entriesName : String := "Modules"

/-- The entries among the members of a manifest; without the member there are none. -/
def entriesOf? (members : List (String × Json)) : Option (List Entry) :=
  match valuesOf entriesName members with
  | [] => some []
  | [.array items] => items.mapM Entry.ofJson?
  | _ => none

/-- The manifest a JSON value describes. -/
def ofJson? : Json → Option Manifest
  | .object members => do
    let entries ← entriesOf? members
    return ⟨entries, othersThan [entriesName] members⟩
  | _ => none

/-- The JSON of a manifest. -/
def toJson (m : Manifest) : Json :=
  .object ((entriesName, .array (m.entries.map Entry.toJson)) :: m.others)

/-! ## Text -/

/-- The manifest a text holds. -/
def read? (text : String) : Option Manifest := (Json.read? text.toList).bind ofJson?

/-- The text of a manifest, with a line end behind it. -/
def print (m : Manifest) : String := String.ofList (m.toJson.print ++ ['\n'])

end Manifest

end HclOverlay
