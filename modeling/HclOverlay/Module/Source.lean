import HclOverlay.Module.Call

/-!
# Matching module sources

One module may be named with or without the host of its registry. Sources are compared after the
longest known registry prefix is taken off.

* `Registries.normalize` — a source without its longest registry prefix.
* `Registries.same` — whether two sources name one module.
* `Registries.callsOf` — the calls that a source filter selects; `callNamed?` is the first call
  with exactly a given source.
-/

namespace HclOverlay

/-- The prefixes under which registries serve modules. -/
abbrev Registries := List String

namespace Registries

/-- The registries known by default. -/
def default : Registries := ["registry.opentofu.org/", "registry.terraform.io/"]

/-- The rest of a text after a prefix. -/
def rest? : List Char → List Char → Option (List Char)
  | [], cs => some cs
  | _ :: _, [] => none
  | e :: es, c :: cs => if e = c then rest? es cs else none

/-- The shortest of the texts that remain when one of the prefixes is taken off `source`, starting
from `best`. -/
def shortestRest (source : List Char) (best : List Char) : Registries → List Char
  | [] => best
  | p :: more =>
    match rest? p.toList source with
    | some r => shortestRest source (if r.length < best.length then r else best) more
    | none => shortestRest source best more

/-- A source without the longest registry prefix it starts with. -/
def normalize (registries : Registries) (source : String) : String :=
  String.ofList (shortestRest source.toList source.toList registries)

/-- Whether two sources name one module. -/
def same (registries : Registries) (a b : String) : Bool :=
  a == b || registries.normalize a == registries.normalize b

/-- The calls whose source matches a filter, in order. -/
def callsOf (registries : Registries) (calls : List ModuleCall) (filter : String) :
    List ModuleCall :=
  calls.filter fun call => registries.same call.source filter

end Registries

/-- The first call with exactly the given source. -/
def callNamed? (calls : List ModuleCall) (source : String) : Option ModuleCall :=
  calls.find? (·.source == source)

end HclOverlay
