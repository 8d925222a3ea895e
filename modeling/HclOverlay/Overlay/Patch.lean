import HclOverlay.Hcl.Evaluation
import HclOverlay.Hcl.Reader.Body
import HclOverlay.Notice
import HclOverlay.Value.Merge

/-!
# Overlays

An overlay is a file of `patch` blocks. Each names a resource by its two labels, selects modules by
their source, and sets attributes:

    patch "aws_instance" "web" {
      source = "acme/web/aws"
      tags   = merge({ Owner = "team" })
    }

* `Patch`, `PatchAttribute` — what a patch block says.
* `strategyOf` — `merge(x)`, `append(x)` and `replace(x)` select how `x` combines with what is
  there; any other expression replaces it as a whole.
* `patchOf` — the patch of one block.
* `readOverlay` — the patches of an overlay, in order. Everything else at top level is ignored.
-/

namespace HclOverlay

open Hcl Source

/-- One attribute set by a patch. -/
structure PatchAttribute where
  strategy : Strategy
  /-- the value, or the expression itself if it cannot be evaluated -/
  value : Value

/-- What a patch block says. -/
structure Patch where
  /-- the type of the resource it changes -/
  type : String
  /-- the name of that resource -/
  name : String
  /-- the module source it is meant for -/
  source : Option String
  attributes : Table String PatchAttribute

/-- The resource a patch changes. -/
def Patch.key (p : Patch) : ResourceKey := .of p.type p.name

namespace Overlay

/-- The kind of block that is a patch. -/
def patchKind : String := "patch"

/-- The attribute of a patch that selects modules. -/
def sourceName : String := "source"

/-- What a failure to read a file says; the reader does not tell where it gave up. -/
def unreadable : String := "the text is not a sequence of attributes and blocks"

/-- Reads the text of a file as a document. -/
def readDocument (source : String) (path : Path) : Except Failure Document :=
  match Document.read? source with
  | some d => .ok d
  | none => .error (.parse ⟨path, none, .unreadable unreadable⟩)

/-- How an attribute of a patch combines, and the expression it combines with. A call selects a
strategy if it has a plain name and exactly one argument. -/
def strategyOf : Expr → Strategy × Expr
  | .call [function] [arg] ending closing =>
    match Strategy.ofFunction? function.item with
    | some s => (s, arg.item)
    | none => (.replace, .call [function] [arg] ending closing)
  | e => (.replace, e)

/-- The attribute a patch sets by an expression. -/
def patchAttribute (e : Expr) : PatchAttribute :=
  let (strategy, inner) := strategyOf e
  ⟨strategy, inner.value⟩

/-- The two labels of a patch block, neither of them empty. -/
def targetOf? : List String → Option (String × String)
  | [type, name] => if type.isEmpty || name.isEmpty then none else some (type, name)
  | _ => none

/-- The source filter an attribute holds. -/
def sourceOf (source : String) (path : Path) (a : Attribute) : Except Failure String :=
  match a.value.value with
  | .string s => .ok s
  | other =>
    .error (.parse ⟨path, a.span.map fun span => .ofOffset source span.start,
      .sourceFilter ("expected a string, found " ++ other.typeName)⟩)

/-- Adds what one structure of the body says to a patch. -/
def addStructure (source : String) (path : Path) (p : Patch) : Structure → Noted Patch
  | .block b => do
    note (.nestedBlock path p.key b.kind)
    return p
  | .attr a =>
    if a.name = sourceName then do
      let filter ← sourceOf source path a
      return { p with source := some filter }
    else do
      if p.attributes.contains a.name then note (.attributeTwice path p.key a.name)
      return { p with attributes := p.attributes.insert a.name (patchAttribute a.value) }

/-- The patch of one block. -/
def patchOf (source : String) (path : Path) (b : Block) : Noted Patch := do
  match targetOf? b.labelTexts with
  | none =>
    throw (.parse ⟨path, some (.ofOffset source b.span.start), .patchLabels b.labels.length⟩)
  | some (type, name) => b.body.foldlM (addStructure source path) ⟨type, name, none, []⟩

/-- The patches of an overlay file, in order; `path` only labels messages. -/
def read (source : String) (path : Path) : Noted (List Patch) := do
  let d ← readDocument source path
  (d.blocks.filter (·.kind == patchKind)).mapM (patchOf source path)

end Overlay

end HclOverlay
