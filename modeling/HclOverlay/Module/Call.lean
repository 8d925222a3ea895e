import HclOverlay.Overlay.Patch

/-!
# Module calls

A root configuration calls modules by blocks `module "name" { source = "…" }`. A call is resolved to
the directory that holds the files of the module.

* `ModuleCall` — a call with its directory.
* `subdirectory?` — the `//subdir` selector of a remote source.
* `resolvePath` — the directory of a call: local sources lie beside the root, all others where they
  were installed under the root.
* `readCalls` — the calls of one file of the root configuration.
-/

namespace HclOverlay

open Hcl

/-- A call of a module. -/
structure ModuleCall where
  /-- the label of the block -/
  name : String
  /-- the source as it is written -/
  source : String
  /-- the directory that holds the files of the module -/
  directory : Path

namespace ModuleCall

/-- Where modules are installed, seen from the root. -/
def cacheDirectory : String := ".terraform/modules"

/-- The text before the first question mark. -/
def withoutQuery (cs : List Char) : List Char := cs.takeWhile (· != '?')

/-- Removes slashes at both ends. -/
def trimSlashes (cs : List Char) : List Char :=
  ((cs.dropWhile (· == '/')).reverse.dropWhile (· == '/')).reverse

/-- What follows the first `//` that does not come after a colon; `last` is the character before.
A pair of slashes after a colon is skipped as a whole. -/
def afterSelector? (last : Option Char) : List Char → Option (List Char)
  | [] => none
  | '/' :: '/' :: rest =>
    if last == some ':' then afterSelector? (some '/') rest else some rest
  | c :: rest => afterSelector? (some c) rest

/-- The directory inside a remote source that `//` selects, if it selects one. -/
def subdirectory? (source : String) : Option String :=
  match afterSelector? none (withoutQuery source.toList) with
  | none => none
  | some rest =>
    let dir := trimSlashes rest
    if dir.isEmpty then none else some (String.ofList dir)

/-- The directory a source stands for when it is called by `name` from `root`. Absolute sources
stand for themselves, sources that start with a point are relative to the root, and all others were
installed under the name of the call. -/
def resolvePath (root : Path) (name source : String) : Path :=
  let given : Path := ⟨source⟩
  if given.isAbsolute then given
  else if source.toList.head? == some '.' then (root.join source).clean
  else
    let installed := (root.join cacheDirectory).join name
    match subdirectory? source with
    | some dir => installed.join dir
    | none => installed

/-! ## Reading calls -/

/-- The kind of block that is a module call. -/
def moduleKind : String := "module"

/-- The source of a call, if it is a string that is not empty. -/
def literalSource? (b : Block) : Option String :=
  match b.attribute? Overlay.sourceName with
  | none => none
  | some a =>
    match a.value.value with
    | .string s => if s.isEmpty then none else some s
    | _ => none

/-- The call a block makes, or a notice why it makes none. -/
def ofBlock (path root : Path) (b : Block) : Except Notice ModuleCall :=
  match b.labelTexts with
  | [name] =>
    match literalSource? b with
    | some source => .ok ⟨name, source, resolvePath root name source⟩
    | none => .error (.moduleSource path name)
  | labels => .error (.moduleLabels path labels.length)

/-- Adds the call of a block to the calls before it, or leaves a notice. -/
def addBlock (path root : Path) (calls : List ModuleCall) (b : Block) :
    Noted (List ModuleCall) := do
  match ofBlock path root b with
  | .ok call => return calls ++ [call]
  | .error n =>
    note n
    return calls

/-- The calls of one file of the configuration at `root`, in order. -/
def readCalls (source : String) (path root : Path) : Noted (List ModuleCall) := do
  let d ← Overlay.readDocument source path
  (d.blocks.filter (·.kind == moduleKind)).foldlM (addBlock path root) []

end ModuleCall

end HclOverlay
