import HclOverlay.Hcl.Body
import HclOverlay.Notice
import HclOverlay.Table

/-!
# The blocks of a file by name

An index finds the blocks of a file. It keeps the rank of a block among the top-level blocks, which
stays valid because patching never adds or removes a block.

* `BlockHandle`, `ResourceHandle` — where a block is.
* `Index` — resources and data sources by `type.name`, inputs and outputs by name, and the locals.
* `Index.ofDocument` — the index of a file, with notices about blocks that are declared twice. Of
  two resources with one key the first counts, of two `locals` the last.
-/

namespace HclOverlay

open Hcl Source

/-- Where a top-level block is. -/
structure BlockHandle where
  /-- its rank among the top-level blocks -/
  rank : Nat
  /-- where it was read from -/
  span : Span
  deriving DecidableEq

/-- A resource or data source. -/
structure ResourceHandle where
  type : String
  name : String
  block : BlockHandle
  deriving DecidableEq

/-- The key of a resource. -/
def ResourceHandle.key (r : ResourceHandle) : ResourceKey := .of r.type r.name

/-- The blocks of a file by name. -/
structure Index where
  resources : Table ResourceKey ResourceHandle
  data : Table ResourceKey ResourceHandle
  /-- the `variable` blocks, which are the inputs of a module -/
  inputs : Table String BlockHandle
  outputs : Table String BlockHandle
  /-- the last `locals` block, under the name `locals` -/
  locals : Table String BlockHandle

namespace Index

/-- The index of a file without blocks. -/
def empty : Index := ⟨[], [], [], [], []⟩

/-- The name under which `locals` are kept. -/
def localsName : String := "locals"

/-- Adds a resource to a table unless its key is taken. -/
def addResource (kind : String) (table : Table ResourceKey ResourceHandle) (labels : List String)
    (handle : BlockHandle) : Table ResourceKey ResourceHandle × List Notice :=
  match labels with
  | [type, name] =>
    let r : ResourceHandle := ⟨type, name, handle⟩
    if table.contains r.key then (table, [.duplicateBlock kind r.key])
    else (table.insertNew r.key r, [])
  | _ => (table, [])

/-- Adds a block with one label to a table unless its name is taken. -/
def addNamed (table : Table String BlockHandle) (labels : List String) (handle : BlockHandle) :
    Table String BlockHandle :=
  match labels with
  | [name] => table.insertNew name handle
  | _ => table

/-- Adds the block with the given rank. -/
def addBlock (index : Index) (rank : Nat) (b : Block) : Index × List Notice :=
  let handle : BlockHandle := ⟨rank, b.span⟩
  let labels := b.labelTexts
  if b.kind = "resource" then
    let (table, notices) := addResource "resource" index.resources labels handle
    ({ index with resources := table }, notices)
  else if b.kind = "data" then
    let (table, notices) := addResource "data" index.data labels handle
    ({ index with data := table }, notices)
  else if b.kind = "variable" then
    ({ index with inputs := addNamed index.inputs labels handle }, [])
  else if b.kind = "output" then
    ({ index with outputs := addNamed index.outputs labels handle }, [])
  else if b.kind = "locals" then
    ({ index with locals := index.locals.insert localsName handle },
      if index.locals.contains localsName then [.severalLocals] else [])
  else (index, [])

/-- Adds blocks in order, the first of them with the given rank. -/
def addBlocks (index : Index) (rank : Nat) : List Block → Index × List Notice
  | [] => (index, [])
  | b :: rest =>
    let (index, notices) := index.addBlock rank b
    let (index, more) := index.addBlocks (rank + 1) rest
    (index, notices ++ more)

/-- The index of a file, and notices about what it leaves out. -/
def ofDocument (d : Document) : Index × List Notice := empty.addBlocks 0 d.blocks

end Index

end HclOverlay
