import HclOverlay.FileTree.Basic

/-!
# Changing a file tree

Each change may fail, and what was changed before a failure stays.

* `Edit` — computations that change a tree.
* `writeFile`, `copyFile` — one file.
* `createDirectory`, `createDirectories` — a directory, and a directory with those above it.
* `removeDirectory` — a directory with everything below it. A directory that its path calls `.` or
  `..` is only emptied.
-/

namespace HclOverlay.FileTree

/-- Computations that change a tree and may fail; a failure keeps the tree as it is. -/
abbrev Edit := ExceptT FileError (StateM FileTree)

/-- Runs an edit: how it ended, and the tree. -/
def Edit.run {α : Type} (e : Edit α) (t : FileTree) : Except FileError α × FileTree :=
  StateT.run (ExceptT.run e) t

/-! ## Files -/

/-- Writes a file into a directory that exists, over a file that may be there. -/
def writeFile (p : Path) (bytes : ByteArray) : Edit Unit := do
  let t ← get
  let l ← t.resolve p
  match t.lookup? l with
  | some .directory => throw .isDirectory
  | _ => set (t.put l (.file bytes))

/-- Copies a file. -/
def copyFile (source target : Path) : Edit Unit := do
  let bytes ← (← get).readBytes source
  writeFile target bytes

/-! ## Directories -/

/-- Creates a directory in one that exists. -/
def createDirectory (p : Path) : Edit Unit := do
  let t ← get
  let l ← t.resolveNew p
  match t.lookup? l with
  | some _ => throw .exists
  | none => set (t.put l .directory)

/-- Creates a directory unless it is there. -/
def createIfNew (p : Path) : Edit Unit :=
  tryCatch (createDirectory p) fun e => do
    match e with
    | .exists => if (← get).isDirectory p then return else throw e
    | _ => throw e

/-- Creates the first of some directories of which each lies in the next; those it needs are created
before it. -/
def createChain : List Path → Edit Unit
  | [] => return
  | p :: above =>
    tryCatch (createIfNew p) fun e => do
      match e with
      | .missing =>
        createChain above
        createIfNew p
      | _ => throw e

/-- Creates a directory and those above it, as far as they are not there. -/
def createDirectories (p : Path) : Edit Unit := createChain p.ancestors

/-- Removes a directory with everything below it. -/
def removeDirectory (p : Path) : Edit Unit := do
  let t ← get
  match ← t.stat p with
  | .file _ => throw .notDirectory
  | .directory =>
    let l ← t.resolve p
    match (p.parts.filter (· != "")).getLast? with
    | some "." =>
      set (t.eraseBelow l)
      throw .invalid
    | some ".." => set (t.eraseBelow l)
    | _ => set (t.eraseAt l)

end HclOverlay.FileTree
