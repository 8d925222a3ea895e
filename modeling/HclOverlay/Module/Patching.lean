import HclOverlay.Module.File

/-!
# Patching a module

The files of a module are patched one patch after the other. A patch changes the first file, in load
order, that declares its resource; if none does, patching stops and the edits made so far remain.

* `ModuleFiles` — the files by path, in load order.
* `locate` — the file and the block of a resource, with a notice if other files declare it too.
* `Patching` — computations on files that may fail, with notices; a failure keeps the files as they
  are at that moment.
* `applyPatch`, `applyPatches` — one patch, and a list of them.
-/

namespace HclOverlay

/-- The files of a module by path, in load order. -/
abbrev ModuleFiles := Table Path ModuleFile

/-- The files that declare a resource, with their ranks, in load order. -/
def declarations (key : ResourceKey) : Nat → ModuleFiles → List (Nat × Path × BlockHandle)
  | _, [] => []
  | rank, (path, file) :: rest =>
    match file.index.resources.find? key with
    | some r => (rank, path, r.block) :: declarations key (rank + 1) rest
    | none => declarations key (rank + 1) rest

/-- The file that declares a resource, by rank, and the block that does. The first file wins; a
notice names the others. -/
def locate (files : ModuleFiles) (key : ResourceKey) : Option (Nat × BlockHandle) × List Notice :=
  match declarations key 0 files with
  | [] => (none, [])
  | (rank, path, handle) :: others =>
    (some (rank, handle),
      if others.isEmpty then [] else [.shadowedResource key path (others.map (·.2.1))])

/-! ## The state of patching -/

/-- The files being patched, and the notices so far. -/
structure Workspace where
  files : ModuleFiles
  notices : List Notice

/-- Computations on the files of a module. -/
abbrev Patching := ExceptT Failure (StateM Workspace)

/-- Runs a computation on files: how it ended, the files, and the notices in order. -/
def Patching.run {α : Type} (m : Patching α) (files : ModuleFiles) :
    Except Failure α × ModuleFiles × List Notice :=
  let (result, w) := StateT.run (ExceptT.run m) ⟨files, []⟩
  (result, w.files, w.notices)

/-- Changes the file with the given rank. -/
def setFile (files : ModuleFiles) (rank : Nat) (file : ModuleFile) : ModuleFiles :=
  List.modify files rank fun entry => (entry.1, file)

/-- Writes one attribute into the file with the given rank. -/
def writeAttribute (rank : Nat) (handle : BlockHandle) (key : ResourceKey)
    (attr : String × PatchAttribute) : Patching Unit := do
  let w ← get
  match w.files[rank]? with
  | none => throw (.resourceNotFound key)
  | some (_, file) =>
    let file ← file.write handle key attr.1 attr.2
    set { w with files := setFile w.files rank file }

/-- Applies one patch: its attributes in order, to the block that declares its resource. -/
def applyPatch (p : Patch) : Patching Unit := do
  let w ← get
  let (found, notices) := locate w.files p.key
  set { w with notices := w.notices ++ notices }
  match found with
  | none => throw (.resourceNotFound p.key)
  | some (rank, handle) => p.attributes.forM (writeAttribute rank handle p.key)

/-- Applies patches in order. -/
def applyPatches (patches : List Patch) : Patching Unit :=
  patches.forM applyPatch

end HclOverlay
