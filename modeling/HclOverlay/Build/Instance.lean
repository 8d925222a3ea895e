import HclOverlay.Build.Discovery
import HclOverlay.Build.Plan
import HclOverlay.Module.Patching

/-!
# Patching one module

The patched copy of a module replaces the one of an earlier build as a whole, and only after every
patch has been applied: until then nothing is written.

* `loadFiles` — the module files, read.
* `patchFiles` — the same with patches applied.
* `writeCopy` — the patched files and the copied ones, below the directory of the copy.
* `patchModule` — all of it for one plan; it gives the number of files written.
* `clearStale` — removes the copy an earlier build left.
-/

namespace HclOverlay.Build

open Work

/-! ## Reading and patching -/

/-- Reads the files of a module. -/
def loadFiles (files : ModuleFiles) : List Path → Work ModuleFiles
  | [] => return files
  | p :: rest => do
    let source ← readText p
    let file ← lift (ModuleFile.read source p)
    loadFiles (Table.insert files p file) rest

/-- Applies patches to the files of a module. -/
def patchFiles (patches : List Patch) (files : ModuleFiles) : Work ModuleFiles := do
  let (result, files, notices) := (applyPatches patches).run files
  warnAll notices
  match result with
  | .ok _ => return files
  | .error f => throw f

/-! ## Writing -/

/-- Where the copy of a file of `dir` goes below `out`. -/
def copyTarget (dir out p : Path) : Work Path := do
  match p.stripBase? dir with
  | some rest => return out.join rest.text
  | none => throw (.outside p dir)

/-- Creates the directory of a file. -/
def createParent (p : Path) : Work Unit := do
  match p.parent? with
  | some dir => onFile dir (FileTree.createDirectories dir)
  | none => return

/-- Writes one patched file. -/
def writePatched (dir out : Path) (entry : Path × ModuleFile) : Work Unit := do
  let target ← copyTarget dir out entry.1
  createParent target
  onFile target (FileTree.writeFile target entry.2.text.toByteArray)

/-- Copies one file. -/
def copySupport (dir out p : Path) : Work Unit := do
  let target ← copyTarget dir out p
  createParent target
  onFile target (FileTree.copyFile p target)

/-- Writes the patched files and copies the others. -/
def writeCopy (dir out : Path) (files : ModuleFiles) (support : List Path) : Work Unit := do
  files.forM (writePatched dir out)
  support.forM (copySupport dir out)

/-! ## Modules -/

/-- Patches the module of a plan into a directory below `outputBase`. Files below `outputBase` are
no part of the module. -/
def patchModule (outputBase : Path) (plan : Plan) : Work Nat := do
  let dir := plan.call.directory
  if !(← tree).isDirectory dir then throw (.moduleMissing dir)
  else
    let contents ← moduleContents dir
    let contents := contents.outside outputBase
    let files ← patchFiles plan.patches (← loadFiles [] contents.moduleFiles)
    let out := outputBase.join plan.call.name
    if (← tree).there out then onFile out (FileTree.removeDirectory out)
    writeCopy dir out files contents.supportFiles
    return files.length + contents.supportFiles.length

/-- Removes the copy of a module that an earlier build left; tells whether there was one. -/
def clearStale (outputBase : Path) (name : String) : Work Bool := do
  let stale := outputBase.join name
  if (← tree).there stale then
    warn (.staleOutput name stale)
    onFile stale (FileTree.removeDirectory stale)
    return true
  else return false

end HclOverlay.Build
