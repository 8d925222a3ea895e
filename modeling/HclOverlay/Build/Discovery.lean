import HclOverlay.Build.Session
import HclOverlay.Module.Call
import HclOverlay.Path.Kind

/-!
# Finding files

* `moduleCalls` — the module calls of a root configuration: those of the module files directly in
  its directory.
* `overlayFiles` — the overlays that a path names: one file, or all below a directory.
* `moduleContents` — the files of a module, those to patch apart from those only to copy.

All lists are in the order of paths.
-/

namespace HclOverlay.Build

open Work

/-! ## Module calls -/

/-- The module files directly in a directory. -/
def rootFiles (root : Path) : Work (List Path) := do
  let names ← look (.file root) (·.names root)
  let t ← tree
  let paths := names.map root.join
  return Path.sort (paths.filter fun p => t.isFile p && p.hasModuleExtension)

/-- The module calls in the given files of a root configuration. -/
def callsIn (root : Path) : List Path → Work (List ModuleCall)
  | [] => return []
  | p :: rest => do
    let source ← readText p
    let calls ← lift (ModuleCall.readCalls source p root)
    return calls ++ (← callsIn root rest)

/-- The module calls of a root configuration. -/
def moduleCalls (root : Path) : Work (List ModuleCall) := do
  callsIn root (← rootFiles root)

/-! ## Overlays and modules -/

/-- The files at or below a path. -/
def filesBelow (p : Path) : Work (List Path) := look (fun e => .walk p p e) (·.walk p)

/-- The overlays a path names. -/
def overlayFiles (p : Path) : Work (List Path) := do
  let t ← tree
  if !t.there p then throw (.overlayMissing p)
  else if t.isFile p then
    if p.isOverlay then return [p] else throw (.overlaySuffix p)
  else return (← filesBelow p).filter Path.isOverlay

/-- The files of a module. -/
structure Contents where
  /-- those that are patched -/
  moduleFiles : List Path
  /-- those that are copied as they are -/
  supportFiles : List Path

/-- The files of the module in a directory; overlays are no part of it. -/
def moduleContents (dir : Path) : Work Contents := do
  let files ← filesBelow dir
  return ⟨files.filter Path.isModuleFile, files.filter Path.isSupportFile⟩

/-- The files that do not lie below a path. -/
def Contents.outside (c : Contents) (base : Path) : Contents :=
  ⟨c.moduleFiles.filter (!·.startsWith base), c.supportFiles.filter (!·.startsWith base)⟩

end HclOverlay.Build
