import HclOverlay.Build.Instance
import HclOverlay.Manifest.Redirection

/-!
# Builds

A build finds the module calls of a root configuration and the overlays, gives every patch to the
modules it is meant for, writes a patched copy of each of these, and points the manifest at the
copies.

* `Arguments`, `Report` — what a build is told, and what it tells.
* `updateManifest` — redirects the entries of the manifest.
* `run` — a build. Patches that find no resource fail their module only; every other failure stops
  the build.
-/

namespace HclOverlay.Build

open Work

/-- What a build is told. -/
structure Arguments where
  /-- the directory of the root configuration -/
  root : Path
  /-- the overlays, seen from the root -/
  overlay : Path
  /-- where patched copies go, seen from the root -/
  output : Path
  /-- whether the manifest stays as it is -/
  skipManifest : Bool

/-- What a build tells. -/
structure Report where
  /-- the modules that were patched, with the number of their files -/
  patched : List (String × Nat)
  /-- the modules that were not, and why -/
  failed : List (String × Failure)
  /-- source filters that select no module -/
  unresolved : List String
  /-- how many patches have no source filter -/
  skipped : Nat
  /-- how many entries of the manifest changed -/
  redirected : Nat

/-- The report of a build that has done nothing. -/
def Report.empty : Report := ⟨[], [], [], 0, 0⟩

/-! ## The manifest -/

/-- The name of the manifest in the directory of installed modules. -/
def manifestName : String := "modules.json"

/-- Where the manifest of a root configuration is. -/
def manifestPath (root : Path) : Path := (root.join ModuleCall.cacheDirectory).join manifestName

/-- What a failure to read the manifest says. -/
def malformed : String := "the text is not a JSON object with a list of modules"

/-- Redirects the entries of the manifest and tells how many changed; without a change the file is
not written. -/
def updateManifest (root : Path) (r : Manifest.Redirection) : Work Nat := do
  let path := manifestPath root
  if !(← tree).there path then throw (.manifestMissing path)
  else
    let text ← readText path
    match Manifest.read? text with
    | none => throw (.manifestMalformed path malformed)
    | some m =>
      let count := r.count m
      if count ≠ 0 then
        onFile path (FileTree.writeFile path (r.manifest m).print.toByteArray)
      return count

/-! ## Patches and plans -/

/-- Reads overlays and joins their patches. -/
def patchesIn : List Path → Work (List Patch)
  | [] => return []
  | p :: rest => do
    let source ← readText p
    let patches ← lift (Overlay.read source p)
    say ("  - " ++ p.text ++ " (" ++ toString patches.length ++ " patch(es))")
    return patches ++ (← patchesIn rest)

/-- Reads overlays and joins their patches, after a word on their number. -/
def loadPatches (files : List Path) : Work (List Patch) := do
  say ("Found " ++ toString files.length ++ " overlay file(s)")
  patchesIn files

/-- How the plans of a build ended. -/
structure Outcome where
  patched : List (String × Nat)
  failed : List (String × Failure)
  /-- modules whose earlier copy was removed, with the directory each is loaded from without it -/
  restore : List (String × String)

/-- A directory as the manifest writes it: seen from the root if it lies below. -/
def manifestDirectory (root dir : Path) : String := ((dir.stripBase? root).getD dir).text

/-- Carries out one plan. -/
def carryOut (root outputBase : Path) (o : Outcome) (plan : Plan) : Work Outcome := do
  let name := plan.call.name
  say ("Patching module " ++ name ++ " (source: " ++ plan.call.source ++ ", " ++
    toString plan.patches.length ++ " patch(es))")
  match ← attempt (patchModule outputBase plan) with
  | .ok written => return { o with patched := o.patched ++ [(name, written)] }
  | .error (.resourceNotFound key) =>
    let failure := .resourceNotFound key
    warn (.moduleNotPatched name failure)
    let stale ← clearStale outputBase name
    let restore := if stale then [(name, manifestDirectory root plan.call.directory)] else []
    return { o with failed := o.failed ++ [(name, failure)], restore := o.restore ++ restore }
  | .error f => throw f

/-! ## Builds -/

/-- Says what was found in the root configuration. -/
def announce (root : Path) (output : Path) : Work (List ModuleCall) := do
  say ("Root module: " ++ root.text)
  say ("Output directory: " ++ output.text)
  let calls ← moduleCalls root
  say ("Found " ++ toString calls.length ++ " module(s) in root module")
  calls.forM fun call => say ("  - " ++ call.name ++ " (source: " ++ call.source ++ ")")
  return calls

/-- Applies overlays to the modules of a root configuration. -/
def applyOverlays (root : Path) (args : Arguments) (calls : List ModuleCall) (files : List Path) :
    Work Report := do
  let patches ← loadPatches files
  let schedule := Schedule.ofPatches Registries.default calls patches
  warnAll (schedule.notices patches)
  let outputBase := root.join args.output.text
  let plans := schedule.plans.map Prod.snd
  let o ← plans.foldlM (carryOut root outputBase) ⟨[], [], []⟩
  let redirected ←
    if args.skipManifest || (o.patched.isEmpty && o.restore.isEmpty) then pure 0
    else updateManifest root ⟨args.output, o.patched.map Prod.fst, o.restore⟩
  return ⟨o.patched, o.failed, schedule.unresolved.keys, schedule.skipped, redirected⟩

/-- Runs a build from the directory `here`. -/
def run (here : Path) (args : Arguments) : Work Report := do
  let root := Path.absoluteFrom here args.root
  if !(← tree).isDirectory root then throw (.rootMissing root)
  else
    let calls ← announce root args.output
    let files ← overlayFiles (root.join args.overlay.text)
    if files.isEmpty then
      say ("No overlay files found in " ++ args.overlay.text)
      return .empty
    else applyOverlays root args calls files

end HclOverlay.Build
