import HclOverlay.CommandLine
import HclOverlay.FileTree.Difference

/-!
# The program

The part of the disk that an invocation can see is loaded as a file tree, the invocation runs on
it, and the differences go back to the disk.
-/

namespace HclOverlay.Disk

/-- The text of a location. -/
def textOf (l : Location) : String := "/" ++ "/".intercalate l

/-- Adds what stands on the disk at a location and below it. -/
partial def loadBelow (t : FileTree) (l : Location) : IO FileTree := do
  let place := (← IO.currentDir) / textOf l
  if ← place.isDir then
    let mut t := if l.isEmpty then t else t.put l .directory
    for entry in ← place.readDir do
      t ← loadBelow t (l ++ [entry.fileName])
    return t
  else if ← place.pathExists then return t.put l (.file (← IO.FS.readBinFile place))
  else return t

/-- Adds what the parts of a path lead through, and what stands at its end and below. -/
def load (t : FileTree) (p : Path) : IO FileTree := do
  let mut t := t
  let mut l : Location := []
  for part in p.parts do
    match t.step l part with
    | .error _ => return t
    | .ok next =>
      l := next
      let place := (← IO.currentDir) / textOf l
      if (t.lookup? l).isNone && (← place.isDir) then t := t.put l .directory
  loadBelow t l

/-- Writes what changed between two trees to the disk. -/
def store (before after : FileTree) : IO Unit := do
  for (l, n) in before.gone after do
    match n with
    | .file _ => IO.FS.removeFile (textOf l)
    | .directory => IO.FS.removeDir (textOf l)
  for (l, n) in before.fresh after do
    match n with
    | .file bytes => IO.FS.writeBinFile (textOf l) bytes
    | .directory => IO.FS.createDirAll (textOf l)

/-- Loads what a build can see: the root, the overlays, the output and the modules. -/
def loadFor (here : Path) (args : Build.Arguments) : IO FileTree := do
  let root := Path.absoluteFrom here args.root
  let mut t ← load .empty root
  t ← load t (root.join args.overlay.text)
  t ← load t (root.join args.output.text)
  match ((Build.moduleCalls root).run ⟨t, [], []⟩).1 with
  | .error _ => return t
  | .ok calls =>
    for call in calls do
      t ← load t call.directory
    return t

/-- The environment variables that options look at. -/
def environment : IO CommandLine.Environment := do
  let mut env : CommandLine.Environment := []
  for o in [CommandLine.ValueOption.overlay, .output] do
    if let some value ← IO.getEnv o.variable then env := env.insert o.variable value
  return env

/-- The line a notice takes on standard error. -/
def noticeLine (n : Notice) : String :=
  let level := match n.level with
    | .warning => " WARN "
    | .error => "ERROR "
  let field : String × FieldValue → String
    | (name, .text value) => " " ++ name ++ "=" ++ value
    | (name, .count value) => " " ++ name ++ "=" ++ toString value
  level ++ n.message ++ String.join (n.fields.map field)

/-- Says on standard error how an invocation ended. -/
def explain : CommandLine.Ending → IO Unit
  | .done => return
  | .failed f => IO.eprintln ("Error: " ++ f.message)
  | .misused m => do
    IO.eprintln ("error: " ++ m.message)
    CommandLine.usage.forM IO.eprintln

end HclOverlay.Disk

open HclOverlay in
/-- Runs the program. -/
def main (arguments : List String) : IO UInt32 := do
  let here : Path := ⟨toString (← IO.currentDir)⟩
  let env ← Disk.environment
  let before ← match CommandLine.Request.read env arguments with
    | .ok (.build args) => Disk.loadFor here args
    | _ => pure FileTree.empty
  let (ending, session) := CommandLine.invoke here env arguments ⟨before, [], []⟩
  session.printed.forM IO.println
  session.notices.forM fun n => IO.eprintln (Disk.noticeLine n)
  Disk.store before session.tree
  Disk.explain ending
  return ending.exitCode.toUInt32
