import HclOverlay.FileTree.Edit
import HclOverlay.Notice
import HclOverlay.Text.Lines

/-!
# Sessions

A build reads and changes a file tree, prints and leaves notices. All of this is a state that
it passes on, so a build is a function, and what it did before a failure can still be seen.

* `Session` — the state.
* `Work` — computations on it that may fail.
* `say`, `warn`, `onFile`, `readText`, `lift` — the steps that builds are made of.
* `attempt` — a computation whose failure is a result.
-/

namespace HclOverlay.Build

/-- What a build reads, changes and leaves behind. -/
structure Session where
  tree : FileTree
  /-- the notices so far -/
  notices : List Notice
  /-- the texts printed so far, each followed by a line feed -/
  printed : List String

/-- The lines of what was printed; a text that holds line ends makes several. -/
def Session.lines (s : Session) : List String :=
  (Text.lines (s.printed.flatMap fun text => text.toList ++ ['\n'])).map String.ofList

/-- Computations on a session that may fail; a failure keeps the session as it is. -/
abbrev Work := ExceptT Failure (StateM Session)

namespace Work

/-- Runs a computation: how it ended, and the session. -/
def run {α : Type} (w : Work α) (s : Session) : Except Failure α × Session :=
  StateT.run (ExceptT.run w) s

/-- The file tree as it is now. -/
def tree : Work FileTree := return (← get).tree

/-- Prints a text and a line feed. -/
def say (text : String) : Work Unit := modify fun s => { s with printed := s.printed ++ [text] }

/-- Leaves a notice. -/
def warn (n : Notice) : Work Unit := modify fun s => { s with notices := s.notices ++ [n] }

/-- Leaves notices in order. -/
def warnAll (ns : List Notice) : Work Unit := modify fun s => { s with notices := s.notices ++ ns }

/-- Does the work of a computation that knows nothing of files. -/
def lift {α : Type} (m : Noted α) : Work α := do
  let (result, notices) := m.run
  warnAll notices
  match result with
  | .ok a => return a
  | .error f => throw f

/-- What a look at the file tree gave. -/
def look {α : Type} (wrap : FileError → Failure) (f : FileTree → Except FileError α) : Work α := do
  match f (← tree) with
  | .ok a => return a
  | .error e => throw (wrap e)

/-- Changes the file tree; a failure is blamed on the given file. -/
def onFile {α : Type} (p : Path) (e : FileTree.Edit α) : Work α := do
  let s ← get
  let (result, t) := e.run s.tree
  set { s with tree := t }
  match result with
  | .ok a => return a
  | .error e => throw (.file p e)

/-- The text of a file. -/
def readText (p : Path) : Work String := look (.file p) (·.readText p)

/-- Does some work and gives its failure as a result. -/
def attempt {α : Type} (w : Work α) : Work (Except Failure α) := fun s =>
  let (result, s) := w.run s
  (.ok result, s)

end Work

end HclOverlay.Build
