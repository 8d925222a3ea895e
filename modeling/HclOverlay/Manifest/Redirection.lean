import HclOverlay.Manifest.Basic
import HclOverlay.Path.Basic

/-!
# Redirecting modules

A module that was patched is loaded from its patched copy; one whose copy is gone is loaded from
where it was before.

* `Redirection` — which modules to redirect and which to give back.
* `Redirection.target?` — what the directory of an entry becomes.
* `Redirection.entries` — all entries; `Redirection.changes` counts those whose directory changes.
-/

namespace HclOverlay.Manifest

/-- Which modules are loaded from patched copies, and which no longer. -/
structure Redirection where
  /-- the directory of the patched copies -/
  output : Path
  /-- the keys of the modules that have a patched copy -/
  patched : List String
  /-- keys of modules that had one, with the directory each had before -/
  restore : Table String String

namespace Redirection

/-- The directory of the patched copy of a module. -/
def copyOf (r : Redirection) (key : String) : String := (r.output.join key).text

/-- The directory an entry should have, if anything is to be said about it: its copy if it was
patched; if it points to a copy that is gone, the directory it had before. The root module is left
alone. -/
def target? (r : Redirection) (e : Entry) : Option String :=
  if e.key.isEmpty then none
  else if r.patched.contains e.key then some (r.copyOf e.key)
  else if e.dir == r.copyOf e.key then r.restore.find? e.key
  else none

/-- An entry with the directory it should have. -/
def entry (r : Redirection) (e : Entry) : Entry := { e with dir := (r.target? e).getD e.dir }

/-- Whether the directory of an entry changes. -/
def changes (r : Redirection) (e : Entry) : Bool := (r.entry e).dir != e.dir

/-- A manifest with the directories its entries should have. -/
def manifest (r : Redirection) (m : Manifest) : Manifest :=
  { m with entries := m.entries.map r.entry }

/-- How many entries change. -/
def count (r : Redirection) (m : Manifest) : Nat := m.entries.countP r.changes

/-! ## Equations -/

/-- The root module keeps its directory. -/
theorem entry_of_key_empty {r : Redirection} {e : Entry} (h : e.key = "") : r.entry e = e := by
  cases e
  simp_all [entry, target?]

@[simp] theorem key_entry (r : Redirection) (e : Entry) : (r.entry e).key = e.key := rfl

end Redirection

end HclOverlay.Manifest
