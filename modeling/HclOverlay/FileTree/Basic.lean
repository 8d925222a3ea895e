import HclOverlay.Failure
import HclOverlay.Table

/-!
# File trees

What stands on a disk, as a value. A location is the list of names that leads to it from the root,
so the parts of a tree are told apart by list prefixes; a path is resolved to a location by walking
it, and so `..` and files in the place of directories have their meaning.

* `Location`, `FileTree.Node`, `FileTree` — locations, and what stands at them.
* `lookup?`, `put`, `eraseBelow`, `eraseAt` — a tree by locations.
* `resolve` — the location of a path. Every part of the path but the last must be a directory; names
  and paths have only so many bytes, and none is NUL.
* `stat`, `isDirectory`, `isFile`, `there`, `readBytes`, `readText`, `names`, `walk` — looking.
-/

namespace HclOverlay

/-- A place in a file tree: the names on the way from the root. -/
abbrev Location := List String

/-- What stands at a location. -/
inductive FileTree.Node where
  | file (bytes : ByteArray)
  | directory

/-- Files are equal when their bytes are. -/
instance : BEq FileTree.Node where
  beq
    | .file a, .file b => a.data == b.data
    | .directory, .directory => true
    | _, _ => false

/-- A file tree: what stands at the locations below the root. -/
structure FileTree where
  nodes : Table Location FileTree.Node

namespace FileTree

/-- The tree that is only a root. -/
def empty : FileTree := ⟨[]⟩

instance : Inhabited FileTree := ⟨empty⟩

/-! ## Locations -/

/-- What stands at a location; the root is always a directory. -/
def lookup? (t : FileTree) (l : Location) : Option Node :=
  match l with
  | [] => some .directory
  | l => t.nodes.find? l

/-- Puts something at a location. -/
def put (t : FileTree) (l : Location) (n : Node) : FileTree := ⟨t.nodes.insert l n⟩

/-- Whether a location is another one or lies below it. -/
def within (base l : Location) : Bool := base.isPrefixOf l

/-- Removes everything below a location, but not what stands at it. -/
def eraseBelow (t : FileTree) (l : Location) : FileTree :=
  ⟨t.nodes.filter fun e => !within l e.1 || e.1 == l⟩

/-- Removes what stands at a location and everything below it. -/
def eraseAt (t : FileTree) (l : Location) : FileTree :=
  ⟨t.nodes.filter fun e => !within l e.1⟩

/-! ## Paths -/

/-- The bytes that a name may have. -/
def nameLimit : Nat := 255

/-- The bytes that a path may have. -/
def pathLimit : Nat := 4095

/-- Goes on from a directory by one part of a path. -/
def step (t : FileTree) (l : Location) (part : String) : Except FileError Location :=
  match t.lookup? l with
  | some .directory =>
    if part = "" || part = "." then .ok l
    else if part = ".." then .ok l.dropLast
    else if nameLimit < part.utf8ByteSize then .error .tooLong
    else .ok (l ++ [part])
  | some (.file _) => .error .notDirectory
  | none => .error .missing

/-- The location that the parts of a path lead to; without any there is none. -/
def follow (t : FileTree) (parts : List String) : Except FileError Location :=
  if parts.isEmpty then .error .missing else parts.foldlM t.step []

/-- The parts of a path that can be walked at all. -/
def walkableParts (p : Path) : Except FileError (List String) :=
  if p.text.toList.contains '\x00' then .error .holdsNul
  else if pathLimit < p.text.utf8ByteSize then .error .tooLong
  else .ok p.parts

/-- The location a path stands for; a relative path starts at the root of the tree. Nothing need
stand at the location itself, unless a slash follows. -/
def resolve (t : FileTree) (p : Path) : Except FileError Location := do
  t.follow (← walkableParts p)

/-- The location of a directory to be made, where slashes at the end of the path say nothing. -/
def resolveNew (t : FileTree) (p : Path) : Except FileError Location := do
  let parts ← walkableParts p
  t.follow (parts.reverse.dropWhile (· == "")).reverse

/-- What stands at a path. -/
def stat (t : FileTree) (p : Path) : Except FileError Node := do
  let l ← t.resolve p
  match t.lookup? l with
  | some n => return n
  | none => throw .missing

/-- Whether a directory stands at a path. -/
def isDirectory (t : FileTree) (p : Path) : Bool :=
  match t.stat p with
  | .ok .directory => true
  | _ => false

/-- Whether a file stands at a path. -/
def isFile (t : FileTree) (p : Path) : Bool :=
  match t.stat p with
  | .ok (.file _) => true
  | _ => false

/-- Whether anything stands at a path. -/
def there (t : FileTree) (p : Path) : Bool :=
  match t.stat p with
  | .ok _ => true
  | .error _ => false

/-! ## Files -/

/-- The bytes of the file at a path. -/
def readBytes (t : FileTree) (p : Path) : Except FileError ByteArray := do
  match ← t.stat p with
  | .file bytes => return bytes
  | .directory => throw .isDirectory

/-- The text of the file at a path. -/
def readText (t : FileTree) (p : Path) : Except FileError String := do
  let bytes ← t.readBytes p
  match String.fromUTF8? bytes with
  | some s => return s
  | none => throw .notText

/-! ## Directories -/

/-- The name of a location directly below another one. -/
def childOf? (l : Location) (e : Location × Node) : Option String :=
  match l.isPrefixOf? e.1 with
  | some [name] => some name
  | _ => none

/-- The names in the directory at a path. -/
def names (t : FileTree) (p : Path) : Except FileError (List String) := do
  match ← t.stat p with
  | .file _ => throw .notDirectory
  | .directory => return t.nodes.filterMap (childOf? (← t.resolve p))

/-- The names that lead from a location to a file at or below it. -/
def fileBelow? (l : Location) (e : Location × Node) : Option (List String) :=
  match e.2 with
  | .file _ => l.isPrefixOf? e.1
  | .directory => none

/-- The files at or below a path, in the order of paths. A file is its own walk. -/
def walk (t : FileTree) (p : Path) : Except FileError (List Path) := do
  match ← t.stat p with
  | .file _ => return [p]
  | .directory =>
    let rows := t.nodes.filterMap (fileBelow? (← t.resolve p))
    return Path.sort (rows.map fun row => row.foldl Path.join p)

/-! ## Equations -/

@[simp] theorem lookup?_root (t : FileTree) : t.lookup? [] = some .directory := rfl

theorem lookup?_put_self (t : FileTree) {l : Location} (n : Node) (h : l ≠ []) :
    (t.put l n).lookup? l = some n := by
  cases l with
  | nil => exact absurd rfl h
  | cons a r => simp [lookup?, put]

/-- What is put at one location does not show at another. -/
theorem lookup?_put_of_ne (t : FileTree) {l other : Location} (n : Node) (h : other ≠ l) :
    (t.put l n).lookup? other = t.lookup? other := by
  cases other with
  | nil => rfl
  | cons a r => simpa [lookup?, put] using Table.find?_insert_of_ne t.nodes n h

end FileTree

end HclOverlay
