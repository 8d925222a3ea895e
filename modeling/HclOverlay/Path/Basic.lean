/-!
# Paths

A path is a text whose parts are separated by slashes. Reading it as a list of components forgets
repeated slashes, `.` (except at the very start) and a trailing slash; equality and order of paths
are those of the components, while the text is what messages show.

* `Path.components` — the components of a path.
* `Path.join`, `clean`, `absoluteFrom` — making paths from paths.
* `parts` — the texts between the slashes, for walking a path.
* `fileName?`, `extension?`, `parent?`, `ancestors`, `stripBase?`, `startsWith` — taking them apart.
* `Path.same`, `Path.lt` — equality and order by components.
-/

namespace HclOverlay

/-- A file path, as written. -/
structure Path where
  /-- the text of the path -/
  text : String
  deriving Inhabited

namespace Path

instance : ToString Path := ⟨Path.text⟩

/-- One component of a path. -/
inductive Component where
  /-- the slash an absolute path starts with -/
  | root
  /-- `.` at the start of a relative path -/
  | here
  /-- `..` -/
  | up
  | name (name : String)
  deriving DecidableEq

/-! ## Components -/

/-- The pieces of a text between slashes. -/
def splitSlashes : List Char → List (List Char)
  | [] => [[]]
  | '/' :: rest => [] :: splitSlashes rest
  | c :: rest =>
    match splitSlashes rest with
    | first :: more => (c :: first) :: more
    | [] => [[c]]

/-- The component a piece is, if it is one: empty pieces and `.` are none. -/
def componentOf? (piece : List Char) : Option Component :=
  if piece.isEmpty || piece == ['.'] then none
  else if piece == ['.', '.'] then some .up
  else some (.name (String.ofList piece))

/-- The components of a text. -/
def componentsOf (cs : List Char) : List Component :=
  let pieces := (splitSlashes cs).filterMap componentOf?
  match cs with
  | '/' :: _ => .root :: pieces
  | _ => if (splitSlashes cs).head? == some ['.'] then .here :: pieces else pieces

/-- The components of a path. -/
def components (p : Path) : List Component := componentsOf p.text.toList

/-- The texts between the slashes of a path, empty ones and `.` included; an empty path has none. -/
def parts (p : Path) : List String :=
  if p.text.isEmpty then [] else (splitSlashes p.text.toList).map String.ofList

/-- Whether a path starts at the root. -/
def isAbsolute (p : Path) : Bool := p.text.toList.head? == some '/'

/-! ## Equality and order -/

/-- Equality by components. -/
def same (p q : Path) : Bool := p.components == q.components

/-- Paths are equal as keys when their components are. -/
instance : BEq Path := ⟨same⟩

/-- The order of components: root, `.`, `..`, then names by their characters. -/
def Component.lt : Component → Component → Bool
  | .name a, .name b => a < b
  | .root, .root => false
  | .root, _ => true
  | .here, .root | .here, .here => false
  | .here, _ => true
  | .up, .name _ => true
  | .up, _ => false
  | .name _, _ => false

/-- The lexicographic order of lists of components. -/
def componentsLt : List Component → List Component → Bool
  | [], [] => false
  | [], _ :: _ => true
  | _ :: _, [] => false
  | a :: as, b :: bs => a.lt b || (a == b && componentsLt as bs)

/-- The order of paths, component by component. -/
def lt (p q : Path) : Bool := componentsLt p.components q.components

/-- Puts a path into a list in order, behind those that come before it. -/
def insertSorted (p : Path) : List Path → List Path
  | [] => [p]
  | q :: rest => if q.lt p then q :: insertSorted p rest else p :: q :: rest

/-- Sorts paths by their components. -/
def sort : List Path → List Path
  | [] => []
  | p :: rest => insertSorted p (sort rest)

/-! ## Joining -/

/-- The path of `child` seen from `base`: an absolute child stands for itself. -/
def join (base : Path) (child : String) : Path :=
  if child.toList.head? == some '/' then ⟨child⟩
  else if base.text.isEmpty || base.text.toList.getLast? == some '/' then ⟨base.text ++ child⟩
  else ⟨base.text ++ "/" ++ child⟩

/-- The text of a component. -/
def Component.text : Component → String
  | .root => "/"
  | .here => "."
  | .up => ".."
  | .name n => n

/-- The path with the given components. -/
def ofComponents (cs : List Component) : Path :=
  cs.foldl (fun p c => p.join c.text) ⟨""⟩

/-- The path without `.` components and repeated or trailing slashes. -/
def clean (p : Path) : Path :=
  ofComponents (p.components.filter (· != .here))

/-- The absolute path of `p` seen from the directory `base`: `.` and repeated slashes go, `..` and a
trailing slash stay. -/
def absoluteFrom (base p : Path) : Path :=
  let parts := p.components.filter (· != .here)
  let slashes := (p.text.toList.takeWhile (· == '/')).length
  let start :=
    if p.isAbsolute then (if slashes == 2 then ⟨"//"⟩ else ⟨""⟩) else base
  let parts := if slashes == 2 then parts.drop 1 else parts
  let normal := parts.foldl (fun q c => q.join c.text) start
  if p.text.toList.getLast? == some '/' then normal.join "" else normal

/-! ## Taking apart -/

/-- The name of the last component, if it is a name. -/
def fileName? (p : Path) : Option String :=
  match p.components.getLast? with
  | some (.name n) => some n
  | _ => none

/-- What follows the last point of a file name, unless the point starts the name. -/
def extension? (p : Path) : Option String :=
  match p.fileName? with
  | none => none
  | some n =>
    let reversed := n.toList.reverse
    match reversed.dropWhile (· != '.') with
    | [] | ['.'] => none
    | _ => some (String.ofList (reversed.takeWhile (· != '.')).reverse)

/-- Removes slashes, and `.` between slashes, from the end of a reversed path. -/
def trimEndReversed : List Char → List Char
  | '/' :: rest => if rest.isEmpty then ['/'] else trimEndReversed rest
  | '.' :: '/' :: rest => if rest.isEmpty then ['/'] else trimEndReversed rest
  | cs => cs

/-- Removes a trailing run of slashes and `.` components. -/
def trimEnd (cs : List Char) : List Char := (trimEndReversed cs.reverse).reverse

/-- Removes a leading run of slashes and `.` components. -/
def trimStart : List Char → List Char
  | '/' :: rest => trimStart rest
  | '.' :: '/' :: rest => trimStart rest
  | ['.'] => []
  | cs => cs

/-- The path without its last component. -/
def parent? (p : Path) : Option Path :=
  match p.components.getLast? with
  | none | some .root => none
  | some _ =>
    let body := (trimEnd p.text.toList).reverse
    let rest := body.dropWhile (· != '/')
    some ⟨String.ofList (trimEnd rest.reverse)⟩

/-- The first `n` of a path, its parent, the parent of that and so on, without the root. -/
def ancestorsWithin : Nat → Path → List Path
  | 0, _ => []
  | n + 1, p =>
    match p.parent? with
    | none => []
    | some up => p :: ancestorsWithin n up

/-- A path, its parent, the parent of that and so on, without the root. -/
def ancestors (p : Path) : List Path := ancestorsWithin p.components.length p

/-- Whether the components of `base` start those of `p`. -/
def startsWith (p base : Path) : Bool := base.components.isPrefixOf p.components

/-- Drops as many components as `base` has from the front of a text. -/
def dropComponents : Nat → List Char → List Char
  | 0, cs => cs
  | n + 1, cs =>
    match cs with
    | '/' :: rest => dropComponents n (trimStart rest)
    | _ => dropComponents n (trimStart (cs.dropWhile (· != '/')))

/-- The path of `p` seen from `base`, if `p` lies below it. -/
def stripBase? (p base : Path) : Option Path :=
  if p.startsWith base then
    let rest := dropComponents base.components.length p.text.toList
    some ⟨String.ofList (trimEnd rest)⟩
  else none

end Path

end HclOverlay
