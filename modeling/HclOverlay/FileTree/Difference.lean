import HclOverlay.FileTree.Basic

/-!
# Differences of file trees

What has to be done to a tree to make it another one: first remove what is gone, then write what is
new or different.

* `gone` — what stands in one tree and not in the other, deeper locations first.
* `fresh` — what stands in the other tree and not, or not so, in the first; directories come before
  what lies in them.
-/

namespace HclOverlay.FileTree

/-- What stands in `before` at locations where nothing, or something of another kind, stands in
`after`; deeper locations come first. -/
def gone (before after : FileTree) : List (Location × Node) :=
  let rows := before.nodes.filter fun (l, n) =>
    match n, after.lookup? l with
    | .file _, some (.file _) => false
    | .directory, some .directory => false
    | _, _ => true
  rows.mergeSort fun a b => b.1.length ≤ a.1.length

/-- What stands in `after` and not so in `before`; higher locations come first. -/
def fresh (before after : FileTree) : List (Location × Node) :=
  let rows := after.nodes.filter fun (l, n) => before.lookup? l != some n
  rows.mergeSort fun a b => a.1.length ≤ b.1.length

end HclOverlay.FileTree
