/-!
# Positions in a source text

Nodes remember where they stand as byte offsets into the UTF-8 form of their source; messages show
lines and columns, which count characters.

* `Span` — a range of byte offsets.
* `byteSize`, `takeBytes` — sizes and prefixes in bytes, on lists of characters.
* `Position.ofOffset` — the line and column of an offset.
-/

namespace HclOverlay.Source

/-- A range of byte offsets. -/
structure Span where
  /-- the offset of the first byte -/
  start : Nat
  /-- the offset just after the last byte -/
  stop : Nat
  deriving DecidableEq

/-- The size of a text in bytes. -/
def byteSize (cs : List Char) : Nat := cs.foldl (fun n c => n + c.utf8Size) 0

/-- The characters that lie within the first `n` bytes; a character cut by the limit is left out. -/
def takeBytes : Nat → List Char → List Char
  | _, [] => []
  | n, c :: rest => if c.utf8Size ≤ n then c :: takeBytes (n - c.utf8Size) rest else []

/-- The characters from offset `n` on, if a character starts there. -/
def dropBytes? : Nat → List Char → Option (List Char)
  | 0, cs => some cs
  | _ + 1, [] => none
  | n + 1, c :: rest => if c.utf8Size ≤ n + 1 then dropBytes? (n + 1 - c.utf8Size) rest else none

/-- The text of a span. -/
def Span.text (span : Span) (cs : List Char) : List Char :=
  ((dropBytes? span.start cs).getD []) |> takeBytes (span.stop - span.start)

/-- A line and a column, both counted from 1. -/
structure Position where
  line : Nat
  /-- counted in characters -/
  column : Nat
  deriving DecidableEq

/-- The part of a text after its last line feed. -/
def lastLine (cs : List Char) : List Char := (cs.reverse.takeWhile (· != '\n')).reverse

/-- The position of a byte offset. An offset inside a character is that of the character, and one
past the end is that of the end. -/
def Position.ofOffset (source : String) (offset : Nat) : Position :=
  let before := takeBytes offset source.toList
  ⟨before.count '\n' + 1, (lastLine before).length + 1⟩

instance : ToString Position := ⟨fun p => toString p.line ++ ":" ++ toString p.column⟩

end HclOverlay.Source
