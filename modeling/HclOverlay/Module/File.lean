import HclOverlay.Module.Index
import HclOverlay.Overlay.Patch
import HclOverlay.Text.Characters
import HclOverlay.Value.Render

/-!
# Module files

A file of a module: its text, its tree, the index of its blocks, and whether an attribute has been
written. A file that was not written is given back byte for byte.

* `ModuleFile.read` — a file from its text.
* `ModuleFile.text` — its text now. A file whose lines all end in carriage return and line feed
  keeps those ends.
* `ModuleFile.indentAt?` — the indentation of the line on which a node starts.
* `setAttribute` — a body with one attribute written: in place, or after the last attribute.
* `ModuleFile.write` — one attribute of a patch, combined with what is there and written.
-/

namespace HclOverlay

open Hcl Source

/-- A file of a module. -/
structure ModuleFile where
  /-- the path that labels messages -/
  path : Path
  /-- the text it was read from -/
  source : String
  document : Document
  index : Index
  /-- whether an attribute has been written -/
  modified : Bool

namespace ModuleFile

/-- Reads a file. -/
def read (source : String) (path : Path) : Noted ModuleFile := do
  let document ← Overlay.readDocument source path
  let (index, notices) := Index.ofDocument document
  notices.forM note
  return ⟨path, source, document, index, false⟩

/-! ## Text -/

/-- Whether there are line feeds, all of them after a carriage return. -/
def allCarriageReturns (cs : List Char) : Bool :=
  cs.contains '\n' && go '\n' cs
where
  /-- every line feed comes after a carriage return, `last` being the character before -/
  go (last : Char) : List Char → Bool
    | [] => true
    | c :: rest => (c != '\n' || last == '\r') && go c rest

/-- Removes the carriage return before every line feed. -/
def dropCarriageReturns : List Char → List Char
  | [] => []
  | '\r' :: '\n' :: rest => '\n' :: dropCarriageReturns rest
  | c :: rest => c :: dropCarriageReturns rest

/-- Puts a carriage return before every line feed. -/
def addCarriageReturns (cs : List Char) : List Char :=
  cs.flatMap fun c => if c == '\n' then ['\r', '\n'] else [c]

/-- The text of the file now. -/
def text (f : ModuleFile) : String :=
  if f.modified then
    let printed := f.document.print
    String.ofList
      (if allCarriageReturns f.source.toList then
        addCarriageReturns (dropCarriageReturns printed)
      else printed)
  else f.source

/-! ## Blocks -/

/-- The block a handle stands for. -/
def block? (f : ModuleFile) (h : BlockHandle) : Option Block := f.document.blocks[h.rank]?

/-- The indentation of the line a node at `offset` starts on, if only blanks stand before it. -/
def indentAt? (f : ModuleFile) (offset : Nat) : Option (List Char) :=
  let before := lastLine (takeBytes offset f.source.toList)
  if before.all (fun c => c == ' ' || c == '\t') then some before else none

/-- The indentation for an attribute of a block: that of the attribute itself, else of the first
attribute or else the first nested block that starts a line, else one level more than the block. -/
def indentFor (f : ModuleFile) (b : Block) (name : String) : List Char :=
  let own := (b.attribute? name).toList.filterMap (·.span)
  let siblings := (attributesOf b.body).filterMap (·.span)
  let nested := (blocksOf b.body).map (·.span)
  match (own ++ siblings ++ nested).findSome? fun span => f.indentAt? span.start with
  | some indent => indent
  | none => ((f.indentAt? b.span.start).getD []) ++ Value.indentStep

/-- Whether a block was read from one line. -/
def onOneLine (f : ModuleFile) (b : Block) : Bool :=
  !(b.span.text f.source.toList).contains '\n'

end ModuleFile

/-! ## Writing attributes -/

/-- Writes a new value for the first attribute with the given name, which keeps its place and the
trivia around it. -/
def replaceAttribute (name : String) (value : Expr) : List Structure → List Structure
  | [] => []
  | .attr a :: rest =>
    if a.name == name then
      .attr ⟨a.before, name, [' '], [' '], value, a.after, none⟩ :: rest
    else .attr a :: replaceAttribute name value rest
  | .block b :: rest => .block b :: replaceAttribute name value rest

/-- Inserts an attribute after the last one, or at the front if there is none. -/
def insertAttribute (new : Attribute) : List Structure → List Structure
  | [] => [.attr new]
  | first :: rest =>
    if (attributesOf rest).isEmpty then
      match first with
      | .attr a => .attr a :: .attr new :: rest
      | .block b => .attr new :: .block b :: rest
    else first :: insertAttribute new rest

/-- Puts the attributes of a body that was on one line on lines of their own. -/
def reflow (indent : Trivia) : List Structure → List Structure :=
  List.map fun
    | .attr a => .attr { a with before := indent, after := some [] }
    | .block b => .block b

/-- A body with an attribute written: in place if it is there, else after the last attribute. -/
def setAttribute (indent : Trivia) (oneLine : Bool) (name : String) (value : Expr)
    (body : List Structure) : List Structure :=
  if (attributesOf body).any (·.name == name) then replaceAttribute name value body
  else
    insertAttribute ⟨indent, name, [' '], [' '], value, none, none⟩
      (if oneLine then reflow indent body else body)

namespace ModuleFile

/-- The value that an attribute of a patch gives to an attribute of a block. -/
def newValue (b : Block) (name : String) (a : PatchAttribute) : Value :=
  a.strategy.combine ((b.attribute? name).map (·.value.value)) a.value

/-- Reads a rendered value back as an expression. -/
def readRendered (f : ModuleFile) (key : ResourceKey) (name : String) (rendered : List Char) :
    Except Failure Expr :=
  match Expr.read? rendered with
  | some e => .ok e
  | none =>
    .error (.parse ⟨f.path, none,
      .unreadable ("patched value for '" ++ key.text ++ "." ++ name ++ "': " ++
        Overlay.unreadable)⟩)

/-- Writes one attribute of a patch into a block. -/
def write (f : ModuleFile) (h : BlockHandle) (key : ResourceKey) (name : String)
    (a : PatchAttribute) : Except Failure ModuleFile :=
  match f.block? h with
  | none => .error (.resourceNotFound key)
  | some b => do
    let indent := f.indentFor b name
    let value ← f.readRendered key name ((newValue b name a).chars indent)
    if Text.isIdentifier name then
      let oneLine := f.onOneLine b
      let document := f.document.modifyBlock h.rank fun b =>
        { b with body := setAttribute indent oneLine name value b.body }
      return { f with document := document, modified := true }
    else throw (.attributeName name)

/-! ## Equations -/

/-- A file that was not written is given back as it was. -/
theorem text_of_not_modified {f : ModuleFile} (h : f.modified = false) : f.text = f.source := by
  simp [text, h]

end ModuleFile

end HclOverlay
