import HclOverlay.Hcl.Body
import HclOverlay.Hcl.Reader.Expr

/-!
# Reading documents

A document is read structure by structure, each on lines of its own. Offsets are found from what is
left of the text: a reader knows the size of the whole and sees the rest.

* `attributeAt` — name, equals sign and value.
* `blockAt` — the word, the labels and the body, given a reader for the structures of a body.
* `structuresWithin` — the structures of a body, among which an attribute name must not repeat.
* `Document.read?` — the document that a whole text is.
-/

namespace HclOverlay.Hcl

open Source (Span byteSize)

namespace Reader

/-- The byte offset reached, in a text of `size` bytes. -/
def offset (size : Nat) : Reader Nat := fun cs => .ok (size - byteSize cs, cs)

/-- Reads an attribute from its equals sign on; `start` is where its name starts. -/
def attributeAt (size start : Nat) (before : Trivia) (name : String) (gap : Trivia) :
    Reader Attribute := do
  char '='
  let lead ← blank
  let value ← expr .line
  let stop ← offset size
  return ⟨before, name, gap, lead, value, none, some ⟨start, stop⟩⟩

/-! ## Blocks -/

/-- Reads one label of a block and the blanks behind it. -/
def label : Reader Label := do
  match ← opt identifier with
  | some name => return ⟨name, false, ← blank⟩
  | none =>
    let content ← quotedText
    return ⟨content, true, ← blank⟩

/-- Reads labels up to the opening brace. -/
def labels : Nat → Reader (List Label)
  | 0 => absent
  | rounds + 1 => do
    match ← opt label with
    | some first =>
      let rest ← labels rounds
      return first :: rest
    | none => return []

/-- Reads a body whose structures have lines of their own, after the opening brace. -/
def bodyOfLines (body : Reader (List Structure)) : Reader (Layout × List Structure) := do
  let opening ← lineTail
  let _ ← lineEnd
  let structures ← body
  let closing ← white
  char '}'
  return (.lines opening closing, structures)

/-- Reads the attribute of a body on one line, with the blanks on both sides. -/
def inlineAttribute (size : Nat) : Reader Attribute := do
  let before ← blank
  let start ← offset size
  let name ← identifier
  let gap ← blank
  let a ← attributeAt size start before name gap
  let after ← blank
  return { a with after := some after }

/-- Reads a body on one line, after the opening brace. -/
def bodyOnLine (size : Nat) : Reader (Layout × List Structure) := do
  match ← opt (inlineAttribute size) with
  | some a =>
    char '}'
    return (.oneLine [], [.attr a])
  | none =>
    let inner ← blank
    char '}'
    return (.oneLine inner, [])

/-- Reads a block from its labels on. -/
def blockAt (size start : Nat) (body : Reader (List Structure)) (before : Trivia) (kind : String)
    (gap : Trivia) : Reader Block := do
  let names ← bounded labels
  char '{'
  let (layout, structures) ← bodyOfLines body <|> bodyOnLine size
  let stop ← offset size
  return ⟨before, kind, gap, names, layout, structures, [], ⟨start, stop⟩⟩

/-! ## Bodies -/

/-- Reads a structure and the rest of its line; tells whether a line end follows. The names are
those of the attributes before it in the same body. -/
def structureLine (size : Nat) (body : Reader (List Structure)) (names : List String) :
    Reader (Structure × Bool) := do
  let before ← white
  let start ← offset size
  let name ← identifier
  let gap ← blank
  if (← ahead).head? == some '=' then
    if names.contains name then absent
    let a ← attributeAt size start before name gap
    let after ← lineTail
    let ended ← lineEndOrEnd
    return (.attr { a with after := some after }, ended)
  else
    let b ← blockAt size start body before name gap
    let after ← lineTail
    let ended ← lineEndOrEnd
    return (.block { b with after := after }, ended)

/-- The names of attributes in scope after a structure. -/
def addName (names : List String) : Structure → List String
  | .attr a => a.name :: names
  | .block _ => names

/-- Reads as many structures as there are; tells whether a line end follows the last one. -/
def structuresWithin (size : Nat) : Nat → List String → Reader (List Structure × Bool)
  | 0, _ => absent
  | depth + 1, names => do
    let nested : Reader (List Structure) := do
      let (structures, _) ← structuresWithin size depth []
      return structures
    match ← opt (structureLine size nested names) with
    | none => return ([], true)
    | some (first, ended) =>
      if ended then
        let (rest, endsLine) ← structuresWithin size depth (addName names first)
        return (first :: rest, endsLine)
      else
        return ([first], false)

/-- Reads a document. -/
def document : Reader Document := fun cs =>
  (do
    let (structures, endsLine) ← structuresWithin (byteSize cs) (cs.length + 1) []
    let closing ← white
    endOfText
    return ⟨structures, closing, endsLine⟩ : Reader Document) cs

end Reader

/-- The document that a whole text is. -/
def Document.read? (source : String) : Option Document :=
  Reader.all? Reader.document source.toList

end HclOverlay.Hcl
