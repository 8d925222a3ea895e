import HclOverlay.Hcl.Expr
import HclOverlay.Hcl.Printer
import HclOverlay.Source.Position

/-!
# Attributes and blocks

A document is a sequence of structures: attributes `name = value`, and blocks with labels and a body
of further structures. Like expressions, structures keep the trivia around their parts.

* `Attribute`, `Block`, `Structure`, `Document` — the tree of a file.
* `Document.print` — its text. A tree that was read prints as the text it was read from, except
  that strings are escaped anew and line ends after structures are line feeds.
* `Block.attribute?`, `Document.blocks`, `Document.modifyBlock` — access by name and by rank.
-/

namespace HclOverlay.Hcl

open Source (Span)

/-- `name = value`. -/
structure Attribute where
  /-- the trivia since the end of the structure before -/
  before : Trivia
  name : String
  /-- the trivia between name and equals sign -/
  gap : Trivia
  /-- the trivia between equals sign and value -/
  lead : Trivia
  value : Expr
  /-- the trivia up to the end of the line; `none` for an attribute that was added, which takes
  what its place asks for -/
  after : Option Trivia
  /-- where it was read from; `none` for one that was written since -/
  span : Option Span

/-- A label of a block, with the trivia behind it. -/
structure Label where
  text : String
  quoted : Bool
  after : Trivia

/-- How a body is laid out between its braces. -/
inductive Layout where
  /-- one structure a line; `opening` follows the opening brace and `closing` precedes the
  closing one -/
  | lines (opening closing : Trivia)
  /-- on the line of its block, with at most one attribute; `inner` stood between the braces if
  there was none -/
  | oneLine (inner : Trivia)

mutual

/-- An attribute or a block. -/
inductive Structure where
  | attr (a : Attribute)
  | block (b : Block)

/-- A block. -/
structure Block where
  /-- the trivia since the end of the structure before -/
  before : Trivia
  /-- the word the block starts with -/
  kind : String
  /-- the trivia behind that word -/
  gap : Trivia
  labels : List Label
  layout : Layout
  body : List Structure
  /-- the trivia up to the end of the line -/
  after : Trivia
  /-- where it was read from -/
  span : Span

end

/-- The structures of a file. -/
structure Document where
  structures : List Structure
  /-- the trivia behind the last structure -/
  closing : Trivia
  /-- whether a line end follows the last structure -/
  endsLine : Bool

/-! ## Printing -/

/-- The text of an attribute; `side` stands for trivia that it does not have yet. -/
def Attribute.print (side : Trivia) (a : Attribute) : List Char :=
  a.before ++ a.name.toList ++ a.gap ++ '=' :: (a.lead ++ a.value.print ++ a.after.getD side)

/-- The text of a label. -/
def Label.print (l : Label) : List Char :=
  (if l.quoted then Quoted.quoteAll l.text.toList else l.text.toList) ++ l.after

mutual

/-- The text of a structure. -/
def Structure.print : Structure → List Char
  | .attr a => a.print []
  | .block b => b.print
termination_by structural s => s

/-- The text of a block. A body read from one line stays on it until it has a second attribute. -/
def Block.print : Block → List Char
  | ⟨before, kind, gap, labels, layout, body, after, _⟩ =>
    before ++ kind.toList ++ gap ++ labels.flatMap Label.print ++ '{' ::
      ((match layout with
        | .lines opening closing => opening ++ '\n' :: (printLines body ++ closing)
        | .oneLine inner =>
          match body with
          | [] => inner
          | [.attr a] => a.print [' '] ++ inner
          | _ => '\n' :: (printLines body ++ inner)) ++ '}' :: after)
termination_by structural b => b

/-- Structures on a line each. -/
def printLines : List Structure → List Char
  | [] => []
  | first :: rest => first.print ++ '\n' :: printLines rest
termination_by structural ss => ss

end

/-- The text of a document. -/
def Document.print (d : Document) : List Char :=
  let lines := printLines d.structures
  (if d.endsLine then lines else lines.dropLast) ++ d.closing

/-! ## Access -/

/-- The attribute a structure is. -/
def Structure.attribute? : Structure → Option Attribute
  | .attr a => some a
  | .block _ => none

/-- The block a structure is. -/
def Structure.block? : Structure → Option Block
  | .attr _ => none
  | .block b => some b

/-- The attributes of a body, in order. -/
def attributesOf (body : List Structure) : List Attribute := body.filterMap Structure.attribute?

/-- The blocks of a body, in order. -/
def blocksOf (body : List Structure) : List Block := body.filterMap Structure.block?

/-- The attribute of a block with a given name. -/
def Block.attribute? (b : Block) (name : String) : Option Attribute :=
  (attributesOf b.body).find? (·.name == name)

/-- The texts of the labels of a block. -/
def Block.labelTexts (b : Block) : List String := b.labels.map Label.text

/-- The top-level blocks of a document, in order. -/
def Document.blocks (d : Document) : List Block := blocksOf d.structures

/-- Changes the block with the given rank among the blocks. -/
def modifyNthBlock (f : Block → Block) : Nat → List Structure → List Structure
  | _, [] => []
  | n, .attr a :: rest => .attr a :: modifyNthBlock f n rest
  | 0, .block b :: rest => .block (f b) :: rest
  | n + 1, .block b :: rest => .block b :: modifyNthBlock f n rest

/-- Changes the top-level block with the given rank. -/
def Document.modifyBlock (d : Document) (rank : Nat) (f : Block → Block) : Document :=
  { d with structures := modifyNthBlock f rank d.structures }

/-! ## Equations -/

@[simp] theorem attributesOf_nil : attributesOf [] = [] := rfl

@[simp] theorem attributesOf_attr (a : Attribute) (rest : List Structure) :
    attributesOf (.attr a :: rest) = a :: attributesOf rest := rfl

@[simp] theorem attributesOf_block (b : Block) (rest : List Structure) :
    attributesOf (.block b :: rest) = attributesOf rest := rfl

@[simp] theorem blocksOf_nil : blocksOf [] = [] := rfl

@[simp] theorem blocksOf_attr (a : Attribute) (rest : List Structure) :
    blocksOf (.attr a :: rest) = blocksOf rest := rfl

@[simp] theorem blocksOf_block (b : Block) (rest : List Structure) :
    blocksOf (.block b :: rest) = b :: blocksOf rest := rfl

/-! ## Changing one block leaves the others -/

theorem blocksOf_modifyNthBlock (f : Block → Block) (n : Nat) (body : List Structure) :
    blocksOf (modifyNthBlock f n body) = (blocksOf body).modify n f := by
  induction body generalizing n with
  | nil => cases n <;> rfl
  | cons s rest ih =>
    cases s with
    | attr a => simpa [modifyNthBlock] using ih n
    | block b =>
      cases n with
      | zero => simp [modifyNthBlock]
      | succ n => simpa [modifyNthBlock] using ih n

/-- Changing a block changes one place of the list of blocks. -/
theorem Document.blocks_modifyBlock (d : Document) (rank : Nat) (f : Block → Block) :
    (d.modifyBlock rank f).blocks = d.blocks.modify rank f :=
  blocksOf_modifyNthBlock f rank d.structures

end HclOverlay.Hcl
