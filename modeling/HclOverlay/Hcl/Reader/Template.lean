import HclOverlay.Hcl.Heredoc
import HclOverlay.Hcl.Reader.Literal

/-!
# Reading templates

Templates are read around two readers for the expressions in their markers, which are supplied by
the reader of expressions: `Inner.free` for interpolations, where an expression may run over lines,
and `Inner.line` for directives, where it may not. After its expression or keyword a marker must
end, and the words of a loop must be there; otherwise a marker that is not complete is no marker. A
heredoc must name its delimiter.

* `interpolation` — a marker that holds an expression.
* `choice`, `loop` — the directives, given a reader for the pieces under a keyword.
* `parts` — the pieces of a template of some kind.
* `quotedTemplate`, `heredoc` — the two expressions made of pieces.
-/

namespace HclOverlay.Hcl.Reader

/-- The readers for the expressions in markers. -/
structure Inner where
  /-- for an expression that may run over several lines -/
  free : Reader Expr
  /-- for an expression that stays on its line -/
  line : Reader Expr

/-! ## Markers -/

/-- Reads what opens a marker; tells whether it strips the text before it. -/
def openMarker (sign : Char) : Reader Bool := do
  char sign
  char '{'
  flag '~'

/-- Reads what must end a marker; tells whether it strips the text after it. -/
def closeMarker : Reader Bool := do
  let strip ← flag '~'
  commit (char '}')
  return strip

/-- Reads a marker that holds one keyword. -/
def tag (keyword : List Char) : Reader Tag := do
  let left ← openMarker '%'
  let before ← white
  text keyword
  let after ← white
  let right ← closeMarker
  return ⟨⟨left, right⟩, before, after⟩

/-- Reads a marker that holds an expression. -/
def interpolation (inner : Inner) : Reader Part := do
  let left ← openMarker '$'
  let e ← padded inner.free
  let right ← closeMarker
  return .interpolation ⟨left, right⟩ e

/-- Reads the variables of a `for`. -/
def binding : Reader Binding := do
  let first ← padded (commit identifier)
  if ← flag ',' then
    let second ← padded (commit identifier)
    return ⟨some first, second⟩
  else
    return ⟨none, first⟩

/-- Reads a conditional piece, given a reader for the pieces under its keywords. -/
def choice (inner : Inner) (body : Reader (List Part)) : Reader Part := do
  let left ← openMarker '%'
  let before ← white
  text ['i', 'f']
  let test ← padded inner.line
  let right ← closeMarker
  let yes ← body
  let otherwise ← opt do
    let mark ← tag ['e', 'l', 's', 'e']
    let no ← body
    return (mark, no)
  let closing ← tag ['e', 'n', 'd', 'i', 'f']
  return .choice ⟨left, right⟩ before test yes otherwise closing

/-- Reads a loop, given a reader for the pieces under its keyword. -/
def loop (inner : Inner) (body : Reader (List Part)) : Reader Part := do
  let left ← openMarker '%'
  let before ← white
  text ['f', 'o', 'r']
  let names ← binding
  commit (text ['i', 'n'])
  let source ← padded inner.line
  let right ← closeMarker
  let pieces ← body
  let closing ← tag ['e', 'n', 'd', 'f', 'o', 'r']
  return .loop ⟨left, right⟩ before names source pieces closing

/-! ## Pieces -/

/-- Reads one piece of a template, given a reader for the pieces under a keyword. -/
def part (inner : Inner) (kind : TextKind) (body : Reader (List Part)) : Reader Part :=
  (do return .literal (← literal kind)) <|>
    interpolation inner <|> choice inner body <|> loop inner body

/-- Reads as many pieces as there are, each of them at least one character. -/
def partsUpTo (inner : Inner) : Nat → TextKind → Reader (List Part)
  | 0, _ => absent
  | rounds + 1, kind => do
    match ← opt (part inner kind (partsUpTo inner rounds .nested)) with
    | some first =>
      let rest ← partsUpTo inner rounds kind
      return first :: rest
    | none => return []

/-- Reads the pieces of a template; the length of the text bounds their number. -/
def parts (inner : Inner) (kind : TextKind) : Reader (List Part) :=
  bounded fun rounds => partsUpTo inner rounds kind

/-- Reads a quoted string, or a template when it is not one piece of text. -/
def quotedTemplate (inner : Inner) : Reader Expr :=
  (do return .string (← quotedText)) <|> do
    char '"'
    let pieces ← parts inner .quoted
    char '"'
    return .template pieces

/-! ## Heredocs -/

/-- Reads the spaces and tabs before a closing delimiter, and the delimiter. -/
def closingDelimiter (delimiter : List Char) : Reader Trivia := do
  let closing ← ofSplit (·.span isBlankChar)
  text delimiter
  return closing

/-- Reads the text and the closing delimiter of a heredoc that has text. -/
def heredocBody (inner : Inner) (delimiter : List Char) : Reader (List Part × Trivia) := do
  let pieces ← parts inner (.heredoc delimiter)
  let eol ← lineEnd
  let closing ← closingDelimiter delimiter
  return (Heredoc.addLineEnd eol pieces, closing)

/-- Reads the closing delimiter of a heredoc without text. -/
def heredocEmpty (delimiter : List Char) : Reader (List Part × Trivia) := do
  let closing ← closingDelimiter delimiter
  return ([], closing)

/-- Reads a heredoc. The delimiter that ends it is the first one at the start of a line after some
text, or else one right at the start. -/
def heredoc (inner : Inner) : Reader Expr := do
  text ['<', '<']
  let indented ← flag '-'
  let delimiter ← commit identifier
  let _ ← lineEnd
  let (pieces, closing) ←
    heredocBody inner delimiter.toList <|> heredocEmpty delimiter.toList
  if indented then
    let (columns, stripped) := Heredoc.dedent pieces
    return .heredoc delimiter columns stripped closing
  else
    return .heredoc delimiter none pieces closing

end HclOverlay.Hcl.Reader
