import HclOverlay.Hcl.Expr
import HclOverlay.Text.Characters
import HclOverlay.Text.Lines

/-!
# Indented heredocs

A heredoc opened by `<<-` loses the white space that its lines have in common.

* `commonIndent` — the columns to strip: the least indentation of the lines that start in literal
  text. A literal piece in which some line that is not empty has no indentation does not count, and
  a template marker at the start of a line rules stripping out altogether.
* `dedent` — the pieces with those columns removed from every line that starts in them.
-/

namespace HclOverlay.Hcl.Heredoc

/-! ## Indentation -/

/-- How many white-space characters a line starts with. -/
def indentation (line : List Char) : Nat := (line.takeWhile Text.isSpace).length

/-- The least indentation of the lines that are not empty, unless one of them has none. The first
line is left out if it does not start a line of the document. -/
def leastIndent (startsLine : Bool) (text : List Char) : Option Nat :=
  let starting := if startsLine then Text.lines text else (Text.lines text).drop 1
  let counted := starting.filter (!·.isEmpty)
  if counted.any (indentation · == 0) then none
  else (counted.map indentation).min?

/-! ## Stripping -/

/-- The smaller of two indentations, where there are two. -/
def smaller : Option Nat → Option Nat → Option Nat
  | some a, some b => some (min a b)
  | some a, none => some a
  | none, b => b

/-- The columns to strip from the lines of a heredoc, given whether its pieces start a line and
the least indentation met so far. -/
def commonIndent (startsLine : Bool) (least : Option Nat) : List Part → Option Nat
  | [] => least
  | .literal text :: rest =>
    commonIndent (Text.endsInLineFeed text) (smaller least (leastIndent startsLine text)) rest
  | _ :: rest => if startsLine then none else commonIndent false least rest

/-- Removes `columns` characters from the start of every line; from the first only if it starts a
line of the document. Line ends become line feeds. -/
def stripLines (columns : Nat) (startsLine : Bool) : List Char → List Char :=
  Text.mapLines (if startsLine then (·.drop columns) else id) (·.drop columns)

/-- Removes `columns` characters from the start of every line that starts in literal text. -/
def stripParts (columns : Nat) (startsLine : Bool) : List Part → List Part
  | [] => []
  | .literal text :: rest =>
    .literal (stripLines columns startsLine text) ::
      stripParts columns (Text.endsInLineFeed text) rest
  | other :: rest => other :: stripParts columns false rest

/-- The columns that an indented heredoc loses, and its pieces without them. -/
def dedent (parts : List Part) : Option Nat × List Part :=
  match commonIndent true none parts with
  | some columns => (some columns, stripParts columns true parts)
  | none => (none, parts)

/-- Adds a line end to the pieces of a heredoc, as part of the last literal text. -/
def addLineEnd (lineEnd : List Char) : List Part → List Part
  | [] => [.literal lineEnd]
  | [.literal text] => [.literal (text ++ lineEnd)]
  | first :: rest => first :: addLineEnd lineEnd rest

end HclOverlay.Hcl.Heredoc
