import HclOverlay.Hcl.Expr
import HclOverlay.Hcl.Quoted
import HclOverlay.Text.Lines

/-!
# Printing expressions

The text of an expression tree. Trivia, number spellings and separators are printed as they were
read; strings are escaped anew from their content. A tree is first laid out as stretches of text,
and the stretches are then joined from left to right.

* `Stretch` — a piece of the text; the literal text of templates is kept apart, because whether it
  is escaped depends on what stands before it.
* `join` — the text of stretches. Literal text is escaped from the opening quote of a template to
  the next closing one: behind a template inside it, the rest of a template is not escaped.
* `Expr.stretches`, `Expr.print`, `Expr.text` — the layout of an expression and its text.
* `printTemplate` — the text of the pieces of a template.
-/

namespace HclOverlay.Hcl

/-! ## Stretches -/

/-- A piece of printed text. -/
inductive Stretch where
  /-- text that is printed as it stands -/
  | verbatim (text : List Char)
  /-- literal text of a template -/
  | literal (text : List Char)
  /-- the opening quote of a template -/
  | openQuote
  /-- the closing quote of a template -/
  | closeQuote
  /-- stretches whose lines are indented by blanks -/
  | indented (columns : Nat) (stretches : List Stretch)

/-- Puts `columns` blanks in front of a line that is not empty. -/
def indentLine (columns : Nat) (line : List Char) : List Char :=
  if line.isEmpty then [] else List.replicate columns ' ' ++ line

/-- Indents every line by `columns` blanks. Line ends become line feeds. -/
def indentLines (columns : Nat) : List Char → List Char :=
  Text.mapLines (indentLine columns) (indentLine columns)

/-- Whether literal text is escaped behind a stretch, given whether it is before. -/
def Stretch.escapesAfter (escaped : Bool) : Stretch → Bool
  | .openQuote => true
  | .closeQuote => false
  | _ => escaped

mutual

/-- The text of a stretch. Where literal text is not escaped, its markers are still doubled. -/
def Stretch.chars (escaped : Bool) : Stretch → List Char
  | .verbatim text => text
  | .literal text => if escaped then Quoted.escapeAll text else Quoted.escapeMarkers text
  | .openQuote | .closeQuote => ['"']
  | .indented columns stretches => indentLines columns (join false stretches)
termination_by structural s => s

/-- The text of stretches, given whether literal text is escaped at their start. -/
def join (escaped : Bool) : List Stretch → List Char
  | [] => []
  | first :: rest => first.chars escaped ++ join (first.escapesAfter escaped) rest
termination_by structural ss => ss

end

/-- Text that is printed as it stands, as stretches. -/
def plain (text : List Char) : List Stretch := [.verbatim text]

/-! ## Pieces without expressions -/

/-- The text of an operator between operands. -/
def BinaryOp.chars : BinaryOp → List Char
  | .mul => ['*']
  | .div => ['/']
  | .rem => ['%']
  | .add => ['+']
  | .sub => ['-']
  | .less => ['<']
  | .lessEq => ['<', '=']
  | .greater => ['>']
  | .greaterEq => ['>', '=']
  | .eq => ['=', '=']
  | .notEq => ['!', '=']
  | .and => ['&', '&']
  | .or => ['|', '|']

/-- What stands between the last argument of a call and the closing trivia. -/
def ArgsEnd.chars : ArgsEnd → List Char
  | .plain => []
  | .comma => [',']
  | .expand => ['.', '.', '.']

/-- The end of an object entry. -/
def ItemEnd.chars : ItemEnd → List Char
  | .none => []
  | .comma => [',']
  | .newline => ['\n']

/-- A stripping mark, if there is one. -/
def stripMark (on : Bool) : List Char := if on then ['~'] else []

/-- The opening of a template marker that starts with `sign`. -/
def Strip.opening (strip : Strip) (sign : Char) : List Char :=
  sign :: '{' :: stripMark strip.left

/-- The end of a template marker. -/
def Strip.closing (strip : Strip) : List Char :=
  stripMark strip.right ++ ['}']

/-- A marker that holds a keyword. -/
def Tag.chars (tag : Tag) (keyword : List Char) : List Char :=
  tag.strip.opening '%' ++ tag.before ++ keyword ++ tag.after ++ tag.strip.closing

/-- A name with the trivia on both sides. -/
def nameChars (name : Padded String) : List Char :=
  name.before ++ name.item.toList ++ name.after

/-- The variables of a `for`. -/
def Binding.chars (b : Binding) : List Char :=
  (match b.key with
    | some key => nameChars key ++ [',']
    | none => []) ++
  nameChars b.value

/-- Namespaces and name of a function, joined by `::`. -/
def pathChars : List (Padded String) → List Char
  | [] => []
  | [last] => nameChars last
  | first :: rest => nameChars first ++ ':' :: ':' :: pathChars rest

/-- The dots that group the values of equal keys, with the trivia behind them. -/
def groupingChars : Option Trivia → List Char
  | some gap => '.' :: '.' :: '.' :: gap
  | none => []

/-! ## Expressions -/

mutual

/-- The layout of an expression. -/
def Expr.stretches : Expr → List Stretch
  | .null => plain ['n', 'u', 'l', 'l']
  | .bool true => plain ['t', 'r', 'u', 'e']
  | .bool false => plain ['f', 'a', 'l', 's', 'e']
  | .number _ spelling => plain spelling
  | .string value => plain (Quoted.quoteAll value.toList)
  | .template parts => .openQuote :: (partsStretches parts ++ [.closeQuote])
  | .heredoc delimiter indent parts closing =>
    plain ('<' :: '<' :: ((if indent.isSome then ['-'] else []) ++ delimiter.toList ++ ['\n'])) ++
      (match indent with
        | some columns => [.indented columns (partsStretches parts)]
        | none => partsStretches parts) ++
      plain (closing ++ delimiter.toList)
  | .variable name => plain name.toList
  | .list items comma closing =>
    plain ['['] ++ itemsStretches items ++
      plain ((if comma then [','] else []) ++ closing ++ [']'])
  | .object items closing => plain ['{'] ++ entriesStretches items ++ plain (closing ++ ['}'])
  | .parens inner => plain ['('] ++ paddedStretches inner ++ plain [')']
  | .unary op gap operand => plain (op.chars ++ gap) ++ operand.stretches
  | .binary left op right =>
    left.stretches ++ plain (op.before ++ op.item.chars ++ op.after) ++ right.stretches
  | .conditional test beforeMark yes afterColon no =>
    test.stretches ++ plain (beforeMark ++ ['?']) ++ paddedStretches yes ++
      plain (':' :: afterColon) ++ no.stretches
  | .call path args ending closing =>
    plain (pathChars path ++ ['(']) ++ itemsStretches args ++
      plain (ending.chars ++ closing ++ [')'])
  | .access subject gap steps => subject.stretches ++ plain gap ++ stepsStretches steps
  | .forList opening binding source value condition =>
    plain ('[' :: (opening ++ ['f', 'o', 'r'] ++ binding.chars ++ ['i', 'n'])) ++
      paddedStretches source ++ plain [':'] ++ paddedStretches value ++
      conditionStretches condition ++ plain [']']
  | .forObject opening binding source key value grouping condition =>
    plain ('{' :: (opening ++ ['f', 'o', 'r'] ++ binding.chars ++ ['i', 'n'])) ++
      paddedStretches source ++ plain [':'] ++ paddedStretches key ++ plain ['=', '>'] ++
      paddedStretches value ++ plain (groupingChars grouping) ++
      conditionStretches condition ++ plain ['}']
termination_by structural e => e

/-- The layout of an expression with its trivia. -/
def paddedStretches : Padded Expr → List Stretch
  | ⟨before, item, after⟩ => plain before ++ item.stretches ++ plain after
termination_by structural p => p

/-- Expressions separated by commas. -/
def itemsStretches : List (Padded Expr) → List Stretch
  | [] => []
  | first :: rest => paddedStretches first ++ moreItemsStretches rest
termination_by structural items => items

/-- Further expressions, each after a comma. -/
def moreItemsStretches : List (Padded Expr) → List Stretch
  | [] => []
  | first :: rest => plain [','] ++ paddedStretches first ++ moreItemsStretches rest
termination_by structural items => items

/-- The `if` of a `for` expression. -/
def conditionStretches : Option (Padded Expr) → List Stretch
  | some test => plain ['i', 'f'] ++ paddedStretches test
  | none => []
termination_by structural o => o

/-- An object key. -/
def Key.stretches : Key → List Stretch
  | .name name => plain name.toList
  | .expr expr => expr.stretches
termination_by structural k => k

/-- An object key with its trivia. -/
def keyStretches : Padded Key → List Stretch
  | ⟨before, item, after⟩ => plain before ++ item.stretches ++ plain after
termination_by structural p => p

/-- One entry of an object. -/
def Item.stretches : Item → List Stretch
  | ⟨key, colon, value, ending⟩ =>
    keyStretches key ++ plain [if colon then ':' else '='] ++ paddedStretches value ++
      plain ending.chars
termination_by structural i => i

/-- The entries of an object. -/
def entriesStretches : List Item → List Stretch
  | [] => []
  | first :: rest => first.stretches ++ entriesStretches rest
termination_by structural items => items

/-- One step into a value. -/
def Step.stretches : Step → List Stretch
  | .attr gap name => plain ('.' :: (gap ++ name.toList))
  | .position gap index => plain ('.' :: (gap ++ Decimal.digitsOf index))
  | .index inner => plain ['['] ++ paddedStretches inner ++ plain [']']
  | .attrSplat gap => plain ('.' :: (gap ++ ['*']))
  | .fullSplat before after => plain ('[' :: (before ++ '*' :: (after ++ [']'])))
termination_by structural s => s

/-- The steps into a value. -/
def stepsStretches : List Step → List Stretch
  | [] => []
  | first :: rest => first.stretches ++ stepsStretches rest
termination_by structural steps => steps

/-- One piece of a template. -/
def Part.stretches : Part → List Stretch
  | .literal text => [.literal text]
  | .interpolation strip inner =>
    plain (strip.opening '$') ++ paddedStretches inner ++ plain strip.closing
  | .choice strip before test yes otherwise closing =>
    plain (strip.opening '%' ++ before ++ ['i', 'f']) ++ paddedStretches test ++
      plain strip.closing ++ partsStretches yes ++ otherwiseStretches otherwise ++
      plain (closing.chars ['e', 'n', 'd', 'i', 'f'])
  | .loop strip before binding source body closing =>
    plain (strip.opening '%' ++ before ++ ['f', 'o', 'r'] ++ binding.chars ++ ['i', 'n']) ++
      paddedStretches source ++ plain strip.closing ++ partsStretches body ++
      plain (closing.chars ['e', 'n', 'd', 'f', 'o', 'r'])
termination_by structural p => p

/-- The pieces of a template. -/
def partsStretches : List Part → List Stretch
  | [] => []
  | first :: rest => first.stretches ++ partsStretches rest
termination_by structural parts => parts

/-- The `else` of a conditional piece. -/
def otherwiseStretches : Option (Tag × List Part) → List Stretch
  | some branch => branchStretches branch
  | none => []
termination_by structural o => o

/-- A marker `else` and the text under it. -/
def branchStretches : Tag × List Part → List Stretch
  | (tag, parts) => plain (tag.chars ['e', 'l', 's', 'e']) ++ partsStretches parts
termination_by structural b => b

end

/-- The text of an expression. -/
def Expr.print (e : Expr) : List Char := join false e.stretches

/-- The text of an expression as a string. -/
def Expr.text (e : Expr) : String := String.ofList e.print

/-- The text of the pieces of a template, outside quotes. -/
def printTemplate (parts : List Part) : List Char := join false (partsStretches parts)

/-! ## Joining -/

@[simp] theorem join_nil (escaped : Bool) : join escaped [] = [] := rfl

@[simp] theorem join_cons (escaped : Bool) (s : Stretch) (ss : List Stretch) :
    join escaped (s :: ss) = s.chars escaped ++ join (s.escapesAfter escaped) ss := rfl

/-- **Stretches join piecewise**: the second part sees only whether the first one left literal text
escaped. -/
theorem join_append (escaped : Bool) (ss ts : List Stretch) :
    join escaped (ss ++ ts) =
      join escaped ss ++ join (ss.foldl Stretch.escapesAfter escaped) ts := by
  induction ss generalizing escaped with
  | nil => rfl
  | cons s ss ih => simp [ih]

/-- A template closes what it opens: behind it, literal text is not escaped. -/
theorem foldl_escapesAfter_template (escaped : Bool) (parts : List Part) :
    (Expr.template parts).stretches.foldl Stretch.escapesAfter escaped = false := by
  simp [Expr.stretches, Stretch.escapesAfter]

end HclOverlay.Hcl
