import HclOverlay.Value.Number

/-!
# Expressions

The tree of an expression keeps everything the text holds: each stretch of white space and comments
(*trivia*) is stored where it stands, so that printing a tree that was read gives the text back. A
node never holds the trivia around itself; its parent does.

* `Padded` — a thing with the trivia on both sides of it.
* `Expr` — expressions, with `Item` (object entries), `Step` (what may follow a value: `.name`,
  `[index]`, splats) and `Part` (pieces of a template).
-/

namespace HclOverlay.Hcl

/-- White space and comments, as written. -/
abbrev Trivia := List Char

/-- A thing together with the trivia on both sides of it. -/
structure Padded (α : Type) where
  /-- the trivia in front -/
  before : Trivia
  /-- the thing itself -/
  item : α
  /-- the trivia behind -/
  after : Trivia

/-- Operators in front of a term. -/
inductive UnaryOp where
  /-- `-` -/
  | negate
  /-- `!` -/
  | not
  deriving DecidableEq

/-- The text of an operator in front of a term. -/
def UnaryOp.chars : UnaryOp → List Char
  | .negate => ['-']
  | .not => ['!']

/-- Operators between two operands. -/
inductive BinaryOp where
  | mul | div | rem | add | sub
  | less | lessEq | greater | greaterEq
  | eq | notEq
  | and | or
  deriving DecidableEq

/-- How the arguments of a call end. -/
inductive ArgsEnd where
  | plain
  /-- a trailing comma -/
  | comma
  /-- `...` after the last argument -/
  | expand
  deriving DecidableEq

/-- How an entry of an object ends. -/
inductive ItemEnd where
  /-- nothing before the closing brace -/
  | none
  | comma
  | newline
  deriving DecidableEq

/-- The stripping marks `~` of a template marker. -/
structure Strip where
  /-- strip the text before the marker -/
  left : Bool
  /-- strip the text after the marker -/
  right : Bool
  deriving DecidableEq

/-- A template marker that holds one keyword, such as `else`. -/
structure Tag where
  strip : Strip
  before : Trivia
  after : Trivia

/-- The variables of a `for`: an optional key and the value, each with its trivia. -/
structure Binding where
  key : Option (Padded String)
  value : Padded String

mutual

/-- An expression. -/
inductive Expr where
  | null
  | bool (value : Bool)
  /-- a number with the spelling it was read from -/
  | number (value : Number) (spelling : List Char)
  /-- a quoted string without template parts, unescaped -/
  | string (value : String)
  /-- a quoted string with template parts -/
  | template (parts : List Part)
  /-- a heredoc: its delimiter, the columns stripped from its lines (if it is an indented one and
  there was something to strip), its text and the blanks before the closing delimiter -/
  | heredoc (delimiter : String) (indent : Option Nat) (parts : List Part) (closing : Trivia)
  | variable (name : String)
  /-- a list; `comma` tells whether a comma follows the last item -/
  | list (items : List (Padded Expr)) (comma : Bool) (closing : Trivia)
  | object (items : List Item) (closing : Trivia)
  | parens (inner : Padded Expr)
  | unary (op : UnaryOp) (gap : Trivia) (operand : Expr)
  | binary (left : Expr) (op : Padded BinaryOp) (right : Expr)
  /-- `test ? yes : no`, with the trivia before `?` and after `:` apart -/
  | conditional (test : Expr) (beforeMark : Trivia) (yes : Padded Expr) (afterColon : Trivia)
      (no : Expr)
  /-- a function call; `path` holds the namespaces and, last, the name of the function -/
  | call (path : List (Padded String)) (args : List (Padded Expr)) (ending : ArgsEnd)
      (closing : Trivia)
  /-- a value with steps into it; only the trivia before the first step is kept -/
  | access (subject : Expr) (gap : Trivia) (steps : List Step)
  /-- `[for x in source : value if condition]` -/
  | forList (opening : Trivia) (binding : Binding) (source : Padded Expr) (value : Padded Expr)
      (condition : Option (Padded Expr))
  /-- `\x7bfor x in source : key => value... if condition\x7d`; `grouping` is there
  when the dots are, and holds the trivia between them and an `if` -/
  | forObject (opening : Trivia) (binding : Binding) (source : Padded Expr) (key : Padded Expr)
      (value : Padded Expr) (grouping : Option Trivia) (condition : Option (Padded Expr))

/-- The key of an object entry: a plain identifier is a name, not a variable. -/
inductive Key where
  | name (name : String)
  | expr (expr : Expr)

/-- An entry of an object. -/
structure Item where
  key : Padded Key
  /-- `:` between key and value, not `=` -/
  colon : Bool
  value : Padded Expr
  ending : ItemEnd

/-- A step into a value. -/
inductive Step where
  /-- `.name`, with the trivia after the point -/
  | attr (gap : Trivia) (name : String)
  /-- `.0`, with the trivia after the point -/
  | position (gap : Trivia) (index : Nat)
  /-- `[index]` -/
  | index (inner : Padded Expr)
  /-- `.*`, with the trivia after the point -/
  | attrSplat (gap : Trivia)
  /-- `[*]` -/
  | fullSplat (before after : Trivia)

/-- A piece of a template. -/
inductive Part where
  /-- text, with its escapes resolved -/
  | literal (text : List Char)
  /-- `$\x7bexpr\x7d` -/
  | interpolation (strip : Strip) (inner : Padded Expr)
  /-- `%\x7bif\x7d … %\x7belse\x7d … %\x7bendif\x7d` -/
  | choice (strip : Strip) (before : Trivia) (test : Padded Expr) (yes : List Part)
      (otherwise : Option (Tag × List Part)) (closing : Tag)
  /-- `%\x7bfor\x7d … %\x7bendfor\x7d` -/
  | loop (strip : Strip) (before : Trivia) (binding : Binding) (source : Padded Expr)
      (body : List Part) (closing : Tag)

end

instance : Inhabited Expr := ⟨.null⟩

/-- An expression without trivia around it. -/
def Padded.bare {α : Type} (item : α) : Padded α := ⟨[], item, []⟩

end HclOverlay.Hcl
