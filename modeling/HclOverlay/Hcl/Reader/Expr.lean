import HclOverlay.Hcl.Likeness
import HclOverlay.Hcl.Reader.Template

/-!
# Reading expressions

A term, steps into it, then a binary operator with an expression on its right or the two branches
of a conditional. Every reader below takes the reader `self` of smaller expressions as a parameter;
`exprWithin` ties the knot, with a depth that the length of the text bounds.

* `Mode` — whether line ends may stand between tokens, and whether a conditional may follow.
* `termStep`, `exprStep` — one level of a term and of an expression.
* `opensLines` — the terms after which line ends are allowed wherever the term stands.
* `Expr.read?` — the expression that a whole text is, without trivia around it.

A binary operator takes everything to its right as its operand, except that a conditional is never
part of that operand; operators are regrouped by level when they are evaluated. Lists and arguments
inherit that ban, and parentheses, braces and markers lift it.
-/

namespace HclOverlay.Hcl

/-- How an expression is read at some place. -/
structure Mode where
  /-- line ends may stand between tokens -/
  newlines : Bool
  /-- the expression may be a conditional -/
  conditional : Bool

/-- Inside parentheses, indices and interpolations. -/
def Mode.inside : Mode := ⟨true, true⟩

/-- On a line of its own. -/
def Mode.line : Mode := ⟨false, true⟩

/-- The same, with line ends allowed: inside lists and arguments. -/
def Mode.spread (m : Mode) : Mode := ⟨true, m.conditional⟩

namespace Reader

/-- The readers for the expressions in the markers of a template. -/
def inner (self : Mode → Reader Expr) : Inner := ⟨self .inside, self .line⟩

/-! ## Lists and calls -/

/-- Reads one item of a list that ends at one of the characters `stops`. -/
def listItem (stops : List Char) (expr : Reader Expr) : Reader (Padded Expr) := do
  let before ← white
  if (← ahead).head?.any (stops.contains ·) then absent
  let item ← expr
  let after ← white
  return ⟨before, item, after⟩

/-- Reads further items, each after a comma. -/
def moreItems (stops : List Char) (expr : Reader Expr) : Nat → Reader (List (Padded Expr))
  | 0 => absent
  | rounds + 1 => do
    match ← opt (do char ','; listItem stops expr) with
    | some item =>
      let rest ← moreItems stops expr rounds
      return item :: rest
    | none => return []

/-- Reads the items of a list, separated by commas. -/
def listItems (stops : List Char) (expr : Reader Expr) : Reader (List (Padded Expr)) := do
  match ← opt (listItem stops expr) with
  | some first =>
    let rest ← bounded (moreItems stops expr)
    return first :: rest
  | none => return []

/-- Reads a list in brackets. A trailing comma needs an item before it. -/
def list (expr : Reader Expr) : Reader Expr := do
  char '['
  let items ← listItems [']'] expr
  let comma ← if items.isEmpty then pure false else flag ','
  let closing ← white
  commit (char ']')
  return .list items comma closing

/-- Reads what may stand between the last argument and the closing trivia. -/
def argsEnd : Reader ArgsEnd :=
  (do char ','; return .comma) <|>
    (do char '.'; commit (text ['.', '.']); return .expand) <|> pure .plain

/-- Reads further names of a function, each after `::`, up to the opening parenthesis. -/
def morePath (m : Mode) : Nat → Reader (List (Padded String))
  | 0 => absent
  | rounds + 1 => do
    if (← ahead).head? == some '(' then return []
    text [':', ':']
    let before ← gap m.newlines
    let name ← identifier
    let after ← gap m.newlines
    let rest ← morePath m rounds
    return ⟨before, name, after⟩ :: rest

/-- Reads the rest of a call of the function whose first name has been read. -/
def callOf (self : Mode → Reader Expr) (m : Mode) (name : String) : Reader Expr := do
  let after ← gap m.newlines
  let rest ← bounded (morePath m)
  char '('
  let args ← listItems [',', '.', ')'] (self m.spread)
  let ending ← if args.isEmpty then pure .plain else argsEnd
  let closing ← white
  commit (char ')')
  return .call (⟨[], name, after⟩ :: rest) args ending closing

/-- The expression a name stands for on its own. -/
def ofName (name : String) : Expr :=
  if name = "null" then .null
  else if name = "true" then .bool true
  else if name = "false" then .bool false
  else .variable name

/-- Reads a call, a keyword or a variable. -/
def nameOrCall (self : Mode → Reader Expr) (m : Mode) : Reader Expr := do
  let name ← identifier
  callOf self m name <|> pure (ofName name)

/-! ## Objects -/

/-- An expression as an object key: a variable is a name. -/
def keyOf : Expr → Key
  | .variable name => .name name
  | e => .expr e

/-- Reads how an entry ends; a line comment before a line end joins the trivia of the value. -/
def itemEnd : Reader (Trivia × ItemEnd) := do
  if (← ahead).head? == some '}' then return ([], .none)
  if ← flag ',' then return ([], .comma)
  let comment ← opt (ofOption lineComment?)
  let _ ← commit lineEnd
  return (comment.getD [], .newline)

/-- Reads one entry of an object after its leading white space. -/
def item (expr : Reader Expr) (before : Trivia) : Reader Item := do
  let key ← expr
  let afterKey ← blank
  let colon ← flag ':'
  if !colon then commit (char '=')
  let beforeValue ← blank
  let value ← expr
  let afterValue ← blank
  let (comment, ending) ← itemEnd
  return ⟨⟨before, keyOf key, afterKey⟩, colon, ⟨beforeValue, value, afterValue ++ comment⟩,
    ending⟩

/-- Adds an entry; one whose key is there already takes the place of the earlier entry. -/
def addItem : List Item → Item → List Item
  | [], entry => [entry]
  | first :: rest, entry =>
    if first.key.item.alike .written entry.key.item then entry :: rest
    else first :: addItem rest entry

/-- Reads the entries of an object and the white space before the closing brace. -/
def entries (expr : Reader Expr) : Nat → Reader (List Item × Trivia)
  | 0 => absent
  | rounds + 1 => do
    let before ← white
    if (← ahead).head? == some '}' then return ([], before)
    let first ← item expr before
    let (rest, closing) ← entries expr rounds
    return (first :: rest, closing)

/-- Reads an object in braces. -/
def object (expr : Reader Expr) : Reader Expr := do
  char '{'
  let (items, closing) ← bounded (entries expr)
  char '}'
  return .object (items.foldl addItem []) closing

/-! ## `for` expressions -/

/-- Whether a `for` opens what is in brackets or braces. -/
def startsFor (cs : List Char) : Bool :=
  match stripText ['f', 'o', 'r'] (spanTrivia isWhiteChar comment? cs.length cs).2 with
  | some (c :: _) => c == ' ' || c == '\t' || c == '\n' || c == '#' || c == '/'
  | _ => false

/-- Reads the head of a `for` up to its colon. -/
def forHead (self : Mode → Reader Expr) : Reader (Trivia × Binding × Padded Expr) := do
  let opening ← white
  text ['f', 'o', 'r']
  let names ← binding
  commit (text ['i', 'n'])
  let source ← padded (self .line)
  commit (char ':')
  return (opening, names, source)

/-- Reads the condition of a `for`, if there is one. -/
def forCondition (expr : Reader Expr) : Reader (Option (Padded Expr)) :=
  opt do
    text ['i', 'f']
    padded expr

/-- Reads a `for` in brackets. -/
def forList (self : Mode → Reader Expr) (m : Mode) : Reader Expr := do
  char '['
  let (opening, names, source) ← forHead self
  let value ← padded (self m.spread)
  let condition ← forCondition (self m.spread)
  commit (char ']')
  return .forList opening names source value condition

/-- Reads the dots that group the values of equal keys and the trivia behind them. -/
def forGrouping : Reader Trivia := do
  text ['.', '.', '.']
  white

/-- Reads a `for` in braces. The trivia behind the dots is kept only for an `if`. -/
def forObject (self : Mode → Reader Expr) (m : Mode) : Reader Expr := do
  char '{'
  let (opening, names, source) ← forHead self
  let key ← padded (self .line)
  commit (text ['=', '>'])
  let value ← padded (self .line)
  let grouping ← opt forGrouping
  let condition ← forCondition (self m.spread)
  commit (char '}')
  let kept := if condition.isSome then grouping else grouping.map fun _ => []
  return .forObject opening names source key value kept condition

/-! ## Terms -/

/-- Reads an expression in parentheses. -/
def parens (expr : Reader Expr) : Reader Expr := do
  char '('
  let inner ← padded expr
  commit (char ')')
  return .parens inner

/-- Puts an operator in front of a term; of several operators only the last one counts. -/
def applyUnary (op : UnaryOp) (gap : Trivia) (operand : Expr) : Expr :=
  match operand with
  | .unary .. => operand
  | _ => .unary op gap operand

/-- Reads an operator in front of a term, given a reader for the term. -/
def prefixed (op : UnaryOp) (operand : Reader Expr) : Reader Expr := do
  text op.chars
  let space ← blank
  return applyUnary op space (← operand)

/-- One level of a term, given readers for the expressions inside it and for the operand of an
operator in front of it. A character that starts no term is wrong, but at the end of the text a term
is just not there. -/
def termStep (self : Mode → Reader Expr) (operand : Reader Expr) (m : Mode) : Reader Expr :=
  fun cs =>
    match cs with
    | '"' :: _ => quotedTemplate (inner self) cs
    | '[' :: rest => if startsFor rest then forList self m cs else list (self m.spread) cs
    | '{' :: rest => if startsFor rest then forObject self m cs else object (self .line) cs
    | '(' :: _ => parens (self .inside) cs
    | '<' :: _ => heredoc (inner self) cs
    | '-' :: _ => (negativeLiteral <|> prefixed .negate operand) cs
    | '!' :: _ => prefixed .not operand cs
    | c :: _ =>
      if c.isDigit then numberLiteral cs
      else if Text.isIdentifierStart c then nameOrCall self m cs
      else malformed cs
    | [] => absent cs

/-- Reads a term with any number of operators in front of it. -/
def termWithin (self : Mode → Reader Expr) (m : Mode) : Nat → Reader Expr
  | 0 => absent
  | depth + 1 => termStep self (termWithin self m depth) m

/-- Reads a term; the length of the text bounds the operators in front of it. -/
def term (self : Mode → Reader Expr) (m : Mode) : Reader Expr := bounded (termWithin self m)

/-- Whether line ends may follow a term even where they end the line otherwise: after lists, calls
and every `for`. -/
def opensLines : Expr → Bool
  | .list .. | .call .. | .forList .. | .forObject .. => true
  | .unary _ _ operand => opensLines operand
  | _ => false

/-! ## Steps and operators -/

/-- Reads a number without leading zeros that fits 64 bits. -/
def positionNumber : Reader Nat := ofOption fun cs =>
  match cs with
  | '0' :: rest => some (0, rest)
  | _ =>
    match Number.spanDigits cs with
    | ([], _) => none
    | (ds, rest) =>
      let n := Decimal.digitsValue ds
      if n < Decimal.unsignedLimit then some (n, rest) else none

/-- Reads what follows the point of a step. -/
def pointStep : Reader Step := do
  let space ← white
  match (← ahead).head? with
  | none => absent
  | some '*' => do char '*'; return .attrSplat space
  | some c =>
    if c.isDigit then return .position space (← positionNumber)
    else return .attr space (← commit identifier)

/-- Reads what follows the bracket of a step. -/
def bracketStep (expr : Reader Expr) : Reader Step := do
  let before ← white
  if ← flag '*' then
    let after ← white
    commit (char ']')
    return .fullSplat before after
  else
    let index ← expr
    let after ← white
    commit (char ']')
    return .index ⟨before, index, after⟩

/-- Whether a step into a value starts here. Two points in a row start none. -/
def startsStep : List Char → Bool
  | '.' :: '.' :: _ => false
  | '.' :: _ | '[' :: _ => true
  | _ => false

/-- Reads a step into a value. -/
def step (self : Mode → Reader Expr) : Reader Step := fun cs =>
  match cs with
  | '.' :: rest => pointStep rest
  | '[' :: rest => bracketStep (self .inside) rest
  | _ => .error .absent

/-- Reads steps into a value, each with the trivia in front of it. -/
def steps (self : Mode → Reader Expr) (m : Mode) : Nat → Reader (List (Trivia × Step))
  | 0 => absent
  | rounds + 1 => do
    match ← behind (gap m.newlines) startsStep fun space => (space, ·) <$> step self with
    | some first =>
      let rest ← steps self m rounds
      return first :: rest
    | none => return []

/-- Reads the steps that follow a term, if any; the trivia between steps is not kept. -/
def stepsAfter (self : Mode → Reader Expr) (m : Mode) (subject : Expr) : Reader Expr := do
  match ← bounded (steps self m) with
  | (space, first) :: rest => return .access subject space (first :: rest.map (·.2))
  | [] => return subject

/-- Whether an operator between operands starts here. A single equals sign and a
slash that starts a comment are none. -/
def startsOperator : List Char → Bool
  | '=' :: '=' :: _ => true
  | '/' :: '/' :: _ | '/' :: '*' :: _ => false
  | c :: _ => ['!', '<', '>', '+', '-', '*', '/', '%', '&', '|'].contains c
  | [] => false

/-- Reads an operator between operands. -/
def binaryOp : Reader BinaryOp := fun cs =>
  match cs with
  | '=' :: '=' :: rest => .ok (.eq, rest)
  | '!' :: '=' :: rest => .ok (.notEq, rest)
  | '<' :: '=' :: rest => .ok (.lessEq, rest)
  | '<' :: rest => .ok (.less, rest)
  | '>' :: '=' :: rest => .ok (.greaterEq, rest)
  | '>' :: rest => .ok (.greater, rest)
  | '&' :: '&' :: rest => .ok (.and, rest)
  | '|' :: '|' :: rest => .ok (.or, rest)
  | '+' :: rest => .ok (.add, rest)
  | '-' :: rest => .ok (.sub, rest)
  | '*' :: rest => .ok (.mul, rest)
  | '%' :: rest => .ok (.rem, rest)
  | '/' :: rest => .ok (.div, rest)
  | _ => .error .absent

/-- Reads an operator and its right operand after a left operand, if there is one. -/
def binaryAfter (self : Mode → Reader Expr) (m : Mode) (left : Expr) : Reader Expr := do
  let whole ← behind (gap m.newlines) startsOperator fun before => do
    let op ← binaryOp
    let after ← gap m.newlines
    let right ← self ⟨m.newlines, false⟩
    return .binary left ⟨before, op, after⟩ right
  return whole.getD left

/-- Whether an expression is an operation without parentheses around it. -/
def isBinary : Expr → Bool
  | .binary .. => true
  | _ => false

/-- Reads the branches of a conditional after its test, if there are any. When the test is an
operation, neither branch is a conditional itself. -/
def conditionalAfter (self : Mode → Reader Expr) (m : Mode) (test : Expr) : Reader Expr := do
  let branch := self ⟨m.newlines, !isBinary test⟩
  let whole ← behind (gap m.newlines) (·.head? == some '?') fun beforeMark => do
    char '?'
    let beforeYes ← gap m.newlines
    let yes ← branch
    let afterYes ← gap m.newlines
    commit (char ':')
    let afterColon ← gap m.newlines
    let no ← branch
    return .conditional test beforeMark ⟨beforeYes, yes, afterYes⟩ afterColon no
  return whole.getD test

/-- One level of an expression. -/
def exprStep (self : Mode → Reader Expr) (m : Mode) : Reader Expr := do
  let subject ← term self m
  let m := if opensLines subject then m.spread else m
  let left ← stepsAfter self m subject
  let whole ← binaryAfter self m left
  if m.conditional then conditionalAfter self m whole else return whole

/-- Reads an expression that is nested at most `depth` deep. -/
def exprWithin : Nat → Mode → Reader Expr
  | 0, _ => absent
  | depth + 1, m => exprStep (exprWithin depth) m

/-- Reads an expression; the length of the text bounds its depth. -/
def expr (m : Mode) : Reader Expr := bounded fun depth => exprWithin depth m

/-- Reads a template outside quotes and heredocs. -/
def template : Reader (List Part) := bounded fun depth =>
  parts (inner (exprWithin depth)) .nested

end Reader

/-- The expression that a whole text is, without trivia around it. -/
def Expr.read? (cs : List Char) : Option Expr :=
  Reader.all? (Reader.expr .line) cs

/-- The pieces of the template that a whole text is. -/
def readTemplate? (cs : List Char) : Option (List Part) :=
  Reader.all? Reader.template cs

end HclOverlay.Hcl
