import HclOverlay.Hcl.Expr
import HclOverlay.Text.Characters

/-!
# Readers and trivia

A reader takes a value off the front of a text or fails, in one of two ways: what it looks for is
not there, and something else may be tried, or what is there went wrong half-way, and the whole text
is malformed. This module holds the few general readers and those for what stands between tokens.

* `Miss`, `Reader` — the two ways to fail, and readers.
* `r <|> s` — `s` where what `r` looks for is not there; `commit r` — `r` where it must be there.
* *Blanks* (`blank`) are spaces, tabs and `/* */` comments: they stay on the line.
* *White space* (`white`) is blanks, line ends and comments to the end of a line.
* `lineTail` is what may stand behind the last token of a line: blanks and a line comment.
* `identifier` reads a name.
-/

namespace HclOverlay.Hcl

/-- How a reader fails. -/
inductive Miss where
  /-- what it looks for is not there -/
  | absent
  /-- what it looks for is there and goes wrong -/
  | malformed
  deriving DecidableEq

/-- A reader takes a value off the front of a text, or fails. -/
def Reader (α : Type) := List Char → Except Miss (α × List Char)

namespace Reader

instance : Monad Reader where
  pure a := fun cs => .ok (a, cs)
  bind r f := fun cs =>
    match r cs with
    | .ok (a, rest) => f a rest
    | .error m => .error m

instance {α : Type} : OrElse (Reader α) where
  orElse r s := fun cs =>
    match r cs with
    | .error .absent => s () cs
    | found => found

/-! ## General readers -/

/-- Finds nothing. -/
def absent {α : Type} : Reader α := fun _ => .error .absent

/-- Rejects the text. -/
def malformed {α : Type} : Reader α := fun _ => .error .malformed

/-- Reads something that must be there. -/
def commit {α : Type} (r : Reader α) : Reader α := r <|> malformed

/-- Reads what `found` takes off the front of a text, if it finds anything. -/
def ofOption {α : Type} (found : List Char → Option (α × List Char)) : Reader α := fun cs =>
  match found cs with
  | some (a, rest) => .ok (a, rest)
  | none => .error .absent

/-- Reads as much as `split` splits off. -/
def ofSplit {α : Type} (split : List Char → α × List Char) : Reader α := fun cs =>
  .ok (split cs)

/-- Gives a reader the length of the text, as a bound on its steps. -/
def bounded {α : Type} (r : Nat → Reader α) : Reader α := fun cs => r (cs.length + 1) cs

/-- Reads one given character. -/
def char (c : Char) : Reader Unit := fun cs =>
  match cs with
  | d :: rest => if d = c then .ok ((), rest) else .error .absent
  | [] => .error .absent

/-- Takes `expected` off the front of a text. -/
def stripText : List Char → List Char → Option (List Char)
  | [], cs => some cs
  | _ :: _, [] => none
  | e :: es, c :: cs => if e = c then stripText es cs else none

/-- Reads a given text. -/
def text (expected : List Char) : Reader Unit :=
  ofOption fun cs => (stripText expected cs).map ((), ·)

/-- Looks at the text ahead without reading it. -/
def ahead : Reader (List Char) := fun cs => .ok (cs, cs)

/-- Reads something if it is there, and otherwise nothing. -/
def opt {α : Type} (r : Reader α) : Reader (Option α) := fun cs =>
  match r cs with
  | .ok (a, rest) => .ok (some a, rest)
  | .error .absent => .ok (none, cs)
  | .error .malformed => .error .malformed

/-- Whether a given character comes next; reads it if so. -/
def flag (c : Char) : Reader Bool := fun cs =>
  match cs with
  | d :: rest => if d = c then .ok (true, rest) else .ok (false, cs)
  | [] => .ok (false, [])

/-- Looks at what stands behind what `skip` reads. If `starts` holds of it, `r` must read it,
given what was skipped; otherwise nothing is read, and nothing skipped either. -/
def behind {α β : Type} (skip : Reader α) (starts : List Char → Bool) (r : α → Reader β) :
    Reader (Option β) := fun cs =>
  match skip cs with
  | .ok (skipped, rest) =>
    if starts rest then
      match r skipped rest with
      | .ok (b, rest) => .ok (some b, rest)
      | .error m => .error m
    else .ok (none, cs)
  | .error m => .error m

/-- Succeeds only at the end of the text. -/
def endOfText : Reader Unit := fun cs =>
  match cs with
  | [] => .ok ((), [])
  | _ => .error .absent

/-- Runs a reader that must read the whole text. -/
def all? {α : Type} (r : Reader α) (cs : List Char) : Option α :=
  match r cs with
  | .ok (a, []) => some a
  | _ => none

/-! ## Comments -/

/-- Splits off everything up to and including the first `*/`. -/
def closeComment? : List Char → Option (List Char × List Char)
  | [] => none
  | '*' :: '/' :: rest => some (['*', '/'], rest)
  | c :: rest => (closeComment? rest).map fun (body, rest) => (c :: body, rest)

/-- Splits off everything before the line end. A carriage return only stands before a line feed. -/
def tillLineEnd? : List Char → Option (List Char × List Char)
  | [] => some ([], [])
  | '\n' :: rest => some ([], '\n' :: rest)
  | '\r' :: '\n' :: rest => some ([], '\r' :: '\n' :: rest)
  | '\r' :: _ => none
  | c :: rest => (tillLineEnd? rest).map fun (body, rest) => (c :: body, rest)

/-- A comment between `/*` and `*/`. -/
def inlineComment? : List Char → Option (List Char × List Char)
  | '/' :: '*' :: rest => (closeComment? rest).map fun (body, rest) => ('/' :: '*' :: body, rest)
  | _ => none

/-- A comment from `#` or `//` to the end of the line, without the line end. -/
def lineComment? : List Char → Option (List Char × List Char)
  | '#' :: rest => (tillLineEnd? rest).map fun (body, rest) => ('#' :: body, rest)
  | '/' :: '/' :: rest => (tillLineEnd? rest).map fun (body, rest) => ('/' :: '/' :: body, rest)
  | _ => none

/-- Either kind of comment. -/
def comment? (cs : List Char) : Option (List Char × List Char) :=
  match lineComment? cs with
  | some r => some r
  | none => inlineComment? cs

/-! ## Trivia -/

/-- Splits off a run of skipped characters and comments. Every step takes at least one character,
so the length of the text bounds the steps. -/
def spanTrivia (skip : Char → Bool) (comment : List Char → Option (List Char × List Char)) :
    Nat → List Char → List Char × List Char
  | 0, cs => ([], cs)
  | _ + 1, [] => ([], [])
  | steps + 1, c :: rest =>
    if skip c then
      let (more, rest) := spanTrivia skip comment steps rest
      (c :: more, rest)
    else
      match comment (c :: rest) with
      | some (body, rest) =>
        let (more, rest) := spanTrivia skip comment steps rest
        (body ++ more, rest)
      | none => ([], c :: rest)

/-- Space or tab. -/
def isBlankChar (c : Char) : Bool := c == ' ' || c == '\t'

/-- Space, tab, line feed or carriage return. -/
def isWhiteChar (c : Char) : Bool := isBlankChar c || c == '\n' || c == '\r'

/-- Reads blanks: spaces, tabs and inline comments. -/
def blank : Reader Trivia :=
  ofSplit fun cs => spanTrivia isBlankChar inlineComment? cs.length cs

/-- Reads white space: blanks, line ends and line comments. -/
def white : Reader Trivia :=
  ofSplit fun cs => spanTrivia isWhiteChar comment? cs.length cs

/-- Reads blanks, and white space where line ends do not matter. -/
def gap (newlines : Bool) : Reader Trivia := if newlines then white else blank

/-- Reads blanks and a line comment, if one follows. -/
def lineTail : Reader Trivia := do
  let blanks ← blank
  let comment ← opt (ofOption lineComment?)
  return blanks ++ comment.getD []

/-- Reads a line end and returns its characters. -/
def lineEnd : Reader (List Char) := fun cs =>
  match cs with
  | '\n' :: rest => .ok (['\n'], rest)
  | '\r' :: '\n' :: rest => .ok (['\r', '\n'], rest)
  | _ => .error .absent

/-- Reads a line end, or stops at the end of the text; tells which. -/
def lineEndOrEnd : Reader Bool :=
  (do endOfText; return false) <|> (do let _ ← lineEnd; return true)

/-- Reads something with white space on both sides. -/
def padded {α : Type} (r : Reader α) : Reader (Padded α) := do
  let before ← white
  let item ← r
  let after ← white
  return ⟨before, item, after⟩

/-! ## Names -/

/-- Reads an identifier. -/
def identifier : Reader String := fun cs =>
  match cs with
  | c :: rest =>
    if Text.isIdentifierStart c then
      let (more, rest) := rest.span Text.isIdentifierContinue
      .ok (String.ofList (c :: more), rest)
    else .error .absent
  | [] => .error .absent

end Reader

end HclOverlay.Hcl
