import HclOverlay.Hcl.Reader.Trivia

/-!
# Reading literal text

The text of strings and templates between their markers, with escapes resolved, and number
literals. A backslash that escapes nothing is not an error: it ends a piece of text, and what is
after it is the next piece.

* `TextKind` — where a text stands, which decides what ends it and whether it has backslash
  escapes.
* `literal` — reads text up to a template marker or the end of its kind.
* `quotedText` — a quoted string without template parts, as in block labels.
* `numberLiteral`, `negativeLiteral` — numbers with their spelling.
-/

namespace HclOverlay.Hcl

/-- Where a piece of template text stands. -/
inductive TextKind where
  /-- between double quotes: it has backslash escapes and ends at the closing quote -/
  | quoted
  /-- under a template keyword: it ends at a marker only -/
  | nested
  /-- in a heredoc: it ends before the line of the delimiter -/
  | heredoc (delimiter : List Char)

namespace Reader

/-! ## Characters of strings -/

/-- The value of a row of hexadecimal digits. -/
def hexValue? : List Char → Option Nat :=
  List.foldlM (fun n c => (Text.hexDigit? c).map (16 * n + ·)) 0

/-- The character with a code point, if it is a Unicode scalar value. -/
def scalar? (n : Nat) : Option Char :=
  if h : n.isValidChar then some (Char.ofNatAux n h) else none

/-- The character that `\` and one more character stand for. -/
def simpleEscape? : Char → Option Char
  | 'n' => some '\n'
  | 'r' => some '\r'
  | 't' => some '\t'
  | 'b' => some '\x08'
  | 'f' => some '\x0c'
  | '\\' => some '\\'
  | '"' => some '"'
  | '/' => some '/'
  | _ => none

/-- The character that the first `count` characters give in hexadecimal. -/
def codePoint? (count : Nat) (cs : List Char) : Option Char :=
  let digits := cs.take count
  if digits.length < count then none else (hexValue? digits).bind scalar?

/-- Resolves what follows a backslash: the character, and how many characters it took. -/
def escape? : List Char → Option (Char × Nat)
  | 'u' :: rest => (codePoint? 4 rest).map (·, 5)
  | 'U' :: rest => (codePoint? 8 rest).map (·, 9)
  | c :: _ => (simpleEscape? c).map (·, 1)
  | [] => none

/-- Whether the delimiter of a heredoc stands at the front, after spaces and tabs. -/
def startsDelimiter (delimiter cs : List Char) : Bool :=
  delimiter.isPrefixOf (cs.dropWhile isBlankChar)

/-- Whether text of the given kind ends here. -/
def TextKind.ends : TextKind → List Char → Bool
  | .quoted, cs => cs.head? == some '"'
  | .nested, _ => false
  | .heredoc delimiter, cs =>
    match cs with
    | '\n' :: rest => startsDelimiter delimiter rest
    | '\r' :: '\n' :: rest => startsDelimiter delimiter rest
    | _ => false

/-- Whether backslashes escape in text of the given kind. -/
def TextKind.hasEscapes : TextKind → Bool
  | .quoted => true
  | _ => false

/-- What is left of the text when a bad escape is dropped: the backslash goes with the character
after it, and the digits of a code point stay. -/
def dropEscape (afterBackslash : List Char) : List Char := afterBackslash.drop 1

/-- Whether the text starts with a backslash that escapes nothing. -/
def startsBadEscape : List Char → Bool
  | '\\' :: rest => (escape? rest).isNone
  | _ => false

/-- Splits off literal text: up to a template marker, the end of its kind or the end of the text.
A doubled marker stands for the marker itself. A bad escape ends the text as well and is dropped
with it. The length of the text bounds the steps. -/
def spanLiteral (kind : TextKind) : Nat → List Char → List Char × List Char
  | 0, cs => ([], cs)
  | _ + 1, [] => ([], [])
  | steps + 1, c :: rest =>
    if TextKind.ends kind (c :: rest) then ([], c :: rest)
    else
      match c, rest with
      | '$', '{' :: _ => ([], c :: rest)
      | '%', '{' :: _ => ([], c :: rest)
      | '$', '$' :: '{' :: rest =>
        let (more, rest) := spanLiteral kind steps rest
        ('$' :: '{' :: more, rest)
      | '%', '%' :: '{' :: rest =>
        let (more, rest) := spanLiteral kind steps rest
        ('%' :: '{' :: more, rest)
      | '\\', rest =>
        if TextKind.hasEscapes kind then
          match escape? rest with
          | some (e, taken) =>
            let (more, rest) := spanLiteral kind steps (rest.drop taken)
            (e :: more, rest)
          | none => ([], dropEscape rest)
        else
          let (more, rest) := spanLiteral kind steps rest
          ('\\' :: more, rest)
      | c, rest =>
        let (more, rest) := spanLiteral kind steps rest
        (c :: more, rest)

/-- Reads literal text, at least one character of it; text that starts with a bad escape is
none. -/
def literal (kind : TextKind) : Reader (List Char) := fun cs =>
  if TextKind.hasEscapes kind && startsBadEscape cs then .error .absent
  else
    match spanLiteral kind cs.length cs with
    | ([], _) => .error .absent
    | (text, rest) => .ok (text, rest)

/-- Reads a quoted string that is one piece of text. -/
def quotedText : Reader String := do
  char '"'
  let content ← opt (literal .quoted)
  char '"'
  return String.ofList (content.getD [])

/-! ## Numbers -/

/-- The characters that were read between two states of the text. -/
def consumed (cs rest : List Char) : List Char :=
  cs.take (cs.length - rest.length)

/-- Reads an unsigned number. -/
def numberLiteral : Reader Expr := ofOption fun cs =>
  (Number.readUnsigned? cs).map fun (n, rest) => (.number n (consumed cs rest), rest)

/-- Reads a minus sign with an unsigned number after it, blanks allowed between them. -/
def negativeLiteral : Reader Expr := do
  let cs ← ahead
  char '-'
  let _ ← blank
  let (n, rest) ← ofOption fun digits =>
    (Number.readUnsigned? digits).map fun (n, rest) => ((n, rest), rest)
  return .number n.neg (consumed cs rest)

end Reader

end HclOverlay.Hcl
