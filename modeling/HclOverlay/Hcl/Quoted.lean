/-!
# Quoted strings

Three ways of putting a string between double quotes. All of them escape the quote, the backslash
and the common control characters, and double the `$` or `%` of a template marker.

* `Quoted.escape`, `quote` — for values that are rendered: other control characters stay as they
  are, and every marker is doubled.
* `Quoted.escapeAll`, `quoteAll` — for syntax that is printed: every control character becomes an
  escape sequence, and markers are doubled by `escapeMarkers`.
* `Quoted.escapeData`, `quoteData`, `quoteKey` — for lists and objects that a template turns into
  text: as for printed syntax, but with other spellings of control characters, and a string that
  holds a template marker of its own is not escaped at all.
-/

namespace HclOverlay.Hcl.Quoted

/-! ## Rendering values -/

/-- The escape of one character in a rendered value. -/
def escapeChar : Char → List Char
  | '\\' => ['\\', '\\']
  | '"' => ['\\', '"']
  | '\n' => ['\\', 'n']
  | '\r' => ['\\', 'r']
  | '\t' => ['\\', 't']
  | c => [c]

/-- Escapes a rendered string: a `$` or `%` before `\x7b` is doubled. -/
def escape : List Char → List Char
  | [] => []
  | '$' :: '{' :: rest => '$' :: '$' :: '{' :: escape rest
  | '%' :: '{' :: rest => '%' :: '%' :: '{' :: escape rest
  | c :: rest => escapeChar c ++ escape rest

@[simp] theorem escape_nil : escape [] = [] := rfl

/-- A rendered string with its quotes. -/
def quote (cs : List Char) : List Char :=
  '"' :: (escape cs ++ ['"'])

/-! ## Printing syntax -/

/-- Whether the text starts with a template marker. -/
def startsMarker : List Char → Bool
  | '$' :: '{' :: _ | '%' :: '{' :: _ => true
  | _ => false

/-- Doubles markers, except that a `$` or `%` shields the character after it: that character is
copied and never begins a marker itself. -/
def escapeShielded : List Char → List Char
  | [] => []
  | '$' :: '{' :: rest => '$' :: '$' :: '{' :: escapeShielded rest
  | '%' :: '{' :: rest => '%' :: '%' :: '{' :: escapeShielded rest
  | '$' :: c :: rest => '$' :: c :: escapeShielded rest
  | '%' :: c :: rest => '%' :: c :: escapeShielded rest
  | c :: rest => c :: escapeShielded rest

/-- Doubles the markers of printed text: everything before the first marker is copied, and from
there on characters after a `$` or `%` are shielded. -/
def escapeMarkers : List Char → List Char
  | [] => []
  | c :: rest =>
    if startsMarker (c :: rest) then escapeShielded (c :: rest) else c :: escapeMarkers rest

/-- Four hexadecimal digits. -/
def hex4 (n : Nat) : List Char :=
  let digits := Nat.toDigits 16 n
  List.replicate (4 - digits.length) '0' ++ digits

/-- The escape of one character in printed syntax. -/
def escapeCharAll (c : Char) : List Char :=
  match c with
  | '\\' => ['\\', '\\']
  | '"' => ['\\', '"']
  | '\n' => ['\\', 'n']
  | '\r' => ['\\', 'r']
  | '\t' => ['\\', 't']
  | '\x08' => ['\\', 'b']
  | '\x0c' => ['\\', 'f']
  | c => if c.toNat < 0x20 || c.toNat == 0x7f then '\\' :: 'u' :: (hex4 c.toNat).map Char.toUpper
    else [c]

/-- Escapes printed string content. -/
def escapeAll (cs : List Char) : List Char :=
  (escapeMarkers cs).flatMap escapeCharAll

/-- A printed string with its quotes. -/
def quoteAll (cs : List Char) : List Char :=
  '"' :: (escapeAll cs ++ ['"'])

/-! ## Data in templates -/

/-- Whether a string holds a template marker that is not doubled. The last character of a marker is
the one after its brace: at the very end of the string a brace opens nothing. -/
def isTemplated : List Char → Bool
  | '$' :: '$' :: '{' :: rest => isTemplated rest
  | '%' :: '%' :: '{' :: rest => isTemplated rest
  | '$' :: '{' :: _ :: _ => true
  | '%' :: '{' :: _ :: _ => true
  | _ :: rest => isTemplated rest
  | [] => false

/-- The escape of one character in data: control characters below the space only, with lower-case
digits. -/
def escapeCharData (c : Char) : List Char :=
  match c with
  | '\\' => ['\\', '\\']
  | '"' => ['\\', '"']
  | '\n' => ['\\', 'n']
  | '\r' => ['\\', 'r']
  | '\t' => ['\\', 't']
  | '\x08' => ['\\', 'b']
  | '\x0c' => ['\\', 'f']
  | c => if c.toNat < 0x20 then '\\' :: 'u' :: hex4 c.toNat else [c]

/-- Escapes a string in data. -/
def escapeData (cs : List Char) : List Char :=
  (escapeMarkers cs).flatMap escapeCharData

/-- The key of an object in data with its quotes. -/
def quoteKey (cs : List Char) : List Char :=
  '"' :: (escapeData cs ++ ['"'])

/-- A string in data with its quotes; one that is a template already is not escaped. -/
def quoteData (cs : List Char) : List Char :=
  if isTemplated cs then '"' :: (cs ++ ['"']) else quoteKey cs

end HclOverlay.Hcl.Quoted
