import HclOverlay.Text.HiddenRanges
import HclOverlay.Text.IdentifierRanges

/-!
# Character classes

* `isSpace` — white space in the sense of Unicode (`White_Space`), which decides what a template
  marker strips and how deep a heredoc line is indented.
* `isIdentifierStart`, `isIdentifierContinue` — the characters of an identifier: a letter of any
  script or `_`, then letters, digits, marks, `_` and `-`.
* `isIdentifier` — whether a whole text is one identifier, and so needs no quotes as an object key.
* `isHidden` — characters that do not show by themselves, as controls and combining marks.
* `hexDigit?` — the value of a hexadecimal digit.

The ASCII cases come first in each definition, so that they evaluate without the tables.
-/

namespace HclOverlay.Text

/-- Unicode white space. -/
def isSpace (c : Char) : Bool :=
  let n := c.toNat
  n == 0x20 || (0x09 ≤ n && n ≤ 0x0D) ||
    (0x80 ≤ n &&
      (n == 0x85 || n == 0xA0 || n == 0x1680 || (0x2000 ≤ n && n ≤ 0x200A) ||
        n == 0x2028 || n == 0x2029 || n == 0x202F || n == 0x205F || n == 0x3000))

/-- White space that does not break a line by itself: everything but line feed and carriage
return. -/
def isInlineSpace (c : Char) : Bool :=
  isSpace c && c != '\n' && c != '\r'

/-- Membership of a code point in a list of inclusive ranges. -/
def inRanges (ranges : List (Nat × Nat)) (n : Nat) : Bool :=
  ranges.any fun r => r.1 ≤ n && n ≤ r.2

/-- Characters that may start an identifier: letters and `_`. -/
def isIdentifierStart (c : Char) : Bool :=
  c.isAlpha || c == '_' || (0x80 ≤ c.toNat && inRanges identifierStartRanges c.toNat)

/-- Characters that may continue an identifier: also digits, `-` and combining marks. -/
def isIdentifierContinue (c : Char) : Bool :=
  isIdentifierStart c || c.isDigit || c == '-' ||
    (0x80 ≤ c.toNat && inRanges identifierContinueRanges c.toNat)

/-- Whether the characters form one identifier. -/
def isIdentifierChars : List Char → Bool
  | [] => false
  | c :: rest => isIdentifierStart c && rest.all isIdentifierContinue

/-- Whether a text is one identifier. -/
def isIdentifier (s : String) : Bool :=
  isIdentifierChars s.toList

/-- Characters that do not show by themselves. -/
def isHidden (c : Char) : Bool :=
  c.toNat < 0x20 || c.toNat == 0x7f || (0x80 ≤ c.toNat && inRanges hiddenRanges c.toNat)

/-- The value of a hexadecimal digit. -/
def hexDigit? (c : Char) : Option Nat :=
  if '0' ≤ c && c ≤ '9' then some (c.toNat - '0'.toNat)
  else if 'a' ≤ c && c ≤ 'f' then some (c.toNat - 'a'.toNat + 10)
  else if 'A' ≤ c && c ≤ 'F' then some (c.toNat - 'A'.toNat + 10)
  else none

/-- A start character also continues. -/
theorem isIdentifierContinue_of_start {c : Char} (h : isIdentifierStart c = true) :
    isIdentifierContinue c = true := by
  simp [isIdentifierContinue, h]

end HclOverlay.Text
