/-!
# Lines

A line ends at a line feed, or at a carriage return with a line feed behind it. Any other carriage
return belongs to its line.

* `lines` — the lines of a text without their ends; a line end at the very end starts no line.
* `mapLines` — a text with every line changed and all line ends turned into line feeds.
-/

namespace HclOverlay.Text

/-- Puts a character in front of the first line. -/
def startLine (c : Char) : List (List Char) → List (List Char)
  | [] => [[c]]
  | first :: rest => (c :: first) :: rest

/-- The lines of a text. -/
def lines : List Char → List (List Char)
  | [] => []
  | '\n' :: rest => [] :: lines rest
  | '\r' :: '\n' :: rest => [] :: lines rest
  | c :: rest => startLine c (lines rest)

/-- Whether a text ends in a line feed. -/
def endsInLineFeed (text : List Char) : Bool := text.getLast? == some '\n'

/-- Changes the first line of a text by `first` and every other one by `other`. Line ends become
line feeds, and one at the very end stays. -/
def mapLines (first other : List Char → List Char) (text : List Char) : List Char :=
  let changed := match lines text with
    | [] => []
    | l :: rest => first l :: rest.map other
  List.intercalate ['\n'] changed ++ (if endsInLineFeed text then ['\n'] else [])

/-- A text without line feeds is a single line, unless it is empty. -/
theorem lines_eq_singleton {cs : List Char} (h : '\n' ∉ cs) (hne : cs ≠ []) : lines cs = [cs] := by
  fun_induction lines cs with
  | case1 => exact absurd rfl hne
  | case2 => simp at h
  | case3 => simp at h
  | case4 c rest _ _ ih =>
    rcases rest with _ | ⟨d, rest⟩
    · simp [lines, startLine]
    · rw [ih (fun hm => h (List.mem_cons_of_mem c hm)) (List.cons_ne_nil d rest)]
      rfl

end HclOverlay.Text
