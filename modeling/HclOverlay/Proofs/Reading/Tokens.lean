import HclOverlay.Proofs.Documents.Rules
import HclOverlay.Proofs.Reading.Literal

/-!
# Tokens

Blanks and comments between tokens do not count, so the tokens of an expression are what is left of
its text without them. Line ends do count: between braces they separate entries. A string is one
token and holds its blanks, as do a template and a heredoc.

* `Token`, `tokens?` — the tokens of a text.
* `IsNumeral` — a text that is one number; `isNumeral_of_parts` says what it is made of.
* `Lexes` — that a text has given tokens, with any number of rounds that suffices. There is one
  lemma for each kind of token in front of a text whose tokens are known, and `Lexes.blanks` for
  blanks.
-/

namespace HclOverlay

namespace Hcl

/-- A token of an expression. -/
inductive Token where
  /-- an identifier or a keyword -/
  | name (name : String)
  /-- a number without its sign, as it is written -/
  | number (digits : List Char)
  /-- a string, a template or a heredoc, as it is written -/
  | template (written : List Char)
  /-- an operator, a bracket or a separator -/
  | mark (chars : List Char)
  /-- the end of a line -/
  | lineEnd
  deriving DecidableEq

/-- Operators, brackets and separators, each before those that it starts with. -/
def marks : List (List Char) :=
  [['.', '.', '.'], ['=', '='], ['=', '>'], ['!', '='], ['<', '='], ['>', '='], ['&', '&'],
    ['|', '|'], [':', ':'], ['('], [')'], ['['], [']'], ['{'], ['}'], [','], ['.'], [':'], ['?'],
    ['='], ['!'], ['<'], ['>'], ['+'], ['-'], ['*'], ['/'], ['%']]

namespace Reader

open Decimal Number

/-! ## Reading tokens -/

/-- Reads what `r` reads, as it is written. -/
def verbatim {α : Type} (r : Reader α) : Reader (List Char) := fun cs =>
  match r cs with
  | .ok (_, rest) => .ok (consumed cs rest, rest)
  | .error m => .error m

/-- What is left behind a point with digits, if there is one. -/
def afterFraction : List Char → List Char
  | '.' :: cs =>
    match spanDigits cs with
    | ([], _) => '.' :: cs
    | (_, rest) => rest
  | cs => cs

/-- What is left behind a power of ten, if there is one. -/
def afterPower (cs : List Char) : List Char :=
  match readPower? cs with
  | some (_, rest) => rest
  | none => cs

/-- Reads digits with a fraction and a power of ten, each of them if it is there. -/
def numeral : Reader (List Char) := fun cs =>
  match spanDigits cs with
  | ([], _) => .error .absent
  | (_, rest) =>
    let rest := afterPower (afterFraction rest)
    .ok (consumed cs rest, rest)

/-- Reads an operator, a bracket or a separator. -/
def mark : Reader Token :=
  marks.foldr (fun chars r => (do text chars; return .mark chars) <|> r) absent

/-- Reads one token, given a reader for the expressions inside templates. -/
def token (self : Mode → Reader Expr) : Reader Token :=
  (do let _ ← lineEnd; return .lineEnd) <|>
  (do return .name (← identifier)) <|>
  (do return .number (← numeral)) <|>
  (do return .template (← verbatim (quotedTemplate (inner self)))) <|>
  (do return .template (← verbatim (heredoc (inner self)))) <|>
  mark

/-- Reads as many tokens as there are, without the blanks and comments around them. -/
def tokensUpTo (self : Mode → Reader Expr) : Nat → Reader (List Token)
  | 0 => absent
  | rounds + 1 => do
    let _ ← lineTail
    match ← opt (token self) with
    | some first =>
      let rest ← tokensUpTo self rounds
      return first :: rest
    | none => return []

end Reader

/-- The tokens of a text, if it consists of tokens. -/
def tokens? (cs : List Char) : Option (List Token) :=
  Reader.all? (Reader.bounded fun rounds => Reader.tokensUpTo (Reader.exprWithin rounds) rounds) cs

namespace Reader

open Decimal Number

variable {self : Mode → Reader Expr} {cs rest : List Char} {t : Token} {ts : List Token}

/-! ## Numerals -/

/-- A text that is one number in front of anything that does not go on with it. -/
def IsNumeral (digits : List Char) : Prop :=
  ∀ rest, Apart rest → numeral (digits ++ rest) = .ok (digits, rest)

/-- The point and digits behind it, if there are any. -/
def IsFraction (cs : List Char) : Prop :=
  cs = [] ∨ ∃ d ds, cs = '.' :: d :: ds ∧ ∀ c ∈ d :: ds, c.isDigit = true

/-- The mark of a power of ten and an integer, if there is one. -/
def IsPower (cs : List Char) : Prop := cs = [] ∨ ∃ k : Int, cs = 'e' :: integerDigits k

theorem afterPower_append {power : List Char} (hpower : IsPower power) (hrest : Apart rest) :
    afterPower (power ++ rest) = rest := by
  rcases hpower with rfl | ⟨k, rfl⟩
  · rw [List.nil_append, afterPower, hrest.readPower?]
  · rw [List.cons_append, afterPower, readPower?_integerDigits k hrest.not_digit]

theorem afterFraction_append {fraction more : List Char} (hfraction : IsFraction fraction)
    (hmore : ∀ c ∈ more.head?, c.isDigit = false ∧ c ≠ '.') :
    afterFraction (fraction ++ more) = more := by
  rcases hfraction with rfl | ⟨d, ds, rfl, hdigits⟩
  · cases more with
    | nil => rfl
    | cons c more => exact afterFraction.eq_2 _ fun _ heq => (hmore c rfl).2 (List.cons.inj heq).1
  · rw [List.cons_append, afterFraction,
      spanDigits_append hdigits fun c hc => (hmore c hc).1]

/-- Digits, a fraction and a power are a number. -/
theorem isNumeral_of_parts {digits fraction power : List Char}
    (htext : cs = digits ++ fraction ++ power) (hne : digits ≠ [])
    (hdigits : ∀ c ∈ digits, c.isDigit = true) (hfraction : IsFraction fraction)
    (hpower : IsPower power) : IsNumeral cs := by
  intro rest hrest
  have hmore : ∀ c ∈ (power ++ rest).head?, c.isDigit = false ∧ c ≠ '.' := by
    rcases hpower with rfl | ⟨k, rfl⟩
    · exact fun c hc => ⟨hrest.not_digit c hc, (hrest c hc).2⟩
    · rintro c ⟨⟩
      decide
  have hnext : ∀ c ∈ (fraction ++ (power ++ rest)).head?, c.isDigit = false := by
    rcases hfraction with rfl | ⟨d, ds, rfl, -⟩
    · exact fun c hc => (hmore c hc).1
    · rintro c ⟨⟩
      rfl
  obtain ⟨d, ds, rfl⟩ := List.exists_cons_of_ne_nil hne
  have hspan := spanDigits_append hdigits hnext
  have hwhole : cs ++ rest = d :: ds ++ (fraction ++ (power ++ rest)) := by
    simp only [htext, List.append_assoc]
  unfold numeral
  rw [hwhole, hspan]
  dsimp only
  rw [afterFraction_append hfraction hmore, afterPower_append hpower hrest, ← hwhole,
    consumed_append]

/-- A number starts with a digit. -/
theorem isDigit_of_numeral {digits : List Char} (h : numeral cs = .ok (digits, rest)) :
    ∃ d tail, cs = d :: tail ∧ d.isDigit = true := by
  cases cs with
  | nil => cases h
  | cons d tail =>
    refine ⟨d, tail, rfl, ?_⟩
    by_contra hd
    have hspan : spanDigits (d :: tail) = ([], d :: tail) := by
      simp [spanDigits, List.span_eq_takeWhile_dropWhile, hd]
    rw [numeral, hspan] at h
    cases h

theorem IsNumeral.eq_cons {digits : List Char} (h : IsNumeral digits) :
    ∃ d ds, digits = d :: ds ∧ d.isDigit = true := by
  have hread := h [] (by simp [Apart])
  rw [List.append_nil] at hread
  exact isDigit_of_numeral hread

theorem isNumeral_digitsOf (n : Nat) : IsNumeral (digitsOf n) :=
  isNumeral_of_parts (by simp) (digitsOf_ne_nil n) (fun _ => isDigit_of_mem_digitsOf) (.inl rfl)
    (.inl rfl)

/-! ## Rounds -/

/-- A text has the given tokens, however many rounds there are for them. -/
def Lexes (self : Mode → Reader Expr) (cs : List Char) (ts : List Token) : Prop :=
  ∀ rounds, cs.length < rounds → tokensUpTo self rounds cs = .ok (ts, [])

theorem tokens?_of_lexes (h : ∀ self, Lexes self cs ts) : tokens? cs = some ts :=
  all?_eq_some.2 (h _ _ (Nat.lt_succ_self _))

/-- Blanks are skipped with those behind them. -/
theorem lineTail_blanks {w : List Char} (hw : Skips false w) :
    lineTail (w ++ cs) = (lineTail cs).map fun (t, rest) => (w ++ t, rest) := by
  have hblanks : blank (w ++ cs) = .ok (w ++ (gapSpan false cs).1, (gapSpan false cs).2) :=
    congrArg Except.ok (hw.gapSpan_append cs)
  have hblank : blank cs = .ok ((gapSpan false cs).1, (gapSpan false cs).2) := rfl
  rw [lineTail, bind_ok hblanks, bind_ok hblank, bind_apply, bind_apply]
  cases opt (ofOption lineComment?) (gapSpan false cs).2 with
  | error m => rfl
  | ok found => simp [Except.map]

/-- No line ends where a token starts. -/
theorem lineEnd_absent {c : Char} (hc : startsToken c = true) (tail : List Char) :
    lineEnd (c :: tail) = .error .absent := by
  refine lineEnd.eq_3 _ (fun rest heq => ?_) fun rest heq => ?_ <;>
    (obtain ⟨rfl, -⟩ := List.cons.inj heq; cases hc)

/-! A kind of token is read where none of those that are tried before it is there. -/

theorem token_name {name : String} (hline : lineEnd cs = .error .absent)
    (hname : identifier cs = .ok (name, rest)) : token self cs = .ok (.name name, rest) := by
  rw [token, orElse_absent (bind_error hline _)]
  exact orElse_ok (bind_ok hname _) _

theorem token_number {digits : List Char} (hline : lineEnd cs = .error .absent)
    (hname : identifier cs = .error .absent) (hnumber : numeral cs = .ok (digits, rest)) :
    token self cs = .ok (.number digits, rest) := by
  rw [token, orElse_absent (bind_error hline _), orElse_absent (bind_error hname _)]
  exact orElse_ok (bind_ok hnumber _) _

theorem token_template {text : List Char} {e : Expr}
    (hline : lineEnd (text ++ rest) = .error .absent)
    (hname : identifier (text ++ rest) = .error .absent)
    (hnumber : numeral (text ++ rest) = .error .absent)
    (htemplate : quotedTemplate (inner self) (text ++ rest) = .ok (e, rest)) :
    token self (text ++ rest) = .ok (.template text, rest) := by
  have hverbatim : verbatim (quotedTemplate (inner self)) (text ++ rest) = .ok (text, rest) := by
    simp only [verbatim, htemplate, consumed_append]
  rw [token, orElse_absent (bind_error hline _), orElse_absent (bind_error hname _),
    orElse_absent (bind_error hnumber _)]
  exact orElse_ok (bind_ok hverbatim _) _

namespace Lexes

theorem nil : Lexes self [] [] := by
  intro rounds h
  obtain ⟨rounds, rfl⟩ := Nat.exists_eq_add_of_le' (Nat.succ_le_of_lt h)
  rfl

/-- One round, on a text that starts with a token. -/
theorem cons (hends : Ends false cs) (hcomment : lineComment? cs = none)
    (htoken : token self cs = .ok (t, rest)) (hlen : rest.length < cs.length)
    (h : Lexes self rest ts) : Lexes self cs (t :: ts) := by
  intro rounds hrounds
  obtain ⟨rounds, rfl⟩ := Nat.exists_eq_add_of_le' (Nat.succ_le_of_lt (Nat.zero_lt_of_lt hrounds))
  have htail : lineTail cs = .ok ([], cs) := by
    rw [lineTail, bind_ok hends.blank, bind_ok (opt_absent (by rw [ofOption, hcomment]))]
    rfl
  rw [tokensUpTo, bind_ok htail, bind_ok (opt_ok htoken)]
  show (tokensUpTo self rounds >>= _) rest = _
  rw [bind_ok (h rounds (by omega))]
  rfl

/-- Blanks in front of tokens do not count. -/
theorem blanks {w : List Char} (hw : Skips false w) (h : Lexes self cs ts) :
    Lexes self (w ++ cs) ts := by
  intro rounds hrounds
  rw [List.length_append] at hrounds
  rw [← h rounds (by omega)]
  obtain ⟨rounds, rfl⟩ := Nat.exists_eq_add_of_le' (Nat.succ_le_of_lt (Nat.zero_lt_of_lt hrounds))
  rw [tokensUpTo, bind_apply, bind_apply, lineTail_blanks hw]
  cases lineTail cs <;> rfl

/-- One round, on a text whose first character is that of a token. -/
theorem token {c : Char} {tail : List Char} (hc : startsToken c = true)
    (htoken : Reader.token self (c :: tail) = .ok (t, rest)) (hlen : rest.length ≤ tail.length)
    (h : Lexes self rest ts) : Lexes self (c :: tail) (t :: ts) := by
  have hslash : c ≠ '/' := by
    rintro rfl
    cases hc
  have hhash : c ≠ '#' := by
    rintro rfl
    cases hc
  exact cons (ends_of_startsToken hc false tail) (lineComment?_of_ne hslash hhash tail) htoken
    (Nat.lt_succ_of_le hlen) h

theorem lineFeed (h : Lexes self rest ts) : Lexes self ('\n' :: rest) (.lineEnd :: ts) :=
  cons (ends_line rfl) rfl rfl (Nat.lt_succ_self _) h

theorem space (h : Lexes self rest ts) : Lexes self (' ' :: rest) ts :=
  blanks (w := [' ']) (.skip rfl .nil) h

theorem name (name : List Char) (hname : Text.isIdentifierChars name = true) (hrest : Apart rest)
    (h : Lexes self rest ts) : Lexes self (name ++ rest) (.name (String.ofList name) :: ts) := by
  have hread := identifier_ok hname fun c hc => (hrest c hc).1
  cases name with
  | nil => cases hname
  | cons c more =>
    have hstart := startsToken_of_isIdentifierStart (Bool.and_eq_true_iff.1 hname).1
    exact token hstart (token_name (lineEnd_absent hstart _) hread) (by simp) h

theorem number {digits : List Char} (hdigits : IsNumeral digits) (hrest : Apart rest)
    (h : Lexes self rest ts) : Lexes self (digits ++ rest) (.number digits :: ts) := by
  have hread := hdigits rest hrest
  obtain ⟨d, ds, rfl, hd⟩ := hdigits.eq_cons
  have hstart := startsToken_of_isDigit hd
  have hname : identifier (d :: ds ++ rest) = .error .absent := by
    refine identifier_absent fun c hc => ?_
    obtain rfl : d = c := Option.some.inj hc
    by_contra hne
    rw [isDigit_of_isIdentifierStart (by simpa using hne)] at hd
    cases hd
  exact token hstart (token_number (lineEnd_absent hstart _) hname hread) (by simp) h

/-- A rendered string. -/
theorem string (s : List Char) (h : Lexes self rest ts) :
    Lexes self (Quoted.quote s ++ rest) (.template (Quoted.quote s) :: ts) := by
  have hread : quotedTemplate (inner self) (Quoted.quote s ++ rest) =
      .ok (.string (String.ofList s), rest) :=
    orElse_ok (bind_ok (quotedText_quote s rest) _) _
  have hlen : rest.length ≤ (Quoted.escape s ++ ['"'] ++ rest).length := by
    rw [List.length_append]
    exact Nat.le_add_left _ _
  exact token rfl (token_template rfl rfl rfl hread) hlen h

/-- Marks that start no other mark. -/
theorem mark {c : Char} (hc : c ∈ ['[', ']', '{', '}', ',', '-']) (h : Lexes self rest ts) :
    Lexes self (c :: rest) (.mark [c] :: ts) := by
  have hread : Reader.token self (c :: rest) = .ok (.mark [c], rest) := by
    simp only [List.mem_cons, List.not_mem_nil, or_false] at hc
    rcases hc with rfl | rfl | rfl | rfl | rfl | rfl <;> rfl
  have hstart : startsToken c = true := by
    simp only [List.mem_cons, List.not_mem_nil, or_false] at hc
    rcases hc with rfl | rfl | rfl | rfl | rfl | rfl <;> rfl
  exact token hstart hread (Nat.le_refl _) h

/-- An equals sign that starts no operator. -/
theorem equals (h : Lexes self (' ' :: rest) ts) :
    Lexes self ('=' :: ' ' :: rest) (.mark ['='] :: ts) :=
  token (c := '=') rfl rfl (Nat.le_refl _) h

end Lexes

end Reader

/-- Blanks and comments between tokens are dropped; those in a template are part of it. -/
example : tokens? "f( \"a $\x7b x \x7d\" ) # c\n>= 1.5e-3".toList =
    some [.name "f", .mark ['('],
      .template ['"', 'a', ' ', '$', '{', ' ', 'x', ' ', '}', '"'], .mark [')'], .lineEnd,
      .mark ['>', '='], .number ['1', '.', '5', 'e', '-', '3']] := by
  decide +kernel

end Hcl

end HclOverlay
