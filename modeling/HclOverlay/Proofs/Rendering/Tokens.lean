import HclOverlay.Proofs.Decimal.Notation
import HclOverlay.Proofs.Reading.Tokens
import HclOverlay.Value.Render

/-!
# The tokens of rendered values

A rendered value has the tokens of its data and its layout, by whatever blanks it is indented: the
blanks stand at the start of a line, between tokens. Numbers need not be readable for this, because
every number is written as a numeral, with a minus sign in front of it or not.

* `Number.toChars_cases`, `Number.tokens` — how numbers are written, and their tokens.
* `Value.isEvaluated` — a value without expressions that are kept as text.
* `Value.tokens` — the tokens of a value; they do not mention an indentation.
* `Value.lexes_chars` — **the text of a value** has them, by induction on the value; in front of
  nothing it has no others (`Value.tokens?_chars`).
-/

namespace HclOverlay

open Hcl Hcl.Reader Decimal

/-- A positive decimal is written as one number. -/
theorem Number.isNumeral_digits (d : Digits) : IsNumeral (layout.digits d) := by
  have hwrites : layout.Writes d.significand d.exponent (layout.digits d) :=
    layout.writes_digits d.significand d.exponent
  have hdigits : ∀ c ∈ digitsOf d.significand, c.isDigit = true := fun _ => isDigit_of_mem_digitsOf
  generalize layout.digits d = text at hwrites
  cases hwrites with
  | @whole first ds k hds _ _ =>
    rw [hds] at hdigits
    have hall : ∀ c ∈ first :: (ds ++ List.replicate k '0'), c.isDigit = true :=
      List.forall_mem_append.2 ⟨hdigits, isDigit_replicate⟩
    exact isNumeral_of_parts (by simp [layout]) (List.cons_ne_nil _ _) hall (.inl rfl) (.inl rfl)
  | @point first ds fraction hall _ _ hne _ _ =>
    obtain ⟨e, es, rfl⟩ := List.exists_cons_of_ne_nil hne
    have hfraction : IsFraction ('.' :: e :: es) :=
      .inr ⟨e, es, rfl, fun c hc => hall c (List.mem_append_right _ hc)⟩
    exact isNumeral_of_parts (List.append_nil _).symm (List.cons_ne_nil first ds)
      (fun c hc => hall c (List.mem_append_left _ hc)) hfraction (.inl rfl)
  | @scientific first ds hds =>
    rw [hds] at hdigits
    have hfront : ∀ c ∈ [first], c.isDigit = true :=
      List.forall_mem_singleton.2 (hdigits first List.mem_cons_self)
    have hfraction : IsFraction (if ds = [] then [] else '.' :: ds) := by
      cases ds with
      | nil => exact .inl rfl
      | cons e es => exact .inr ⟨e, es, rfl, fun c hc => hdigits c (List.mem_cons_of_mem _ hc)⟩
    have hpower : IsPower ('e' :: integerDigits (d.exponent + ds.length)) := .inr ⟨_, rfl⟩
    exact isNumeral_of_parts (by simp [layout]) (List.cons_ne_nil first []) hfront hfraction hpower

/-- **A number is written** as a numeral, or as one behind a minus sign. -/
theorem Number.toChars_cases (n : Number) :
    IsNumeral n.toChars ∨ ∃ digits, n.toChars = '-' :: digits ∧ IsNumeral digits := by
  cases n with
  | belowZero k => exact .inl (isNumeral_digitsOf k)
  | int k =>
    rw [toChars_int, integerDigits]
    split
    · exact .inr ⟨_, rfl, isNumeral_digitsOf _⟩
    · exact .inl (isNumeral_digitsOf _)
  | float x =>
    have hdigits : ∃ digits, IsNumeral digits ∧
        layout.write x = (if signBit x then ['-'] else []) ++ digits := by
      unfold Layout.write
      dsimp only
      split
      · exact ⟨['0'], isNumeral_digitsOf 0, by simp [layout]⟩
      · exact ⟨_, isNumeral_digits _, rfl⟩
    obtain ⟨digits, hnumeral, heq⟩ := hdigits
    show IsNumeral (layout.write x) ∨ ∃ digits, layout.write x = _ ∧ _
    rw [heq]
    split
    · exact .inr ⟨digits, rfl, hnumeral⟩
    · exact .inl hnumeral

/-- The tokens of a number: its sign is one of its own. -/
def Number.tokens (n : Number) : List Token :=
  match n.toChars with
  | '-' :: digits => [.mark ['-'], .number digits]
  | digits => [.number digits]

section

variable {self : Mode → Reader Expr} {rest : List Char} {ts : List Token}

theorem Number.lexes_toChars (n : Number) (hrest : Apart rest) (h : Lexes self rest ts) :
    Lexes self (n.toChars ++ rest) (n.tokens ++ ts) := by
  rcases n.toChars_cases with hdigits | ⟨digits, heq, hdigits⟩
  · have htokens : n.tokens = [.number n.toChars] := by
      unfold tokens
      split
      · next ds heq =>
        -- a numeral does not start with a sign
        obtain ⟨d, tail, hcons, hd⟩ := hdigits.eq_cons
        rw [heq] at hcons
        rw [← (List.cons.inj hcons).1] at hd
        cases hd
      · rfl
    rw [htokens]
    exact .number hdigits hrest h
  · have htokens : n.tokens = [.mark ['-'], .number digits] := by
      simp only [tokens, heq]
    rw [htokens, heq]
    exact .mark (by decide) (.number hdigits hrest h)

namespace Value

/-! ## Values -/

mutual

/-- Whether a value holds no expression that is kept as text. -/
def isEvaluated : Value → Bool
  | .unevaluated _ => false
  | .list items => itemsAreEvaluated items
  | .object fields => fieldsAreEvaluated fields
  | _ => true
termination_by structural v => v

/-- Whether no item holds such an expression. -/
def itemsAreEvaluated : List Value → Bool
  | [] => true
  | item :: rest => item.isEvaluated && itemsAreEvaluated rest
termination_by structural items => items

/-- Whether no field holds such an expression. -/
def fieldsAreEvaluated : List (String × Value) → Bool
  | [] => true
  | field :: rest => fieldIsEvaluated field && fieldsAreEvaluated rest
termination_by structural fields => fields

/-- Whether the value of a field holds no such expression. -/
def fieldIsEvaluated : String × Value → Bool
  | (_, value) => value.isEvaluated
termination_by structural field => field

end

/-- The token of a key. -/
def keyToken (key : String) : Token :=
  if Text.isIdentifier key then .name key else .template (Quoted.quote key.toList)

mutual

/-- The tokens of a value. -/
def tokens : Value → List Token
  | .null => [.name "null"]
  | .bool true => [.name "true"]
  | .bool false => [.name "false"]
  | .number n => n.tokens
  | .string s => [.template (Quoted.quote s.toList)]
  | .unevaluated source => (tokens? source.toList).getD []
  | .list [] => [.mark ['['], .mark [']']]
  | .list (first :: rest) =>
    if (first :: rest).all isScalar then
      .mark ['['] :: (tokens first ++ inlineTokens rest ++ [.mark [']']])
    else
      .mark ['['] :: .lineEnd :: (lineTokens (first :: rest) ++ [.mark [']']])
  | .object [] => [.mark ['{'], .mark ['}']]
  | .object (first :: rest) =>
    .mark ['{'] :: .lineEnd :: (fieldsTokens (first :: rest) ++ [.mark ['}']])
termination_by structural v => v

/-- The tokens of further items of a list that takes one line. -/
def inlineTokens : List Value → List Token
  | [] => []
  | item :: rest => .mark [','] :: (tokens item ++ inlineTokens rest)
termination_by structural items => items

/-- The tokens of items on a line each. -/
def lineTokens : List Value → List Token
  | [] => []
  | item :: rest => tokens item ++ .mark [','] :: .lineEnd :: lineTokens rest
termination_by structural items => items

/-- The tokens of fields on a line each. -/
def fieldsTokens : List (String × Value) → List Token
  | [] => []
  | field :: rest => fieldTokens field ++ .lineEnd :: fieldsTokens rest
termination_by structural fields => fields

/-- The tokens of one field. -/
def fieldTokens : String × Value → List Token
  | (key, value) => keyToken key :: .mark ['='] :: tokens value
termination_by structural field => field

end

/-! ## Rendered values -/

theorem lexes_key (key : String) (h : Lexes self (' ' :: rest) ts) :
    Lexes self (keyChars key ++ ' ' :: rest) (keyToken key :: ts) := by
  unfold keyChars keyToken
  split
  · next hname =>
    have hread := Lexes.name _ hname (apart_cons (by decide) (by decide)) h
    rwa [String.ofList_toList] at hread
  · exact .string _ h

theorem apart_inlineItems (w : List Char) (items : List Value) (hrest : Apart rest) :
    Apart (inlineItems w items ++ rest) := by
  cases items with
  | nil => exact hrest
  | cons item more => exact apart_cons (by decide) (by decide)

theorem skips_indentStep {w : List Char} (hw : Skips false w) : Skips false (w ++ indentStep) :=
  hw.append (.skip rfl (.skip rfl .nil))

mutual

/-- **The text of a value** has the tokens of the value, by whatever blanks it is indented, in front
of anything that does not go on with a name or a number. -/
theorem lexes_chars (v : Value) (hv : v.isEvaluated = true) {w : List Char} (hw : Skips false w)
    {rest : List Char} {ts : List Token} (hrest : Apart rest) (h : Lexes self rest ts) :
    Lexes self (v.chars w ++ rest) (v.tokens ++ ts) := by
  match v with
  | .null => exact .name ['n', 'u', 'l', 'l'] rfl hrest h
  | .bool true => exact .name ['t', 'r', 'u', 'e'] rfl hrest h
  | .bool false => exact .name ['f', 'a', 'l', 's', 'e'] rfl hrest h
  | .number n => exact n.lexes_toChars hrest h
  | .string s => exact .string _ h
  | .unevaluated _ => cases hv
  | .list [] => exact .mark (by decide) (.mark (by decide) h)
  | .list (first :: more) =>
    have hitems : itemsAreEvaluated (first :: more) = true := hv
    have hclosing : Lexes self (']' :: rest) (.mark [']'] :: ts) := .mark (by decide) h
    rw [chars, tokens]
    split
    · rw [itemsAreEvaluated, Bool.and_eq_true] at hitems
      have hapart : Apart (']' :: rest) := apart_cons (by decide) (by decide)
      have hmore := lexes_inline more hitems.2 hw hapart hclosing
      have hfirst := lexes_chars first hitems.1 hw (apart_inlineItems w more hapart) hmore
      simpa using Lexes.mark (c := '[') (by decide) hfirst
    · have hlines := lexes_lines (first :: more) hitems (skips_indentStep hw) (hclosing.blanks hw)
      simpa using Lexes.mark (c := '[') (by decide) hlines.lineFeed
  | .object [] => exact .mark (by decide) (.mark (by decide) h)
  | .object (first :: more) =>
    have hclosing : Lexes self ('}' :: rest) (.mark ['}'] :: ts) := .mark (by decide) h
    have hlines := lexes_fields (first :: more) hv (skips_indentStep hw) (hclosing.blanks hw)
    rw [chars, tokens]
    simpa using Lexes.mark (c := '{') (by decide) hlines.lineFeed
termination_by structural v

theorem lexes_inline (items : List Value) (hitems : itemsAreEvaluated items = true) {w : List Char}
    (hw : Skips false w) {rest : List Char} {ts : List Token} (hrest : Apart rest)
    (h : Lexes self rest ts) :
    Lexes self (inlineItems w items ++ rest) (inlineTokens items ++ ts) := by
  match items with
  | [] => exact h
  | item :: more =>
    rw [itemsAreEvaluated, Bool.and_eq_true] at hitems
    have hmore := lexes_inline more hitems.2 hw hrest h
    have hitem := lexes_chars item hitems.1 hw (apart_inlineItems w more hrest) hmore
    rw [inlineItems, inlineTokens]
    simpa using Lexes.mark (c := ',') (by decide) hitem.space
termination_by structural items

theorem lexes_lines (items : List Value) (hitems : itemsAreEvaluated items = true) {w : List Char}
    (hw : Skips false w) {rest : List Char} {ts : List Token} (h : Lexes self rest ts) :
    Lexes self (lineItems w items ++ rest) (lineTokens items ++ ts) := by
  match items with
  | [] => exact h
  | item :: more =>
    rw [itemsAreEvaluated, Bool.and_eq_true] at hitems
    have hmore := lexes_lines more hitems.2 hw h
    have hend := Lexes.mark (c := ',') (by decide) hmore.lineFeed
    have hitem := lexes_chars item hitems.1 hw (apart_cons (by decide) (by decide)) hend
    rw [lineItems, lineTokens]
    simpa using hitem.blanks hw
termination_by structural items

theorem lexes_fields (fields : List (String × Value)) (hfields : fieldsAreEvaluated fields = true)
    {w : List Char} (hw : Skips false w) {rest : List Char} {ts : List Token}
    (h : Lexes self rest ts) :
    Lexes self (lineFields w fields ++ rest) (fieldsTokens fields ++ ts) := by
  match fields with
  | [] => exact h
  | field :: more =>
    rw [fieldsAreEvaluated, Bool.and_eq_true] at hfields
    have hmore := lexes_fields more hfields.2 hw h
    have hapart : Apart ('\n' :: (lineFields w more ++ rest)) :=
      apart_cons (by decide) (by decide)
    have hfield := lexes_field field hfields.1 hw hapart hmore.lineFeed
    rw [lineFields, fieldsTokens]
    simpa using hfield.blanks hw
termination_by structural fields

theorem lexes_field (field : String × Value) (hfield : fieldIsEvaluated field = true)
    {w : List Char} (hw : Skips false w) {rest : List Char} {ts : List Token} (hrest : Apart rest)
    (h : Lexes self rest ts) :
    Lexes self (fieldChars w field ++ rest) (fieldTokens field ++ ts) := by
  match field with
  | (key, value) =>
    have hvalue := lexes_chars value hfield hw hrest h
    have hkey := lexes_key key hvalue.space.equals.space
    rw [fieldChars, fieldTokens]
    simpa using hkey
termination_by structural field

end

/-- The text of a value has the tokens of the value and no others. -/
theorem tokens?_chars {v : Value} (hv : v.isEvaluated = true) {w : List Char}
    (hw : Skips false w) : tokens? (v.chars w) = some v.tokens := by
  refine tokens?_of_lexes fun self => ?_
  have hread : Lexes self (v.chars w ++ []) (v.tokens ++ []) :=
    lexes_chars v hv hw (by simp [Apart]) .nil
  rwa [List.append_nil, List.append_nil] at hread

end Value

end

end HclOverlay
