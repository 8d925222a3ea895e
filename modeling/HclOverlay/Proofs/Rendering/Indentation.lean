import HclOverlay.Proofs.Rendering.Lines
import HclOverlay.Proofs.Rendering.Tokens

/-!
# Indentation and content

The indentation a value is rendered at is no part of its content: it is put after each line feed of
the text without indentation, and changes nothing else. The line feeds are those of the layout, one
in front of each entry that has a line of its own and one in front of a bracket that closes such
lines; what strings and keys hold adds none, because it is escaped.

* `indented` — a text with its further lines indented.
* `Value.chars_append` — **rendering deeper** is rendering, and then indenting; by induction on the
  value, for any indentation that is there already.
* `Value.lineBreaks`, `Value.count_chars` — the number of line feeds, by the layout alone.
* `Value.indentation_is_orthogonal` — what indentation does and does not do.
-/

namespace HclOverlay

open Hcl Hcl.Reader

/-! ## Indenting a text -/

/-- The text with `w` after every line feed. -/
def indented (w text : List Char) : List Char :=
  text.flatMap fun c => if c = '\n' then '\n' :: w else [c]

section

variable {w x y : List Char}

theorem indented_append : indented w (x ++ y) = indented w x ++ indented w y :=
  List.flatMap_append

theorem indented_lineFeed : indented w ('\n' :: x) = '\n' :: (w ++ indented w x) := rfl

theorem indented_cons_of_ne {c : Char} (hc : c ≠ '\n') :
    indented w (c :: x) = c :: indented w x := by
  rw [indented, List.flatMap_cons, if_neg hc]
  rfl

theorem indented_of_not_mem (h : '\n' ∉ x) : indented w x = x := by
  induction x with
  | nil => rfl
  | cons c x ih =>
    rw [List.mem_cons, not_or] at h
    rw [indented_cons_of_ne (Ne.symm h.1), ih h.2]

/-- Further lines of an indented text start with the indentation. -/
theorem continuesAt_indented (hw : '\n' ∉ w) (text : List Char) :
    ContinuesAt w (indented w text) := by
  induction text with
  | nil => exact continuesAt_of_not_mem List.not_mem_nil
  | cons c text ih =>
    rw [indented, List.flatMap_cons]
    split
    · exact continuesAt_cons.2
        ⟨fun _ => List.prefix_append w _, (continuesAt_append hw).2 ih⟩
    · next hc => exact continuesAt_cons.2 ⟨fun heq => absurd heq hc, ih⟩

end

/-! ## Strings and keys -/

/-- A string is written on one line. -/
theorem Hcl.Quoted.quote_not_mem (cs : List Char) : '\n' ∉ quote cs := by
  have hescape : '\n' ∉ escape cs := by
    fun_induction escape cs with
    | case1 => exact List.not_mem_nil
    | case2 rest ih | case3 rest ih => simpa using ih
    | case4 c rest _ _ ih =>
      have hchar : '\n' ∉ escapeChar c := by
        unfold escapeChar
        split
        case h_6 hfeed _ _ => simpa using Ne.symm hfeed
        all_goals decide
      rw [List.mem_append, not_or]
      exact ⟨hchar, ih⟩
  simp [quote, hescape]

namespace Value

/-- A key is written on one line. -/
theorem keyChars_not_mem (key : String) : '\n' ∉ keyChars key := by
  unfold keyChars
  split
  · next hname =>
    obtain ⟨-, -, -, -, hfeed, -⟩ := isIdentifier_toList hname
    exact hfeed
  · exact Quoted.quote_not_mem _

/-- What is neither a list nor an object is written on one line. -/
theorem chars_not_mem {v : Value} (hv : v.isEvaluated = true) (hscalar : v.isScalar = true)
    (w : List Char) : '\n' ∉ v.chars w := by
  cases v with
  | null => simp [chars]
  | bool b => cases b <;> simp [chars]
  | number n => exact n.toChars_not_mem
  | string s => exact Quoted.quote_not_mem _
  | list _ | object _ => cases hscalar
  | unevaluated _ => cases hv

/-! ## Rendering deeper -/

variable {w u : List Char}

/-- One level more is an indentation again. -/
theorem indentStep_not_mem (hu : '\n' ∉ u) : '\n' ∉ u ++ indentStep := by
  simp [indentStep, hu]

/-- Lines between brackets, the closing one on a line of its own. -/
theorem indented_lines {opening closing : Char} {x y : List Char} (hopening : opening ≠ '\n')
    (hclosing : closing ≠ '\n') (hu : '\n' ∉ u) (h : x ++ w = w ++ indented w y) :
    opening :: '\n' :: (x ++ (w ++ u) ++ [closing]) =
      indented w (opening :: '\n' :: (y ++ u ++ [closing])) := by
  have hlast : '\n' ∉ u ++ [closing] := by simp [hu, hclosing.symm]
  rw [indented_cons_of_ne hopening, indented_lineFeed, List.append_assoc y, indented_append,
    indented_of_not_mem hlast, ← List.append_assoc w, ← h]
  simp only [List.append_assoc]

mutual

/-- **Rendering deeper** puts what is added to the indentation behind each line feed. -/
theorem chars_append (v : Value) (hv : v.isEvaluated = true) (w : List Char) {u : List Char}
    (hu : '\n' ∉ u) : v.chars (w ++ u) = indented w (v.chars u) := by
  match v with
  | .null | .bool _ | .number _ | .string _ =>
    rw [indented_of_not_mem (chars_not_mem hv rfl u)]
    exact chars_of_isScalar rfl _ _
  | .unevaluated _ => cases hv
  | .list [] => rfl
  | .list (first :: rest) =>
    have hitems : itemsAreEvaluated (first :: rest) = true := hv
    have hinner := indentStep_not_mem hu
    rw [chars, chars]
    split
    · rw [itemsAreEvaluated, Bool.and_eq_true] at hitems
      rw [chars_append first hitems.1 w hu, inlineItems_append rest hitems.2 w hu,
        indented_cons_of_ne (by decide), indented_append, indented_append]
      rfl
    · have hlines := lineItems_append (first :: rest) hitems w hinner
      exact indented_lines (by decide) (by decide) hu (List.append_assoc w u _ ▸ hlines)
  | .object [] => rfl
  | .object (first :: rest) =>
    have hinner := indentStep_not_mem hu
    have hlines := lineFields_append (first :: rest) hv w hinner
    rw [chars, chars]
    exact indented_lines (by decide) (by decide) hu (List.append_assoc w u _ ▸ hlines)
termination_by structural v

theorem inlineItems_append (items : List Value) (hitems : itemsAreEvaluated items = true)
    (w : List Char) {u : List Char} (hu : '\n' ∉ u) :
    inlineItems (w ++ u) items = indented w (inlineItems u items) := by
  match items with
  | [] => rfl
  | item :: rest =>
    rw [itemsAreEvaluated, Bool.and_eq_true] at hitems
    rw [inlineItems, inlineItems, chars_append item hitems.1 w hu,
      inlineItems_append rest hitems.2 w hu, ← indented_append]
    rfl
termination_by structural items

/-- The indentation of the first line is apart, and that of the line behind the items is there. -/
theorem lineItems_append (items : List Value) (hitems : itemsAreEvaluated items = true)
    (w : List Char) {u : List Char} (hu : '\n' ∉ u) :
    lineItems (w ++ u) items ++ w = w ++ indented w (lineItems u items) := by
  match items with
  | [] => simp [lineItems, indented]
  | item :: rest =>
    rw [itemsAreEvaluated, Bool.and_eq_true] at hitems
    have hrest := lineItems_append rest hitems.2 w hu
    have hend : indented w [',', '\n'] = [',', '\n'] ++ w := by simp [indented]
    rw [lineItems, lineItems, chars_append item hitems.1 w hu, indented_append, indented_append,
      indented_append, indented_of_not_mem hu, hend]
    simp only [List.append_assoc]
    rw [hrest]
termination_by structural items

theorem lineFields_append (fields : List (String × Value))
    (hfields : fieldsAreEvaluated fields = true) (w : List Char) {u : List Char} (hu : '\n' ∉ u) :
    lineFields (w ++ u) fields ++ w = w ++ indented w (lineFields u fields) := by
  match fields with
  | [] => simp [lineFields, indented]
  | field :: rest =>
    rw [fieldsAreEvaluated, Bool.and_eq_true] at hfields
    have hrest := lineFields_append rest hfields.2 w hu
    have hend : indented w ['\n'] = ['\n'] ++ w := by simp [indented]
    rw [lineFields, lineFields, fieldChars_append field hfields.1 w hu, indented_append,
      indented_append, indented_append, indented_of_not_mem hu, hend]
    simp only [List.append_assoc]
    rw [hrest]
termination_by structural fields

theorem fieldChars_append (field : String × Value) (hfield : fieldIsEvaluated field = true)
    (w : List Char) {u : List Char} (hu : '\n' ∉ u) :
    fieldChars (w ++ u) field = indented w (fieldChars u field) := by
  match field with
  | (key, value) =>
    have hkey : '\n' ∉ keyChars key ++ [' ', '=', ' '] := by simp [keyChars_not_mem]
    rw [fieldChars, fieldChars, chars_append value hfield w hu, indented_append,
      indented_of_not_mem hkey]
termination_by structural field

end

/-! ## Line feeds -/

mutual

/-- The line feeds that the layout of a value takes, whatever its strings and keys are: one behind
the opening bracket if there are entries on lines of their own, and one behind each of them. -/
def lineBreaks : Value → Nat
  | .list items => if items.all isScalar then 0 else 1 + itemBreaks items
  | .object [] => 0
  | .object (first :: rest) => 1 + fieldBreaks (first :: rest)
  | _ => 0
termination_by structural v => v

/-- The line feeds of items on a line each. -/
def itemBreaks : List Value → Nat
  | [] => 0
  | item :: rest => item.lineBreaks + 1 + itemBreaks rest
termination_by structural items => items

/-- The line feeds of fields on a line each. -/
def fieldBreaks : List (String × Value) → Nat
  | [] => 0
  | field :: rest => breaksOfField field + 1 + fieldBreaks rest
termination_by structural fields => fields

/-- The line feeds of one field. -/
def breaksOfField : String × Value → Nat
  | (_, value) => value.lineBreaks
termination_by structural field => field

end

theorem inlineItems_not_mem {items : List Value} (hitems : itemsAreEvaluated items = true)
    (hscalar : items.all isScalar = true) (w : List Char) : '\n' ∉ inlineItems w items := by
  induction items with
  | nil => exact List.not_mem_nil
  | cons item rest ih =>
    rw [itemsAreEvaluated, Bool.and_eq_true] at hitems
    rw [List.all_cons, Bool.and_eq_true] at hscalar
    simp [inlineItems, chars_not_mem hitems.1 hscalar.1 w, ih hitems.2 hscalar.2]

mutual

/-- **The line feeds of a rendered value** are those of its layout: strings and keys add none. -/
theorem count_chars (v : Value) (hv : v.isEvaluated = true) {w : List Char} (hw : '\n' ∉ w) :
    (v.chars w).count '\n' = v.lineBreaks := by
  have hfeeds : w.count '\n' = 0 := List.count_eq_zero.2 hw
  have hinner := indentStep_not_mem hw
  match v with
  | .null | .bool _ | .number _ | .string _ => exact List.count_eq_zero.2 (chars_not_mem hv rfl w)
  | .unevaluated _ => cases hv
  | .list [] => rfl
  | .list (first :: rest) =>
    have hitems : itemsAreEvaluated (first :: rest) = true := hv
    rw [chars, lineBreaks]
    split
    · next hscalar =>
      rw [itemsAreEvaluated, Bool.and_eq_true] at hitems
      rw [List.all_cons, Bool.and_eq_true] at hscalar
      refine List.count_eq_zero.2 ?_
      simp [chars_not_mem hitems.1 hscalar.1 w, inlineItems_not_mem hitems.2 hscalar.2 w]
    · have hlines := count_lineItems (first :: rest) hitems hinner
      simp [List.count_append, hlines, hfeeds, Nat.add_comm]
  | .object [] => rfl
  | .object (first :: rest) =>
    have hlines := count_lineFields (first :: rest) hv hinner
    rw [chars, lineBreaks]
    simp [List.count_append, hlines, hfeeds, Nat.add_comm]
termination_by structural v

theorem count_lineItems (items : List Value) (hitems : itemsAreEvaluated items = true)
    {w : List Char} (hw : '\n' ∉ w) : (lineItems w items).count '\n' = itemBreaks items := by
  match items with
  | [] => rfl
  | item :: rest =>
    rw [itemsAreEvaluated, Bool.and_eq_true] at hitems
    have hfeeds : w.count '\n' = 0 := List.count_eq_zero.2 hw
    rw [lineItems, itemBreaks]
    simp [List.count_append, hfeeds, count_chars item hitems.1 hw, count_lineItems rest hitems.2 hw,
      Nat.add_assoc, Nat.add_comm 1]
termination_by structural items

theorem count_lineFields (fields : List (String × Value))
    (hfields : fieldsAreEvaluated fields = true) {w : List Char} (hw : '\n' ∉ w) : (lineFields w fields).count '\n' = fieldBreaks fields := by
  match fields with
  | [] => rfl
  | field :: rest =>
    rw [fieldsAreEvaluated, Bool.and_eq_true] at hfields
    have hfeeds : w.count '\n' = 0 := List.count_eq_zero.2 hw
    rw [lineFields, fieldBreaks]
    simp [List.count_append, hfeeds, count_fieldChars field hfields.1 hw,
      count_lineFields rest hfields.2 hw, Nat.add_assoc, Nat.add_comm 1]
termination_by structural fields

theorem count_fieldChars (field : String × Value) (hfield : fieldIsEvaluated field = true)
    {w : List Char} (hw : '\n' ∉ w) : (fieldChars w field).count '\n' = breaksOfField field := by
  match field with
  | (key, value) =>
    have hkey : (keyChars key).count '\n' = 0 := List.count_eq_zero.2 (keyChars_not_mem key)
    rw [fieldChars, breaksOfField]
    simp [List.count_append, hkey, count_chars value hfield hw]
termination_by structural field

end

/-! ## What indentation does -/

/-- **Indentation is orthogonal to content.** A value without expressions kept as text, rendered at
an indentation, is the value rendered at none with the indentation behind every line feed. So every
further line starts with it, and the line feeds are those of the layout: no string and no key adds
one. Blanks as indentation make no difference to the tokens. -/
theorem indentation_is_orthogonal {v : Value} (hv : v.isEvaluated = true) {w : String}
    (hw : '\n' ∉ w.toList) :
    (v.render w).toList = indented w.toList (v.render "").toList ∧
    ContinuesAt w.toList (v.render w).toList ∧
    ((v.render w).toList.count '\n' = v.lineBreaks ∧
      ∀ content : String, '\n' ∉ ((string content).render w).toList ∧ '\n' ∉ keyChars content) ∧
    ∀ blanks : String, (∀ c ∈ blanks.toList, isBlankChar c = true) →
      tokens? (v.render blanks).toList = some v.tokens := by
  have hindented : (v.render w).toList = indented w.toList (v.render "").toList := by
    rw [toList_render, toList_render]
    simpa using chars_append v hv w.toList (u := []) List.not_mem_nil
  refine ⟨hindented, ?_, ⟨?_, fun content => ⟨?_, keyChars_not_mem content⟩⟩, fun blanks hblanks => ?_⟩
  · rw [hindented]
    exact continuesAt_indented hw _
  · rw [toList_render]
    exact count_chars v hv hw
  · rw [toList_render]
    exact Quoted.quote_not_mem _
  · rw [toList_render]
    exact tokens?_chars hv (skips_of_all hblanks)

/-- Objects in a list in an object, with line feeds in a string and in a key. -/
theorem indentation_is_orthogonal_nested :
    let v := object [
      ("a\nb", list [object [("port", number (.float 0.25)), ("x", string "1\n2")], null]),
      ("tags", list [bool true, string "$\x7by\x7d"])]
    let w := "\t "
    (v.isEvaluated = true ∧ '\n' ∉ w.toList) ∧
    (v.render w).toList = indented w.toList (v.render "").toList ∧
    ContinuesAt w.toList (v.render w).toList ∧
    (v.render w).toList.count '\n' = 9 ∧
    tokens? (v.render w).toList = tokens? (v.render "").toList := by
  intro v w
  have hv : v.isEvaluated = true := by decide
  have hw : '\n' ∉ w.toList := by simp [w]
  obtain ⟨hindented, hlines, ⟨hcount, -⟩, htokens⟩ := indentation_is_orthogonal hv hw
  have hbreaks : v.lineBreaks = 9 := by decide
  refine ⟨⟨hv, hw⟩, hindented, hlines, hbreaks ▸ hcount, ?_⟩
  rw [htokens w (by simp [w, isBlankChar]), htokens "" (by simp)]

end Value

end HclOverlay
