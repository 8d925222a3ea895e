import HclOverlay.Proofs.Documents.Rereading
import HclOverlay.Proofs.Rendering.Spelling

/-!
# The lines of rendered values

A list or object on several lines is written at the indentation of its first line: every further line
starts with this indentation, and the last one has nothing else in front of its bracket. Strings do
not disturb this, because a line feed in a string is escaped.

* `ContinuesAt` — that every line of a text after the first starts in a given way.
* `Carries` — that pieces of text keep this up, whatever follows them.
* `Value.carries_tree` — the tree of a value does, by induction on the value.
* `Value.continuesAt_tree` — **the lines of a value start with an indentation** if the value takes one
  line or is written at this indentation or deeper.
-/

namespace HclOverlay

open Hcl

/-! ## Lines after the first -/

/-- Every line of a text after the first starts with `w`. -/
def ContinuesAt (w text : List Char) : Prop :=
  ∀ front back, text = front ++ '\n' :: back → w <+: back

section

variable {w u x y : List Char}

theorem continuesAt_of_not_mem (h : '\n' ∉ x) : ContinuesAt w x := by
  rintro front back rfl
  exact absurd (by simp) h

theorem continuesAt_cons {c : Char} :
    ContinuesAt w (c :: y) ↔ (c = '\n' → w <+: y) ∧ ContinuesAt w y := by
  constructor
  · intro h
    refine ⟨?_, fun front back heq => h (c :: front) back (by rw [heq]; rfl)⟩
    rintro rfl
    exact h [] y rfl
  · rintro ⟨hline, h⟩ front back heq
    cases front with
    | nil =>
      obtain ⟨rfl, rfl⟩ := List.cons.inj heq
      exact hline rfl
    | cons d front =>
      obtain ⟨rfl, rfl⟩ := List.cons.inj heq
      exact h front back rfl

theorem continuesAt_append (h : '\n' ∉ x) : ContinuesAt w (x ++ y) ↔ ContinuesAt w y := by
  induction x with
  | nil => rfl
  | cons c x ih =>
    rw [List.mem_cons, not_or] at h
    rw [List.cons_append, continuesAt_cons, ih h.2]
    exact ⟨And.right, fun hy => ⟨fun hc => absurd hc.symm h.1, hy⟩⟩

/-! ## Pieces -/

@[simp] theorem Hcl.join_plain (escaped : Bool) (text : List Char) :
    join escaped (plain text) = text := List.append_nil text

/-- Pieces of text keep up how the lines start, whatever follows them. -/
def Carries (w : List Char) (ss : List Stretch) : Prop :=
  ∀ escaped rest, ContinuesAt w rest → ContinuesAt w (join escaped ss ++ rest)

namespace Carries

variable {ss ts : List Stretch} {text : List Char}

theorem nil : Carries w [] := fun _ _ h => h

theorem append (hs : Carries w ss) (ht : Carries w ts) : Carries w (ss ++ ts) := by
  intro escaped rest h
  rw [join_append, List.append_assoc]
  exact hs _ _ (ht _ _ h)

theorem plain (h : '\n' ∉ text) : Carries w (plain text) := by
  intro escaped rest hrest
  rw [join_plain]
  exact (continuesAt_append h).2 hrest

/-- A new line that starts as it should. -/
theorem line (hx : '\n' ∉ x) (hw : w <+: y) (hy : '\n' ∉ y) :
    Carries w (Hcl.plain (x ++ '\n' :: y)) := by
  intro escaped rest hrest
  rw [join_plain, List.append_assoc]
  exact (continuesAt_append hx).2 (continuesAt_cons.2
    ⟨fun _ => hw.trans (List.prefix_append y rest), (continuesAt_append hy).2 hrest⟩)

theorem padded {before after : Trivia} {e : Expr} (hbefore : Carries w (Hcl.plain before))
    (he : Carries w e.stretches) (hafter : '\n' ∉ after) :
    Carries w (paddedStretches ⟨before, e, after⟩) :=
  (hbefore.append he).append (plain hafter)

end Carries

end

/-! ## Numbers and names -/

theorem Decimal.digitsOf_not_mem (n : Nat) : '\n' ∉ Decimal.digitsOf n := fun h =>
  absurd (Decimal.isDigit_of_mem_digitsOf h) (by decide)

theorem Decimal.integerDigits_not_mem (n : Int) : '\n' ∉ Decimal.integerDigits n := by
  unfold Decimal.integerDigits
  split <;> simp [Decimal.digitsOf_not_mem]

/-- The digits of a float are on one line. -/
theorem Decimal.Layout.digits_not_mem (layout : Decimal.Layout) (d : Decimal.Digits) :
    '\n' ∉ layout.digits d := by
  have hdigits := Decimal.digitsOf_not_mem d.significand
  unfold Decimal.Layout.digits
  dsimp only
  generalize Decimal.digitsOf d.significand = ds at hdigits
  have htake : ∀ k, '\n' ∉ ds.take k := fun k h => hdigits (List.mem_of_mem_take h)
  have hdrop : ∀ k, '\n' ∉ ds.drop k := fun k h => hdigits (List.mem_of_mem_drop h)
  have hpower := Decimal.integerDigits_not_mem (d.exponent + ds.length - 1)
  generalize d.exponent + ds.length - 1 = power at hpower ⊢
  split
  · split
    · split <;> simp [hdigits]
    · split <;> simp [hdigits, htake, hdrop]
  · split
    · rw [List.mem_cons, List.mem_cons, not_or, not_or] at hdigits
      split <;> simp [hdigits, hpower]
    · split <;> simp [hdigits, hpower]

/-- The text of a number is on one line. -/
theorem Number.toChars_not_mem (n : Number) : '\n' ∉ n.toChars := by
  cases n with
  | int k => exact Decimal.integerDigits_not_mem k
  | belowZero k => exact Decimal.digitsOf_not_mem k
  | float x =>
    show '\n' ∉ layout.write x
    unfold Decimal.Layout.write
    dsimp only
    split <;> split <;> simp [Decimal.Layout.digits_not_mem]

namespace Value

/-- The text of a name is the name. -/
theorem carries_ofName {w : List Char} {name : String} (h : Text.isIdentifier name = true) :
    Carries w (Reader.ofName name).stretches := by
  unfold Reader.ofName
  split
  · exact .plain (by decide)
  · split
    · exact .plain (by decide)
    · split
      · exact .plain (by decide)
      · obtain ⟨-, -, -, -, hname, -⟩ := isIdentifier_toList h
        exact .plain hname

theorem carries_key {w : List Char} (key : String) :
    Carries w (Reader.keyOf (keyTree key)).stretches := by
  have hexpr : Carries w (keyTree key).stretches := by
    unfold keyTree
    split
    · next h => exact carries_ofName h
    · exact .plain (quoteAll_chars _).1
  unfold Reader.keyOf
  split
  · next name h =>
    rw [h] at hexpr
    exact hexpr
  · exact hexpr

variable {w : List Char}

/-- An entry on a line of its own, in front of a line that starts as it should. -/
theorem continuesAt_field (start inner : List Char) {field : String × Value}
    (hstart : Carries w (plain (start ++ inner)))
    (hvalue : Carries w (field.2.tree inner).stretches) (escaped : Bool) {rest : List Char}
    (hline : w <+: rest) (hrest : ContinuesAt w rest) :
    ContinuesAt w (join escaped (fieldTree start inner field).stretches ++ rest) := by
  obtain ⟨key, value⟩ := field
  have hkey : Carries w (keyStretches ⟨start ++ inner, Reader.keyOf (keyTree key), [' ']⟩) :=
    (hstart.append (carries_key key)).append (.plain (by decide))
  have hpadded : Carries w (paddedStretches ⟨[' '], value.tree inner, []⟩) :=
    .padded (.plain (by decide)) hvalue (by decide)
  have hends : ContinuesAt w ('\n' :: rest) := continuesAt_cons.2 ⟨fun _ => hline, hrest⟩
  rw [fieldTree, Item.stretches, join_append, List.append_assoc]
  exact ((hkey.append (.plain (by decide))).append hpadded) _ _ hends

mutual

/-- **The tree of a value** keeps up how the lines start, if its indentation starts so. -/
theorem carries_tree (v : Value) {u : List Char} (hw : w <+: u) (hu : '\n' ∉ u) :
    Carries w (v.tree u).stretches := by
  have hdeeper : w <+: u ++ indentStep := hw.trans (List.prefix_append _ _)
  have hinner : '\n' ∉ u ++ indentStep := by simp [indentStep, hu]
  have hbracket : ∀ c, '\n' ≠ c → w <+: u ++ [c] ∧ '\n' ∉ u ++ [c] := fun c hc =>
    ⟨hw.trans (List.prefix_append _ _), by simp [hu, hc]⟩
  -- a line of a list or object starts with the indentation of its level, and so with `w`
  match v with
  | .null => exact .plain (by decide)
  | .bool true => exact .plain (by decide)
  | .bool false => exact .plain (by decide)
  | .number n => exact .plain n.toChars_not_mem
  | .string s => exact .plain (quoteAll_chars _).1
  | .unevaluated _ => exact .plain (by decide)
  | .list [] => exact .append (.append (.plain (by decide)) .nil) (.plain (by decide))
  | .list (first :: rest) =>
    rw [tree]
    split
    · have hfirst : Carries w (paddedStretches ⟨[], first.tree u, []⟩) :=
        .padded (.plain (by decide)) (carries_tree first hw hu) (by decide)
      exact .append (.append (.plain (by decide)) (hfirst.append (carries_inline rest hw hu)))
        (.plain (by decide))
    · have hfirst : Carries w
          (paddedStretches ⟨'\n' :: (u ++ indentStep), first.tree (u ++ indentStep), []⟩) :=
        .padded (.line (x := []) (by decide) hdeeper hinner) (carries_tree first hdeeper hinner)
          (by decide)
      have hclosing := hbracket ']' (by decide)
      exact .append (.append (.plain (by decide)) (hfirst.append (carries_lines rest hdeeper hinner)))
        (.line (x := [',']) (by decide) hclosing.1 hclosing.2)
  | .object [] => exact .append (.append (.plain (by decide)) .nil) (.plain (by decide))
  | .object (first :: rest) =>
    have hclosing := hbracket '}' (by decide)
    intro escaped tail htail
    have hend : ContinuesAt w ((u ++ ['}']) ++ tail) := (continuesAt_append hclosing.2).2 htail
    have hfields := fun escaped => continuesAt_fields rest hdeeper hinner escaped
      (hclosing.1.trans (List.prefix_append _ tail)) hend
    have hfirst := fun escaped behind => continuesAt_field ['\n'] (u ++ indentStep)
      (.line (x := []) (by decide) hdeeper hinner) (carries_field first hdeeper hinner) escaped
      (hfields behind).1 (hfields behind).2
    rw [tree, Expr.stretches, entriesStretches, join_append, join_append, join_append,
      join_plain, join_plain]
    simp only [List.append_assoc] at hfirst ⊢
    exact (continuesAt_append (x := ['{']) (by decide)).2 (hfirst _ _)
termination_by structural v

/-- Further items on one line. -/
theorem carries_inline (items : List Value) {u : List Char} (hw : w <+: u) (hu : '\n' ∉ u) :
    Carries w (moreItemsStretches (inlineTrees u items)) := by
  match items with
  | [] => exact .nil
  | item :: rest =>
    exact ((Carries.plain (by decide)).append (.padded (.plain (by decide))
      (carries_tree item hw hu) (by decide))).append (carries_inline rest hw hu)
termination_by structural items

/-- Further items on a line each. -/
theorem carries_lines (items : List Value) {u : List Char} (hw : w <+: u) (hu : '\n' ∉ u) :
    Carries w (moreItemsStretches (lineTrees u items)) := by
  match items with
  | [] => exact .nil
  | item :: rest =>
    exact ((Carries.plain (by decide)).append (.padded (.line (x := []) (by decide) hw hu)
      (carries_tree item hw hu) (by decide))).append (carries_lines rest hw hu)
termination_by structural items

/-- Further entries on a line each, in front of a line that starts as it should, and the start of
their first line. -/
theorem continuesAt_fields (fields : List (String × Value)) {u : List Char} (hw : w <+: u)
    (hu : '\n' ∉ u) (escaped : Bool) {rest : List Char} (hline : w <+: rest)
    (hrest : ContinuesAt w rest) :
    w <+: join escaped (entriesStretches (fieldTrees u fields)) ++ rest ∧
      ContinuesAt w (join escaped (entriesStretches (fieldTrees u fields)) ++ rest) := by
  match fields with
  | [] => exact ⟨hline, hrest⟩
  | field :: more =>
    have hmore := fun escaped => continuesAt_fields more hw hu escaped hline hrest
    rw [fieldTrees, entriesStretches, join_append, List.append_assoc]
    refine ⟨?_, continuesAt_field [] u (.plain hu) (carries_field field hw hu) _
      (hmore _).1 (hmore _).2⟩
    obtain ⟨key, value⟩ := field
    rw [fieldTree, Item.stretches, keyStretches]
    simp only [List.nil_append, join_append, join_plain, List.append_assoc]
    exact hw.trans (List.prefix_append u _)
termination_by structural fields

theorem carries_field (field : String × Value) {u : List Char} (hw : w <+: u) (hu : '\n' ∉ u) :
    Carries w (field.2.tree u).stretches := by
  match field with
  | (_, value) => exact carries_tree value hw hu
termination_by structural field

end

/-! ## Where the lines start -/

theorem tree_of_isScalar {v : Value} (h : v.isScalar = true) (a b : List Char) :
    v.tree a = v.tree b := by
  cases v with
  | list _ => cases h
  | object _ => cases h
  | _ => rfl

theorem inlineTrees_of_isScalar {items : List Value} (h : items.all isScalar = true)
    (a b : List Char) : inlineTrees a items = inlineTrees b items := by
  induction items with
  | nil => rfl
  | cons item rest ih =>
    rw [List.all_cons, Bool.and_eq_true] at h
    rw [inlineTrees, inlineTrees, tree_of_isScalar h.1 a b, ih h.2]

/-- The tree of a value on one line does not depend on the indentation either. -/
theorem tree_of_takesOneLine {v : Value} (h : v.takesOneLine = true) (a b : List Char) :
    v.tree a = v.tree b := by
  match v with
  | .list [] => rfl
  | .list (first :: rest) =>
    have hall : (first :: rest).all isScalar = true := h
    rw [tree, tree, if_pos hall, if_pos hall]
    rw [List.all_cons, Bool.and_eq_true] at hall
    rw [tree_of_isScalar hall.1 a b, inlineTrees_of_isScalar hall.2 a b]
  | .object [] => rfl
  | .object (_ :: _) => cases h
  | .null | .bool _ | .number _ | .string _ | .unevaluated _ => exact tree_of_isScalar rfl a b

/-- Entries end in a line feed. -/
theorem join_entries (escaped : Bool) (start inner : List Char) (field : String × Value)
    (rest : List (String × Value)) : ∃ front,
      join escaped (entriesStretches (fieldTree start inner field :: fieldTrees inner rest)) =
        front ++ ['\n'] := by
  induction rest generalizing escaped start field with
  | nil =>
    rw [fieldTrees, entriesStretches, entriesStretches, List.append_nil, fieldTree, Item.stretches,
      join_append, join_plain]
    exact ⟨_, rfl⟩
  | cons next rest ih =>
    rw [fieldTrees, entriesStretches, join_append]
    obtain ⟨front, hfront⟩ := ih _ [] next
    exact ⟨_, by rw [hfront, List.append_assoc]⟩

/-- A value on several lines ends in its indentation and a bracket. -/
theorem print_tree_of_lines {v : Value} (h : v.takesOneLine = false) (u : List Char) :
    ∃ front c, (c = ']' ∨ c = '}') ∧ (v.tree u).print = front ++ '\n' :: (u ++ [c]) := by
  match v with
  | .list [] => cases h
  | .list (first :: rest) =>
    have hlines : ¬(first :: rest).all isScalar = true := by simpa [takesOneLine] using h
    rw [tree, if_neg hlines, Expr.print, Expr.stretches, join_append, join_plain]
    exact ⟨_ ++ [','], ']', .inl rfl, by simp only [List.append_assoc]; rfl⟩
  | .object [] => cases h
  | .object (first :: rest) =>
    rw [tree, Expr.print, Expr.stretches, join_append, join_plain, join_append]
    obtain ⟨front, hfront⟩ := join_entries _ ['\n'] (u ++ indentStep) first rest
    exact ⟨'{' :: front, '}', .inr rfl, by rw [hfront]; simp⟩
  | .null | .bool _ | .number _ | .string _ | .unevaluated _ => cases h

/-- A list or object ends in a bracket. -/
theorem print_tree_of_not_scalar {v : Value} (h : v.isScalar = false) (u : List Char) :
    ∃ front c, (c = ']' ∨ c = '}') ∧ (v.tree u).print = front ++ [c] := by
  cases hline : v.takesOneLine with
  | false =>
    obtain ⟨front, c, hc, heq⟩ := print_tree_of_lines hline u
    exact ⟨front ++ '\n' :: u, c, hc, by simp [heq]⟩
  | true =>
    match v with
    | .list [] => exact ⟨['['], ']', .inl rfl, rfl⟩
    | .list (first :: rest) =>
      have hall : (first :: rest).all isScalar = true := hline
      rw [tree, if_pos hall, Expr.print, Expr.stretches, join_append, join_plain]
      exact ⟨_, ']', .inl rfl, rfl⟩
    | .object [] => exact ⟨['{'], '}', .inr rfl, rfl⟩
    | .object (_ :: _) => cases hline
    | .null | .bool _ | .number _ | .string _ | .unevaluated _ => cases h

/-- **The lines of a value start with an indentation** `w` if and only if the value takes one line, or
the indentation that it is written with starts with `w`. -/
theorem continuesAt_tree {v : Value} {w u : List Char} (hw : ∀ c ∈ w, Reader.isBlankChar c = true)
    (hu : '\n' ∉ u) : ContinuesAt w (v.tree u).print ↔ v.takesOneLine = true ∨ w <+: u := by
  have hprint : ∀ {u}, w <+: u → '\n' ∉ u → ContinuesAt w (v.tree u).print := fun hw hu => by
    rw [Expr.print, ← List.append_nil (join _ _)]
    exact carries_tree v hw hu false [] (continuesAt_of_not_mem List.not_mem_nil)
  constructor
  · intro h
    cases hline : v.takesOneLine with
    | true => exact .inl rfl
    | false =>
      obtain ⟨front, c, hc, heq⟩ := print_tree_of_lines hline u
      have hlast := h front (u ++ [c]) heq
      rcases List.prefix_concat_iff.1 hlast with rfl | hprefix
      · -- the indentation does not end in a bracket
        have hblank := hw c (by simp)
        rcases hc with rfl | rfl <;> cases hblank
      · exact .inr hprefix
  · rintro (hline | hprefix)
    · rw [tree_of_takesOneLine hline u w]
      exact hprint (List.prefix_refl w) fun hn => absurd (hw _ hn) (by decide)
    · exact hprint hprefix hu

end Value

end HclOverlay
