import HclOverlay.Hcl.Evaluation
import HclOverlay.Proofs.Rendering.Reading

/-!
# Rendered values are read back

The tree of a value is evaluated to this value again, unless an object in it has the key `null`.
Together with the reading of its text, that says which values survive being rendered: all of them
but those with one of two keys in the way.

* `operation?_tree` — the value of a tree, by induction over the value.
* `read?_chars` — the text of a value, on its own, is read as its tree or not at all.
* `readsBack_iff` — **rendering is read back exactly**, but for the two keys.
-/

namespace HclOverlay.Value

open Hcl Hcl.Reader

/-! ## Fields -/

/-- The name of a key, unless it is `null`. -/
theorem keyValue?_keyTree (ctx : Context) (key : String) :
    keyValue? ctx (keyOf (keyTree key)) = if key == "null" then none else some key := by
  unfold keyTree
  split
  · unfold ofName
    split_ifs with h₁ h₂ h₃ h₄ <;> simp_all [keyOf, keyValue?, Expr.operation?, Operation.value?,
      Operation.valueWithin, keyText?]
  · next hid =>
    have hne : key ≠ "null" := by
      rintro rfl
      exact hid (by decide)
    simp [hne, keyOf, keyValue?, Expr.operation?, Operation.value?, Operation.valueWithin,
      keyText?]

theorem insert_new {κ α : Type} [BEq κ] {t : Table κ α} {key : κ} {value : α}
    (h : ∀ e ∈ t, (e.1 == key) = false) : Table.insert t key value = t ++ [(key, value)] := by
  induction t with
  | nil => rfl
  | cons e t ih =>
    obtain ⟨k, v⟩ := e
    rw [Table.insert, if_neg (by simp [h (k, v) List.mem_cons_self]),
      ih fun e he => h e (List.mem_cons_of_mem _ he), List.cons_append]

/-- A table of entries with different keys is these entries. -/
theorem foldl_insert {κ α : Type} [BEq κ] {entries : Table κ α} (acc : Table κ α)
    (h : (acc ++ entries).Pairwise fun d e => (d.1 == e.1) = false) :
    entries.foldl (fun t e => Table.insert t e.1 e.2) acc = acc ++ entries := by
  induction entries generalizing acc with
  | nil => simp
  | cons first more ih =>
    have hfirst : Table.insert acc first.1 first.2 = acc ++ [first] :=
      insert_new fun e he => (List.pairwise_append.1 h).2.2 e he first List.mem_cons_self
    rw [List.foldl_cons, hfirst, ih _ (by simpa using h), List.append_assoc,
      List.singleton_append]

section

variable {kind : Number → Bool} {reread : Number → Number}

/-- The entry that a field is evaluated to, when numbers are read again as `reread` says. -/
def entryOf (reread : Number → Number) (field : String × Value) : Key × Option (String × Value) :=
  (keyOf (keyTree field.1),
    if fieldHasNullKey field then none else some (mapNumbersOfField reread field))

theorem fieldHasNullKey_eq (key : String) (value : Value) :
    fieldHasNullKey (key, value) = (key == "null" || value.hasNullKey) := rfl

/-- Fields of different names are added one after the other, unless one has no name. -/
theorem foldlM_entries {fields : List (String × Value)} (acc : List (String × Value))
    (h : ((acc ++ fields).map Prod.fst).Nodup) :
    (fields.map (entryOf reread)).foldlM (fun fields entry =>
        entry.2.map fun (name, value) => Table.insert fields name value) acc =
      if fieldsHaveNullKey fields then none else some (acc ++ mapNumbersOfFields reread fields) := by
  induction fields generalizing acc with
  | nil => simp [fieldsHaveNullKey, mapNumbersOfFields]
  | cons field more ih =>
    obtain ⟨key, value⟩ := field
    rw [List.map_cons, List.foldlM_cons, fieldsHaveNullKey]
    cases hnull : fieldHasNullKey (key, value) with
    | true => simp [entryOf, hnull]
    | false =>
      have hinsert : Table.insert acc key (value.mapNumbers reread) =
          acc ++ [(key, value.mapNumbers reread)] := by
        refine insert_new fun e he => beq_eq_false_iff_ne.2 fun heq => ?_
        rw [List.map_append, List.nodup_append] at h
        exact h.2.2 e.1 (List.mem_map_of_mem he) key (by simp) heq
      have hmore : ((acc ++ [(key, value.mapNumbers reread)] ++ more).map Prod.fst).Nodup := by
        simpa using h
      simp only [entryOf, hnull, Bool.false_eq_true, if_false, Option.map_some, mapNumbersOfField,
        hinsert, Option.bind_eq_bind, Option.bind_some, Bool.false_or]
      rw [ih _ hmore]
      simp [mapNumbersOfFields, mapNumbersOfField]

/-- The fields of an object are evaluated to themselves, unless one has no name. -/
theorem fieldsOfEntries?_map {fields : List (String × Value)}
    (h : (fields.map Prod.fst).Nodup) :
    fieldsOfEntries? (fields.map (entryOf reread)) =
      if fieldsHaveNullKey fields then none else some (mapNumbersOfFields reread fields) := by
  have htable : Table.ofEntries (fields.map (entryOf reread)) = fields.map (entryOf reread) := by
    refine foldl_insert [] ?_
    rw [List.nil_append, List.pairwise_map]
    refine (List.pairwise_map.1 h).imp fun hab => Bool.eq_false_iff.2 fun halike => hab ?_
    exact key_alike halike
  rw [fieldsOfEntries?, htable, foldlM_entries [] (by simpa using h), List.nil_append]

/-! ## Values -/

mutual

/-- **A tree is evaluated to its value**, unless an object in it has the key `null`. -/
theorem operation?_tree (hread : ∀ n, kind n = true → n.reread? = some (reread n)) (ctx : Context)
    (v : Value) (hv : v.Plain kind) (indent : List Char) :
    (v.tree indent).operation? ctx =
      if v.hasNullKey then none else some (.operand (v.mapNumbers reread)) := by
  match v with
  | .null => rfl
  | .bool b => rfl
  | .number n =>
    rw [tree, hread n hv]
    rfl
  | .string s => rfl
  | .unevaluated s => exact hv.elim
  | .list [] => rfl
  | .list (first :: more) =>
    rw [hasNullKey, mapNumbers, tree]
    split
    · rw [Expr.operation?, itemValues?, paddedValue?, operation?_tree hread ctx first hv.1 indent,
        itemValues?_inlineTrees hread ctx more hv.2 indent, itemsHaveNullKey]
      cases first.hasNullKey <;> cases itemsHaveNullKey more <;> rfl
    · rw [Expr.operation?, itemValues?_lineTrees hread ctx (first :: more) hv (indent ++ indentStep)]
      cases itemsHaveNullKey (first :: more) <;> rfl
  | .object [] => rfl
  | .object (first :: more) =>
    rw [hasNullKey, mapNumbers, tree, Expr.operation?, entryValues,
      entryValue_fieldTree hread ctx first hv.2.1, entryValues_fieldTrees hread ctx more hv.2.2,
      ← List.map_cons, fieldsOfEntries?_map hv.1]
    cases fieldsHaveNullKey (first :: more) <;> rfl
termination_by structural v

/-- Further items on one line are evaluated to themselves. -/
theorem itemValues?_inlineTrees (hread : ∀ n, kind n = true → n.reread? = some (reread n))
    (ctx : Context) (items : List Value) (hv : PlainItems kind items) (indent : List Char) :
    itemValues? ctx (inlineTrees indent items) =
      if itemsHaveNullKey items then none else some (mapNumbersOfItems reread items) := by
  match items with
  | [] => rfl
  | item :: more =>
    rw [inlineTrees, itemValues?, paddedValue?, operation?_tree hread ctx item hv.1 indent,
      itemValues?_inlineTrees hread ctx more hv.2 indent, itemsHaveNullKey]
    cases item.hasNullKey <;> cases itemsHaveNullKey more <;> rfl
termination_by structural items

/-- Items on a line each are evaluated to themselves. -/
theorem itemValues?_lineTrees (hread : ∀ n, kind n = true → n.reread? = some (reread n))
    (ctx : Context) (items : List Value) (hv : PlainItems kind items) (inner : List Char) :
    itemValues? ctx (lineTrees inner items) =
      if itemsHaveNullKey items then none else some (mapNumbersOfItems reread items) := by
  match items with
  | [] => rfl
  | item :: more =>
    rw [lineTrees, itemValues?, paddedValue?, operation?_tree hread ctx item hv.1 inner,
      itemValues?_lineTrees hread ctx more hv.2 inner, itemsHaveNullKey]
    cases item.hasNullKey <;> cases itemsHaveNullKey more <;> rfl
termination_by structural items

/-- A field is evaluated to its entry. -/
theorem entryValue_fieldTree (hread : ∀ n, kind n = true → n.reread? = some (reread n))
    (ctx : Context) (field : String × Value) (hv : PlainField kind field) (start inner : List Char) :
    entryValue ctx (fieldTree start inner field) = entryOf reread field := by
  match field with
  | (key, value) =>
    rw [fieldTree, entryValue, paddedKey?, paddedValue?, keyValue?_keyTree,
      operation?_tree hread ctx value hv inner, entryOf, fieldHasNullKey_eq]
    cases key == "null" <;> cases value.hasNullKey <;> rfl
termination_by structural field

/-- Fields are evaluated to their entries. -/
theorem entryValues_fieldTrees (hread : ∀ n, kind n = true → n.reread? = some (reread n))
    (ctx : Context) (fields : List (String × Value)) (hv : PlainFields kind fields) (inner : List Char) :
    entryValues ctx (fieldTrees inner fields) = fields.map (entryOf reread) := by
  match fields with
  | [] => rfl
  | field :: more =>
    rw [fieldTrees, entryValues, entryValue_fieldTree hread ctx field hv.1,
      entryValues_fieldTrees hread ctx more hv.2, List.map_cons]
termination_by structural fields

end

/-- The value of a tree on its own, or its text, when numbers are read again as `reread` says. -/
theorem value_tree_of (hread : ∀ n, kind n = true → n.reread? = some (reread n)) {v : Value}
    (hv : v.Plain kind) (indent : List Char) :
    (v.tree indent).value =
      if v.hasNullKey then .unevaluated (v.tree indent).text else v.mapNumbers reread := by
  have heval : (v.tree indent).evaluate? [] =
      if v.hasNullKey then none else some (v.mapNumbers reread) := by
    rw [Expr.evaluate?, operation?_tree hread _ v hv indent]
    cases v.hasNullKey <;> rfl
  cases hnull : v.hasNullKey with
  | true => exact Expr.value_of_evaluate?_eq_none (by rw [heval, hnull]; rfl)
  | false => exact Expr.value_of_evaluate?_eq_some (by rw [heval, hnull]; rfl)

end

/-- The text of a value, on its own, is read as its tree, unless an object in it starts with the
key `for`. -/
theorem read?_chars {v : Value} (hv : v.Plain Number.isReadable) {indent : List Char}
    (hi : ∀ c ∈ indent, isBlankChar c = true) :
    Expr.read? (v.chars indent) = if v.opensFor then none else some (v.tree indent) := by
  have hread := exprWithin_chars hv hi .line Finishes.nil (Nat.lt_succ_self _)
  rw [List.append_nil] at hread
  have hexpr : expr .line (v.chars indent) = outcome v.opensFor (v.tree indent) [] := hread
  rw [Expr.read?, all?, hexpr]
  cases v.opensFor <;> rfl

section

variable {kind : Number → Bool} (hread : ∀ n, kind n = true → n.reread? = some n.settled)

include hread

/-- What the text of a value is read as, if it is read at all. -/
theorem value_read?_chars {v : Value} (hv : v.Plain kind) {indent : List Char}
    (hi : ∀ c ∈ indent, isBlankChar c = true) :
    (Expr.read? (v.chars indent)).map Expr.value =
      if v.opensFor then none
      else if v.hasNullKey then some (.unevaluated (v.tree indent).text) else some v.settled := by
  have hreadable : ∀ n, kind n = true → n.isReadable = true := by
    intro n hn
    rw [Number.isReadable, hread n hn, Option.isSome_some]
  rw [read?_chars (hv.mono hreadable) hi]
  cases v.opensFor with
  | true => rfl
  | false =>
    rw [if_neg Bool.false_ne_true, Option.map_some, value_tree_of hread hv, ← settled_eq]
    cases v.hasNullKey <;> rfl

omit hread in
/-- A value that is settled holds no expression kept as text. -/
theorem settled_ne_unevaluated {v : Value} (hv : v.Plain kind) (s : String) :
    v.settled ≠ .unevaluated s := by
  cases v with
  | unevaluated _ => exact hv.elim
  | _ => simp [settled]

/-- Rendering is read back exactly, but for two keys, where numbers are. -/
theorem readsBack_iff_of {v : Value} (hv : v.Plain kind) {indent : String}
    (hi : ∀ c ∈ indent.toList, isBlankChar c = true) :
    ((Expr.read? (v.render indent).toList).isSome = true ↔ v.opensFor = false) ∧
    ((Expr.read? (v.render indent).toList).map Expr.value = some v.settled ↔
      v.opensFor = false ∧ v.hasNullKey = false) := by
  have hvalue := value_read?_chars hread hv hi
  rw [toList_render, hvalue, ← Option.isSome_map, hvalue]
  cases v.opensFor with
  | true => simp
  | false =>
    cases v.hasNullKey with
    | true => simpa using (settled_ne_unevaluated hv _).symm
    | false => simp

end

/-- **Rendering is read back exactly, but for two keys.** The text of a value, at any indentation of
blanks, is one expression if and only if no object in the value starts with the key `for`, and it is
an expression of this value again if and only if also no object in it has the key `null`. -/
theorem readsBack_iff {v : Value} (hv : v.Plain Number.isInteger) {indent : String}
    (hi : ∀ c ∈ indent.toList, isBlankChar c = true) :
    ((Expr.read? (v.render indent).toList).isSome = true ↔ v.opensFor = false) ∧
    ((Expr.read? (v.render indent).toList).map Expr.value = some v.settled ↔
      v.opensFor = false ∧ v.hasNullKey = false) :=
  readsBack_iff_of (fun _ => Number.reread?_of_isInteger) hv hi

/-- Keywords are keys like any other, except `null` anywhere and `for` at the front. -/
theorem readsBack_iff_keywords :
    let good := object [("true", list [string "$\x7ba\x7d \"%", null]),
      ("for", object [("a b", number (.int (-3)))])]
    let bad := object [("for", null), ("true", null)]
    (good.Plain Number.isInteger ∧ (Expr.read? (good.render "\t").toList).map Expr.value = some good) ∧
      bad.Plain Number.isInteger ∧ (Expr.read? (bad.render "\t").toList).isSome ≠ true := by
  intro good bad
  have hi : ∀ c ∈ "\t".toList, isBlankChar c = true := by simp [isBlankChar]
  have hgood : good.Plain Number.isInteger :=
    ⟨by decide, ⟨trivial, trivial, trivial⟩, ⟨by decide, rfl, trivial⟩, trivial⟩
  have hbad : bad.Plain Number.isInteger := ⟨by decide, trivial, trivial, trivial⟩
  exact ⟨⟨hgood, (readsBack_iff hgood hi).2.2 ⟨rfl, rfl⟩⟩, hbad,
    fun h => Bool.noConfusion (show true = false from (readsBack_iff hbad hi).1.1 h)⟩

end HclOverlay.Value
