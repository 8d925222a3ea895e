import HclOverlay.Proofs.Evaluation.Data
import HclOverlay.Proofs.Merging.Laws

/-!
# The spelling of values

The text of a value depends on how its numbers are spelled and not on which numbers they are. A
number that is read again may be another one, but it is spelled alike; so is a value that holds it,
and whatever is merged from such values.

* `Value.takesOneLine` — whether the text of a value is the same at any indentation.
* `Value.spelled` — a value with its numbers as text; `chars_spelled`, `spelled_merge`.
* `chars_merge_again` — **a patch that is merged into its own result**, read again, has the text of
  this result.
-/

namespace HclOverlay.Value

open Hcl

/-! ## Values on one line -/

/-- Whether a value is written on one line: all but lists of more than scalars, and objects with
fields. -/
def takesOneLine : Value → Bool
  | .list items => items.all isScalar
  | .object fields => fields.isEmpty
  | _ => true

theorem inlineItems_of_isScalar {items : List Value} (h : items.all isScalar = true)
    (a b : List Char) : inlineItems a items = inlineItems b items := by
  induction items with
  | nil => rfl
  | cons item rest ih =>
    rw [List.all_cons, Bool.and_eq_true] at h
    rw [inlineItems, inlineItems, chars_of_isScalar h.1 a b, ih h.2]

/-- A value on one line does not depend on the indentation. -/
theorem chars_of_takesOneLine {v : Value} (h : v.takesOneLine = true) (a b : List Char) :
    v.chars a = v.chars b := by
  match v with
  | .list [] => rfl
  | .list (first :: rest) =>
    have hall : (first :: rest).all isScalar = true := h
    rw [chars, chars, if_pos hall, if_pos hall]
    rw [List.all_cons, Bool.and_eq_true] at hall
    rw [chars_of_isScalar hall.1 a b, inlineItems_of_isScalar hall.2 a b]
  | .object [] => rfl
  | .object (_ :: _) => cases h
  | .null | .bool _ | .number _ | .string _ | .unevaluated _ => exact chars_of_isScalar rfl a b

/-! ## Numbers as text -/

mutual

/-- A value with each number replaced by its text. -/
def spelled : Value → Value
  | .number n => .unevaluated (String.ofList n.toChars)
  | .list items => .list (spelledItems items)
  | .object fields => .object (spelledFields fields)
  | v => v
termination_by structural v => v

/-- Items with each number replaced by its text. -/
def spelledItems : List Value → List Value
  | [] => []
  | item :: rest => item.spelled :: spelledItems rest
termination_by structural items => items

/-- Fields with each number replaced by its text. -/
def spelledFields : List (String × Value) → List (String × Value)
  | [] => []
  | field :: rest => spelledField field :: spelledFields rest
termination_by structural fields => fields

/-- A field with each number replaced by its text. -/
def spelledField : String × Value → String × Value
  | (key, value) => (key, value.spelled)
termination_by structural field => field

end

theorem isScalar_spelled (v : Value) : v.spelled.isScalar = v.isScalar := by
  cases v <;> rfl

theorem all_isScalar_spelledItems (items : List Value) :
    (spelledItems items).all isScalar = items.all isScalar := by
  induction items with
  | nil => rfl
  | cons item rest ih => rw [spelledItems, List.all_cons, List.all_cons, isScalar_spelled, ih]

mutual

/-- **The text of a value** is that of its spelling. -/
theorem chars_spelled (v : Value) (indent : List Char) : v.spelled.chars indent = v.chars indent := by
  match v with
  | .null => rfl
  | .bool _ => rfl
  | .string _ => rfl
  | .unevaluated _ => rfl
  | .number n => rw [spelled, chars, chars, String.toList_ofList]
  | .list [] => rfl
  | .list (first :: rest) =>
    have hall := all_isScalar_spelledItems (first :: rest)
    have hlines := lineItems_spelled (first :: rest) (indent ++ indentStep)
    rw [spelledItems] at hall hlines
    rw [spelled, spelledItems, chars, chars, hall, hlines, chars_spelled first indent,
      inlineItems_spelled rest indent]
  | .object [] => rfl
  | .object (first :: rest) =>
    have hlines := lineFields_spelled (first :: rest) (indent ++ indentStep)
    rw [spelledFields] at hlines
    rw [spelled, spelledFields, chars, chars, hlines]
termination_by structural v

theorem inlineItems_spelled (items : List Value) (indent : List Char) :
    inlineItems indent (spelledItems items) = inlineItems indent items := by
  match items with
  | [] => rfl
  | item :: rest =>
    rw [spelledItems, inlineItems, inlineItems, chars_spelled item indent,
      inlineItems_spelled rest indent]
termination_by structural items

theorem lineItems_spelled (items : List Value) (inner : List Char) :
    lineItems inner (spelledItems items) = lineItems inner items := by
  match items with
  | [] => rfl
  | item :: rest =>
    rw [spelledItems, lineItems, lineItems, chars_spelled item inner, lineItems_spelled rest inner]
termination_by structural items

theorem lineFields_spelled (fields : List (String × Value)) (inner : List Char) :
    lineFields inner (spelledFields fields) = lineFields inner fields := by
  match fields with
  | [] => rfl
  | field :: rest =>
    rw [spelledFields, lineFields, lineFields, fieldChars_spelled field inner,
      lineFields_spelled rest inner]
termination_by structural fields

theorem fieldChars_spelled (field : String × Value) (inner : List Char) :
    fieldChars inner (spelledField field) = fieldChars inner field := by
  match field with
  | (key, value) => rw [spelledField, fieldChars, fieldChars, chars_spelled value inner]
termination_by structural field

end

section

variable {reread : Number → Number}

mutual

/-- Numbers that are replaced by others of the same text do not change the spelling. -/
theorem spelled_mapNumbers (v : Value) (h : ∀ n ∈ v.numbers, (reread n).toChars = n.toChars) :
    (v.mapNumbers reread).spelled = v.spelled := by
  match v with
  | .null => rfl
  | .bool _ => rfl
  | .string _ => rfl
  | .unevaluated _ => rfl
  | .number n => rw [mapNumbers, spelled, spelled, h n (List.mem_singleton_self n)]
  | .list items => rw [mapNumbers, spelled, spelled, spelledItems_mapNumbers items h]
  | .object fields => rw [mapNumbers, spelled, spelled, spelledFields_mapNumbers fields h]
termination_by structural v

theorem spelledItems_mapNumbers (items : List Value)
    (h : ∀ n ∈ numbersOfItems items, (reread n).toChars = n.toChars) :
    spelledItems (mapNumbersOfItems reread items) = spelledItems items := by
  match items with
  | [] => rfl
  | item :: rest =>
    rw [mapNumbersOfItems, spelledItems, spelledItems,
      spelled_mapNumbers item fun n hn => h n (List.mem_append_left _ hn),
      spelledItems_mapNumbers rest fun n hn => h n (List.mem_append_right _ hn)]
termination_by structural items

theorem spelledFields_mapNumbers (fields : List (String × Value))
    (h : ∀ n ∈ numbersOfFields fields, (reread n).toChars = n.toChars) :
    spelledFields (mapNumbersOfFields reread fields) = spelledFields fields := by
  match fields with
  | [] => rfl
  | field :: rest =>
    rw [mapNumbersOfFields, spelledFields, spelledFields,
      spelledField_mapNumbers field fun n hn => h n (List.mem_append_left _ hn),
      spelledFields_mapNumbers rest fun n hn => h n (List.mem_append_right _ hn)]
termination_by structural fields

theorem spelledField_mapNumbers (field : String × Value)
    (h : ∀ n ∈ numbersOfField field, (reread n).toChars = n.toChars) :
    spelledField (mapNumbersOfField reread field) = spelledField field := by
  match field with
  | (key, value) =>
    rw [mapNumbersOfField, spelledField, spelledField, spelled_mapNumbers value h]
termination_by structural field

end

end

/-! ## Merging -/

theorem find?_spelledFields (fields : List (String × Value)) (key : String) :
    Table.find? (spelledFields fields) key = (Table.find? fields key).map spelled := by
  induction fields with
  | nil => rfl
  | cons field rest ih =>
    obtain ⟨k, v⟩ := field
    rw [spelledFields, spelledField, Table.find?_cons, Table.find?_cons, ih]
    split <;> rfl

theorem insert_spelledFields (fields : List (String × Value)) (key : String) (v : Value) :
    Table.insert (spelledFields fields) key v.spelled = spelledFields (Table.insert fields key v) := by
  induction fields with
  | nil => rfl
  | cons field rest ih =>
    obtain ⟨k, w⟩ := field
    rw [spelledFields, spelledField, Table.insert, Table.insert, ih]
    split <;> rfl

mutual

/-- **A merge is spelled** as the merge of what is spelled. -/
theorem spelled_merge (existing patch : Value) :
    (existing.merge patch).spelled = existing.spelled.merge patch.spelled := by
  match patch with
  | .object fields =>
    cases existing with
    | object base =>
      rw [merge_object_object, spelled, spelled, spelled, merge_object_object,
        spelledFields_merge base fields]
    | _ =>
      rw [merge_of_existing_not_isObject rfl, merge_of_existing_not_isObject]
      rfl
  | .null | .bool _ | .number _ | .string _ | .list _ | .unevaluated _ =>
    rw [merge_of_not_isObject rfl, merge_of_not_isObject]
    rfl
termination_by structural patch

theorem spelledFields_merge (base fields : List (String × Value)) :
    spelledFields (mergeFields base fields) =
      mergeFields (spelledFields base) (spelledFields fields) := by
  match fields with
  | [] => rw [spelledFields, mergeFields, mergeFields]
  | field :: rest =>
    rw [mergeFields, spelledFields, mergeFields, spelledFields_merge (mergeField base field) rest,
      spelledFields_mergeField base field]
termination_by structural fields

theorem spelledFields_mergeField (base : List (String × Value)) (field : String × Value) :
    spelledFields (mergeField base field) = mergeField (spelledFields base) (spelledField field) := by
  match field with
  | (key, value) =>
    rw [mergeField, spelledField, mergeField, find?_spelledFields]
    cases Table.find? base key with
    | none => exact (insert_spelledFields base key value).symm
    | some current =>
      simp only [Option.map_some]
      rw [← insert_spelledFields, spelled_merge current value]
termination_by structural field

end

mutual

/-- Data has no key twice. -/
theorem IsData.distinctKeys {v : Value} (h : v.IsData) : v.DistinctKeys := by
  match v with
  | .null | .bool _ | .number _ | .string _ => exact .scalar rfl
  | .unevaluated _ => exact h.elim
  | .list items => exact .list (distinctKeys_items h)
  | .object fields => exact .object h.1 (distinctKeys_fields h.2)
termination_by structural v

theorem distinctKeys_items {items : List Value} (h : PlainItems (fun _ => true) items) :
    ∀ v ∈ items, v.DistinctKeys := by
  match items with
  | [] => nofun
  | item :: rest => exact List.forall_mem_cons.2 ⟨IsData.distinctKeys h.1, distinctKeys_items h.2⟩
termination_by structural items

theorem distinctKeys_fields {fields : List (String × Value)}
    (h : PlainFields (fun _ => true) fields) : ∀ f ∈ fields, f.2.DistinctKeys := by
  match fields with
  | [] => nofun
  | field :: rest =>
    exact List.forall_mem_cons.2 ⟨distinctKeys_field h.1, distinctKeys_fields h.2⟩
termination_by structural fields

theorem distinctKeys_field {field : String × Value} (h : PlainField (fun _ => true) field) :
    field.2.DistinctKeys := by
  match field with
  | (key, value) => exact IsData.distinctKeys h
termination_by structural field

end

/-- **A patch merged again**: what was merged, with its numbers read again, has the same text after
the same patch. -/
theorem chars_merge_again {a b : Value} (ha : a.DistinctKeys) (hb : b.DistinctKeys)
    {reread : Number → Number}
    (h : ∀ n ∈ (a.merge b).numbers, (reread n).toChars = n.toChars) (indent : List Char) :
    (((a.merge b).mapNumbers reread).merge b).chars indent = (a.merge b).chars indent := by
  have hspelled : (((a.merge b).mapNumbers reread).merge b).spelled = (a.merge b).spelled := by
    rw [spelled_merge, spelled_mapNumbers _ h, ← spelled_merge, merge_merge_self ha hb]
  rw [← chars_spelled, hspelled, chars_spelled]

end HclOverlay.Value
