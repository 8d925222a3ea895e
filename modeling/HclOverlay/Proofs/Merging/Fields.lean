import HclOverlay.Proofs.Tables
import HclOverlay.Value.Merge

/-!
# The fields of a merged object

Merging goes through the fields of a patch and updates the fields of an object one by one. What comes
of it is said here without the steps: which keys the merged object has, in which order, and which
value each of them has.

* `Value.DistinctKeys` — no object has a key twice, at any depth.
* `Value.keys`, `Value.field?` — an object as its keys in order and the value of each; `object_ext`
  says that this is all of it.
* `keys_mergeFields`, `find?_mergeFields` — the fields after all steps, by induction over them.
* `keys_merge`, `field?_merge` — **the keys and the fields** of a merged object.
* `DistinctKeys.merge` — merging gives no key twice.
-/

namespace HclOverlay.Value

/-! ## Objects as maps -/

/-- No object has a key twice, at any depth. -/
inductive DistinctKeys : Value → Prop
  | scalar {v : Value} (h : v.isScalar = true) : DistinctKeys v
  | list {items : List Value} (h : ∀ v ∈ items, DistinctKeys v) : DistinctKeys (.list items)
  | object {fields : List (String × Value)} (nodup : (Table.keys fields).Nodup)
      (h : ∀ f ∈ fields, DistinctKeys f.2) : DistinctKeys (.object fields)

/-- The keys of an object, in order; other values have none. -/
def keys : Value → List String
  | .object fields => Table.keys fields
  | _ => []

/-- The value that an object has under a key. -/
def field? : Value → String → Option Value
  | .object fields, key => Table.find? fields key
  | _, _ => none

@[simp] theorem keys_object (fields : List (String × Value)) :
    (object fields).keys = Table.keys fields := rfl

@[simp] theorem field?_object (fields : List (String × Value)) (key : String) :
    (object fields).field? key = Table.find? fields key := rfl

theorem isObject_iff {v : Value} : v.isObject = true ↔ ∃ fields, v = .object fields := by
  cases v <;> simp [isObject]

theorem isObject_of_field? {v w : Value} {key : String} (h : v.field? key = some w) :
    v.isObject = true := by
  cases v with
  | object fields => rfl
  | _ => cases h

theorem field?_of_isScalar {v : Value} (h : v.isScalar = true) (key : String) :
    v.field? key = none := by
  cases v with
  | object fields => cases h
  | _ => rfl

/-- Objects are equal if they have the same keys in the same order and the same fields. -/
theorem object_ext {v w : Value} (hv : v.isObject = true) (hw : w.isObject = true)
    (hnodup : v.keys.Nodup) (hkeys : v.keys = w.keys)
    (hfields : ∀ key, v.field? key = w.field? key) : v = w := by
  obtain ⟨fields, rfl⟩ := isObject_iff.1 hv
  obtain ⟨fields', rfl⟩ := isObject_iff.1 hw
  exact congrArg object (Table.ext hnodup hkeys hfields)

namespace DistinctKeys

variable {v w : Value}

theorem nodup (h : v.DistinctKeys) : v.keys.Nodup := by
  cases h with
  | scalar h =>
    cases v with
    | object fields => cases h
    | _ => exact List.nodup_nil
  | list h => exact List.nodup_nil
  | object nodup h => exact nodup

theorem field (h : v.DistinctKeys) {key : String} (hw : v.field? key = some w) :
    w.DistinctKeys := by
  cases h with
  | scalar h => cases (field?_of_isScalar h key).symm.trans hw
  | list h => cases hw
  | object nodup h => exact h _ (Table.mem_of_find? hw)

/-- What holds of a value as soon as it holds of its fields holds of every value. -/
theorem fieldInduction {P : (v : Value) → v.DistinctKeys → Prop}
    (fields : ∀ (v : Value) (h : v.DistinctKeys),
      (∀ key w (hw : v.field? key = some w), P w (h.field hw)) → P v h)
    (h : v.DistinctKeys) : P v h := by
  induction h with
  | @scalar v h =>
    refine fields v (.scalar h) fun key w hw => ?_
    cases (field?_of_isScalar h key).symm.trans hw
  | list h _ => exact fields _ (.list h) nofun
  | object nodup h ih =>
    exact fields _ (.object nodup h) fun key w hw => ih _ (Table.mem_of_find? hw)

end DistinctKeys

/-! ## One field after the other -/

variable {base fields : List (String × Value)}

theorem keys_mergeField (base : List (String × Value)) (key : String) (value : Value) :
    Table.keys (mergeField base (key, value)) =
      if key ∈ Table.keys base then Table.keys base else Table.keys base ++ [key] := by
  rw [mergeField]
  split <;> exact Table.keys_insert _ _ _

/-- A field is merged with the one of its key, and is new without one. -/
theorem find?_mergeField (base : List (String × Value)) (key : String) (value : Value)
    (other : String) :
    Table.find? (mergeField base (key, value)) other =
      if other = key then (Table.find? base key).merge merge (some value)
      else Table.find? base other := by
  rw [mergeField]
  by_cases h : other = key
  · subst h
    rw [if_pos rfl]
    cases Table.find? base other with
    | none => exact Table.find?_insert_self base other value
    | some current => exact Table.find?_insert_self base other (current.merge value)
  · rw [if_neg h]
    split <;> exact Table.find?_insert_of_ne base _ h

/-- The keys that are there stay, and the new ones follow in the order of the patch. -/
theorem keys_mergeFields (h : (Table.keys fields).Nodup) :
    Table.keys (mergeFields base fields) =
      Table.keys base ++ (Table.keys fields).filter (· ∉ Table.keys base) := by
  induction fields generalizing base with
  | nil => simp [mergeFields, Table.keys]
  | cons field rest ih =>
    obtain ⟨key, value⟩ := field
    have hcons : Table.keys ((key, value) :: rest) = key :: Table.keys rest := rfl
    rw [hcons, List.nodup_cons] at h
    rw [mergeFields, ih h.2, keys_mergeField, hcons]
    by_cases hkey : key ∈ Table.keys base
    · simp [hkey]
    · -- a key that was added now is not among those that follow
      have hrest : (Table.keys rest).filter (· ∉ Table.keys base ++ [key]) =
          (Table.keys rest).filter (· ∉ Table.keys base) := by
        refine List.filter_congr fun k hk => ?_
        have hne : k ≠ key := fun heq => h.1 (heq ▸ hk)
        simp [hne]
      rw [if_neg hkey, hrest, List.filter_cons_of_pos (by simpa using hkey), List.append_assoc,
        List.singleton_append]

/-- Each key has the value of the side that has it, or the merge of both. -/
theorem find?_mergeFields (h : (Table.keys fields).Nodup) (key : String) :
    Table.find? (mergeFields base fields) key =
      (Table.find? base key).merge merge (Table.find? fields key) := by
  induction fields generalizing base with
  | nil =>
    rw [mergeFields, Table.find?_nil]
    cases Table.find? base key <;> rfl
  | cons field rest ih =>
    obtain ⟨k, value⟩ := field
    have hcons : Table.keys ((k, value) :: rest) = k :: Table.keys rest := rfl
    rw [hcons, List.nodup_cons] at h
    rw [mergeFields, ih h.2, find?_mergeField, Table.find?_cons]
    by_cases hk : key = k
    · subst hk
      rw [if_pos rfl, if_pos (beq_self_eq_true key), Table.find?_eq_none_iff.2 h.1]
      cases Table.find? base key <;> rfl
    · rw [if_neg hk, if_neg (by simpa using Ne.symm hk)]

/-! ## Merged objects -/

variable {a p : Value}

/-- Unless both values are objects, the patch wins. -/
theorem merge_eq_patch (h : (a.isObject && p.isObject) = false) : a.merge p = p := by
  cases ha : a.isObject with
  | false => exact merge_of_existing_not_isObject ha
  | true =>
    rw [ha, Bool.true_and] at h
    exact merge_of_not_isObject h

theorem isObject_merge (a p : Value) : (a.merge p).isObject = p.isObject := by
  cases hboth : a.isObject && p.isObject with
  | false => rw [merge_eq_patch hboth]
  | true =>
    rw [Bool.and_eq_true] at hboth
    obtain ⟨base, rfl⟩ := isObject_iff.1 hboth.1
    obtain ⟨fields, rfl⟩ := isObject_iff.1 hboth.2
    rw [merge_object_object]
    rfl

/-- **The keys** of a merged object: those that were there, then the new ones of the patch. -/
theorem keys_merge (hp : p.keys.Nodup) (hboth : a.isObject = true ∧ p.isObject = true) :
    (a.merge p).keys = a.keys ++ p.keys.filter (· ∉ a.keys) := by
  obtain ⟨base, rfl⟩ := isObject_iff.1 hboth.1
  obtain ⟨fields, rfl⟩ := isObject_iff.1 hboth.2
  rw [merge_object_object]
  exact keys_mergeFields hp

/-- **The fields** of a merged object: each of the side that has it, or the merge of both. -/
theorem field?_merge (hp : p.keys.Nodup) (hboth : a.isObject = true ∧ p.isObject = true)
    (key : String) : (a.merge p).field? key = (a.field? key).merge merge (p.field? key) := by
  obtain ⟨base, rfl⟩ := isObject_iff.1 hboth.1
  obtain ⟨fields, rfl⟩ := isObject_iff.1 hboth.2
  rw [merge_object_object]
  exact find?_mergeFields hp key

/-- Merging gives no key twice. -/
theorem DistinctKeys.merge (ha : a.DistinctKeys) (hp : p.DistinctKeys) :
    (a.merge p).DistinctKeys := by
  induction hp using DistinctKeys.fieldInduction generalizing a with
  | fields p hp ih =>
    cases hboth : a.isObject && p.isObject with
    | false => rwa [merge_eq_patch hboth]
    | true =>
      rw [Bool.and_eq_true] at hboth
      have hkeys := keys_merge hp.nodup hboth
      have hfields := field?_merge hp.nodup hboth
      obtain ⟨merged, hmerged⟩ := isObject_iff.1 ((isObject_merge a p).trans hboth.2)
      rw [hmerged] at hkeys hfields ⊢
      have hnodup : (Table.keys merged).Nodup := by
        rw [← keys_object, hkeys, List.nodup_append]
        refine ⟨ha.nodup, hp.nodup.filter _, fun k hk k' hk' heq => ?_⟩
        exact of_decide_eq_true (List.mem_filter.1 hk').2 (heq ▸ hk)
      refine .object hnodup fun f hf => ?_
      have hf : (a.field? f.1).merge Value.merge (p.field? f.1) = some f.2 := by
        rw [← hfields]
        exact Table.find?_of_mem hnodup hf
      -- a field of the merged object comes from one side or from both
      cases hfa : a.field? f.1 with
      | none =>
        cases hfp : p.field? f.1 with
        | none => simp [hfa, hfp] at hf
        | some y =>
          simp only [hfa, hfp, Option.merge, Option.some.injEq] at hf
          exact hf ▸ hp.field hfp
      | some x =>
        cases hfp : p.field? f.1 with
        | none =>
          simp only [hfa, hfp, Option.merge, Option.some.injEq] at hf
          exact hf ▸ ha.field hfa
        | some y =>
          simp only [hfa, hfp, Option.merge, Option.some.injEq] at hf
          exact hf ▸ ih _ _ hfp (ha.field hfa)

end HclOverlay.Value
