import HclOverlay.Value.Basic

/-!
# Combining values

How the value of a patch combines with the value an attribute already has.

* `Value.merge` — objects are merged key by key, recursively; anywhere else the patch wins. Keys
  keep their place, and new keys follow in the order of the patch.
* `Value.append` — lists are concatenated; anywhere else the patch wins.
* `Strategy.combine` — the choice between them. Nothing can be combined with an attribute that is
  missing or was never evaluated, so there the patch always wins.
-/

namespace HclOverlay

/-- How a patch value combines with the value it meets. -/
inductive Strategy where
  | replace
  | merge
  | append
  deriving DecidableEq

namespace Strategy

instance : Inhabited Strategy := ⟨.replace⟩

/-- The name of a strategy, which is also the function that selects it in an overlay. -/
def name : Strategy → String
  | .replace => "replace"
  | .merge => "merge"
  | .append => "append"

instance : ToString Strategy := ⟨name⟩

/-- The strategy a function name selects. -/
def ofFunction? (function : String) : Option Strategy :=
  if function = "replace" then some .replace
  else if function = "merge" then some .merge
  else if function = "append" then some .append
  else none

/-- Every strategy is selected by its own name, and by no other. -/
theorem ofFunction?_eq_some_iff {function : String} {s : Strategy} :
    ofFunction? function = some s ↔ function = s.name := by
  cases s <;> grind [ofFunction?, name]

end Strategy

namespace Value

mutual

/-- Deep merge: where both values are objects their fields are merged, elsewhere `patch` wins. -/
def merge (existing patch : Value) : Value :=
  match patch with
  | .object fields =>
    match existing with
    | .object base => .object (mergeFields base fields)
    | _ => .object fields
  | other => other
termination_by structural patch

/-- Merges the fields of a patch into those of an object, in order. -/
def mergeFields (base : List (String × Value)) : List (String × Value) → List (String × Value)
  | [] => base
  | field :: rest => mergeFields (mergeField base field) rest
termination_by structural fields => fields

/-- Merges one field: a key that is there is merged in place, a new one goes to the end. -/
def mergeField (base : List (String × Value)) : String × Value → List (String × Value)
  | (key, value) =>
    match Table.find? base key with
    | some current => Table.insert base key (merge current value)
    | none => Table.insert base key value
termination_by structural field => field

end

/-- Concatenation of two lists; in every other case `patch` wins. -/
def append (existing patch : Value) : Value :=
  match existing, patch with
  | .list items, .list extra => .list (items ++ extra)
  | _, _ => patch

end Value

/-- The new value of an attribute, from its current value (if it has one) and a patch value. -/
def Strategy.combine (strategy : Strategy) (existing : Option Value) (patch : Value) : Value :=
  match existing with
  | none => patch
  | some current =>
    if current.isUnevaluated then patch
    else
      match strategy with
      | .replace => patch
      | .merge => current.merge patch
      | .append => current.append patch

/-! ## Equations -/

namespace Value

theorem merge_object_object (base fields : List (String × Value)) :
    merge (.object base) (.object fields) = .object (mergeFields base fields) := by
  simp [merge]

/-- A patch that is not an object wins. -/
theorem merge_of_not_isObject {existing patch : Value} (h : patch.isObject = false) :
    merge existing patch = patch := by
  cases patch <;> simp_all [merge, isObject]

/-- A patch wins over anything that is not an object. -/
theorem merge_of_existing_not_isObject {existing patch : Value}
    (h : existing.isObject = false) : merge existing patch = patch := by
  cases patch <;> cases existing <;> simp_all [merge, isObject]

end Value

@[simp] theorem Strategy.combine_none (s : Strategy) (patch : Value) :
    s.combine none patch = patch := rfl

/-- Replacing ignores the current value. -/
@[simp] theorem Strategy.combine_replace (existing : Option Value) (patch : Value) :
    Strategy.replace.combine existing patch = patch := by
  unfold combine
  cases existing <;> simp

end HclOverlay
