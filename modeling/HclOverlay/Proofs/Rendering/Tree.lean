import HclOverlay.Hcl.Reader.Expr
import HclOverlay.Proofs.Reading.Number
import HclOverlay.Value.Render
import Mathlib.Tactic.Tauto

/-!
# What rendered values look like to the reader

The text of a value is meant to be read as the syntax tree of this value. Two keys get in the way.
An object whose first key is `for` looks like a `for` expression, and the reader rejects it; a key
`null` is read as the keyword, which is no name, so that the object cannot be evaluated.

* `Number.reread?` — the number that the text of a number is read as.
* `Value.Plain` — the values at issue: no expression kept as text, only numbers of some kind, and
  distinct keys in every object.
* `Value.tree` — the syntax tree of a value rendered at some indentation.
* `Value.opensFor`, `Value.hasNullKey` — whether one of the two keys gets in the way somewhere.
* `Value.settled` — a value whose integers count as their signs say, as they do after reading;
  `Value.mapNumbers` — a value with any change of its numbers.
-/

namespace HclOverlay

open Hcl

/-- Whether a number is an integer of 64 bits. -/
def Number.isInteger : Number → Bool
  | .int n => fits n
  | .belowZero n => fits n
  | .float _ => false

/-- The integer that a number is read as again: one that counts as its sign says. -/
def Number.settled : Number → Number
  | .belowZero n => .int n
  | n => n

/-- The number without a sign that a whole text is. -/
def Number.ofUnsigned? (cs : List Char) : Option Number :=
  match readUnsigned? cs with
  | some (n, []) => some n
  | _ => none

/-- The number that the text of a number is read as, if it is one. -/
def Number.reread? (n : Number) : Option Number :=
  match n.toChars with
  | '-' :: digits => (ofUnsigned? digits).map neg
  | digits => ofUnsigned? digits

/-- Whether the text of a number is a number. -/
def Number.isReadable (n : Number) : Bool := n.reread?.isSome

/-- The text of a number that is read is one without a sign, or one behind a minus sign. -/
theorem Number.reread?_eq_some {n k : Number} (h : n.reread? = some k) :
    (∃ digits j, n.toChars = '-' :: digits ∧ Number.readUnsigned? digits = some (j, []) ∧
      j.neg = k) ∨ Number.readUnsigned? n.toChars = some (k, []) := by
  have hunsigned : ∀ {cs : List Char} {j : Number}, Number.ofUnsigned? cs = some j →
      Number.readUnsigned? cs = some (j, []) := by
    intro cs j hj
    unfold Number.ofUnsigned? at hj
    split at hj
    · next hread =>
      cases hj
      exact hread
    · cases hj
  unfold Number.reread? at h
  split at h
  · next digits hchars =>
    obtain ⟨j, hj, rfl⟩ := Option.map_eq_some_iff.1 h
    exact .inl ⟨digits, j, hchars, hunsigned hj, rfl⟩
  · exact .inr (hunsigned h)

/-- The text of an integer is read as this integer, counting as its sign says. -/
theorem Number.reread?_of_isInteger {n : Number} (h : n.isInteger = true) :
    n.reread? = some n.settled := by
  have hnatural : ∀ k : Nat, k < Decimal.unsignedLimit →
      ofUnsigned? (Decimal.digitsOf k) = some (.int k) := by
    intro k hk
    rw [ofUnsigned?, Reader.readUnsigned?_digitsOf hk]
  have hdigits : ∀ k, (∀ ds, Decimal.digitsOf k = '-' :: ds → False) := by
    intro k ds hds
    obtain ⟨d, tail, hd, hdigit⟩ := Decimal.digitsOf_eq_cons k
    rw [hd] at hds
    obtain ⟨rfl, -⟩ := List.cons.inj hds
    exact absurd hdigit (by decide)
  cases n with
  | float x => cases h
  | belowZero k =>
    simp only [isInteger, fits, Bool.and_eq_true, decide_eq_true_eq] at h
    have hk : k < Decimal.unsignedLimit := by exact_mod_cast h.2
    have hchars : (belowZero k).toChars = Decimal.digitsOf k := rfl
    unfold reread?
    rw [hchars]
    split
    · next ds hds => exact (hdigits k ds hds).elim
    · exact hnatural k hk
  | int k =>
    simp only [isInteger, fits, Bool.and_eq_true, decide_eq_true_eq] at h
    by_cases hneg : k < 0
    · have hchars : (int k).toChars = '-' :: Decimal.digitsOf k.natAbs := if_pos hneg
      have hlimit : k.natAbs ≤ Decimal.signedLimit := by omega
      have hk : k.natAbs < Decimal.unsignedLimit := Nat.lt_of_le_of_lt hlimit (by decide)
      unfold reread?
      rw [hchars]
      have habs : -(k.natAbs : Int) = k := by omega
      simp only [hnatural _ hk, Option.map_some, neg, settled]
      rw [if_pos (by exact_mod_cast hlimit), habs]
    · have hchars : (int k).toChars = Decimal.digitsOf k.natAbs := if_neg hneg
      have hk : k.natAbs < Decimal.unsignedLimit := by omega
      have habs : (k.natAbs : Int) = k := by omega
      unfold reread?
      rw [hchars]
      split
      · next ds hds => exact (hdigits _ ds hds).elim
      · rw [hnatural _ hk, habs]
        rfl

theorem Number.isReadable_of_isInteger {n : Number} (h : n.isInteger = true) :
    n.isReadable = true := by
  rw [isReadable, reread?_of_isInteger h]
  rfl

namespace Value

/-! ## Values at issue -/

mutual

/-- A value without expressions kept as text, whose numbers are of the given kind and whose objects
have distinct keys. -/
def Plain (kind : Number → Bool) : Value → Prop
  | .null => True
  | .bool _ => True
  | .number n => kind n = true
  | .string _ => True
  | .list items => PlainItems kind items
  | .object fields => (fields.map Prod.fst).Nodup ∧ PlainFields kind fields
  | .unevaluated _ => False
termination_by structural v => v

/-- Every item is such a value. -/
def PlainItems (kind : Number → Bool) : List Value → Prop
  | [] => True
  | item :: rest => item.Plain kind ∧ PlainItems kind rest
termination_by structural items => items

/-- The value of every field is such a value. -/
def PlainFields (kind : Number → Bool) : List (String × Value) → Prop
  | [] => True
  | field :: rest => PlainField kind field ∧ PlainFields kind rest
termination_by structural fields => fields

/-- The value of a field is such a value. -/
def PlainField (kind : Number → Bool) : String × Value → Prop
  | (_, value) => value.Plain kind
termination_by structural field => field

end

theorem plain_of_mem {kind : Number → Bool} {items : List Value} (h : PlainItems kind items) :
    ∀ v ∈ items, v.Plain kind := by
  induction items with
  | nil => simp
  | cons item rest ih =>
    rintro v (_ | ⟨_, hv⟩)
    · exact h.1
    · exact ih h.2 v hv

theorem plainItems_of_forall {kind : Number → Bool} {items : List Value}
    (h : ∀ v ∈ items, v.Plain kind) : PlainItems kind items := by
  induction items with
  | nil => trivial
  | cons item rest ih =>
    exact ⟨h item List.mem_cons_self, ih fun v hv => h v (List.mem_cons_of_mem _ hv)⟩

theorem plainField_of_mem {kind : Number → Bool} {fields : List (String × Value)}
    (h : PlainFields kind fields) : ∀ f ∈ fields, f.2.Plain kind := by
  induction fields with
  | nil => simp
  | cons field rest ih =>
    obtain ⟨key, value⟩ := field
    rintro f (_ | ⟨_, hf⟩)
    · exact h.1
    · exact ih h.2 f hf

theorem plainFields_of_forall {kind : Number → Bool} {fields : List (String × Value)}
    (h : ∀ f ∈ fields, f.2.Plain kind) : PlainFields kind fields := by
  induction fields with
  | nil => trivial
  | cons field rest ih =>
    obtain ⟨key, value⟩ := field
    exact ⟨h (key, value) List.mem_cons_self, ih fun f hf => h f (List.mem_cons_of_mem _ hf)⟩

mutual

/-- The numbers in a value. -/
def numbers : Value → List Number
  | .number n => [n]
  | .list items => numbersOfItems items
  | .object fields => numbersOfFields fields
  | _ => []
termination_by structural v => v

/-- The numbers in items. -/
def numbersOfItems : List Value → List Number
  | [] => []
  | item :: rest => item.numbers ++ numbersOfItems rest
termination_by structural items => items

/-- The numbers in the values of fields. -/
def numbersOfFields : List (String × Value) → List Number
  | [] => []
  | field :: rest => numbersOfField field ++ numbersOfFields rest
termination_by structural fields => fields

/-- The numbers in the value of a field. -/
def numbersOfField : String × Value → List Number
  | (_, value) => value.numbers
termination_by structural field => field

end

section

variable {kind : Number → Bool}

mutual

/-- Of what kind the numbers are is a matter of each of them alone. -/
theorem plain_iff (v : Value) :
    v.Plain kind ↔ v.Plain (fun _ => true) ∧ ∀ n ∈ v.numbers, kind n = true := by
  match v with
  | .null => simp [Plain, numbers]
  | .bool _ => simp [Plain, numbers]
  | .number n => simp [Plain, numbers]
  | .string _ => simp [Plain, numbers]
  | .unevaluated _ => simp [Plain]
  | .list items => simpa [Plain, numbers] using plainItems_iff items
  | .object fields =>
    have := plainFields_iff fields
    simp only [Plain, numbers]
    tauto
termination_by structural v

theorem plainItems_iff (items : List Value) :
    PlainItems kind items ↔
      PlainItems (fun _ => true) items ∧ ∀ n ∈ numbersOfItems items, kind n = true := by
  match items with
  | [] => simp [PlainItems, numbersOfItems]
  | item :: rest =>
    have hitem := plain_iff item
    have hrest := plainItems_iff rest
    simp only [PlainItems, numbersOfItems, List.forall_mem_append]
    tauto
termination_by structural items

theorem plainFields_iff (fields : List (String × Value)) :
    PlainFields kind fields ↔
      PlainFields (fun _ => true) fields ∧ ∀ n ∈ numbersOfFields fields, kind n = true := by
  match fields with
  | [] => simp [PlainFields, numbersOfFields]
  | field :: rest =>
    have hfield := plainField_iff field
    have hrest := plainFields_iff rest
    simp only [PlainFields, numbersOfFields, List.forall_mem_append]
    tauto
termination_by structural fields

theorem plainField_iff (field : String × Value) :
    PlainField kind field ↔
      PlainField (fun _ => true) field ∧ ∀ n ∈ numbersOfField field, kind n = true := by
  match field with
  | (_, value) => exact plain_iff value
termination_by structural field

end

/-- Numbers may be taken to be of a wider kind. -/
theorem Plain.mono {v : Value} {wide : Number → Bool} (h : v.Plain kind)
    (hkind : ∀ n, kind n = true → wide n = true) : v.Plain wide := by
  obtain ⟨hplain, hnumbers⟩ := (plain_iff v).1 h
  exact (plain_iff v).2 ⟨hplain, fun n hn => hkind n (hnumbers n hn)⟩

end

mutual

/-- The value with integers that count as their signs say. -/
def settled : Value → Value
  | .number n => .number n.settled
  | .list items => .list (settledItems items)
  | .object fields => .object (settledFields fields)
  | v => v
termination_by structural v => v

/-- Items with integers that count as their signs say. -/
def settledItems : List Value → List Value
  | [] => []
  | item :: rest => item.settled :: settledItems rest
termination_by structural items => items

/-- Fields with integers that count as their signs say. -/
def settledFields : List (String × Value) → List (String × Value)
  | [] => []
  | field :: rest => settledField field :: settledFields rest
termination_by structural fields => fields

/-- A field with integers that count as their signs say. -/
def settledField : String × Value → String × Value
  | (key, value) => (key, value.settled)
termination_by structural field => field

end

mutual

/-- The value with each number changed. -/
def mapNumbers (f : Number → Number) : Value → Value
  | .number n => .number (f n)
  | .list items => .list (mapNumbersOfItems f items)
  | .object fields => .object (mapNumbersOfFields f fields)
  | v => v
termination_by structural v => v

/-- Items with each number changed. -/
def mapNumbersOfItems (f : Number → Number) : List Value → List Value
  | [] => []
  | item :: rest => item.mapNumbers f :: mapNumbersOfItems f rest
termination_by structural items => items

/-- Fields with each number changed. -/
def mapNumbersOfFields (f : Number → Number) : List (String × Value) → List (String × Value)
  | [] => []
  | field :: rest => mapNumbersOfField f field :: mapNumbersOfFields f rest
termination_by structural fields => fields

/-- A field with each number changed. -/
def mapNumbersOfField (f : Number → Number) : String × Value → String × Value
  | (key, value) => (key, value.mapNumbers f)
termination_by structural field => field

end

mutual

/-- Settling a value is settling its numbers. -/
theorem settled_eq (v : Value) : v.settled = v.mapNumbers Number.settled := by
  match v with
  | .null => rfl
  | .bool _ => rfl
  | .number _ => rfl
  | .string _ => rfl
  | .unevaluated _ => rfl
  | .list items => rw [settled, mapNumbers, settledItems_eq items]
  | .object fields => rw [settled, mapNumbers, settledFields_eq fields]
termination_by structural v

theorem settledItems_eq (items : List Value) :
    settledItems items = mapNumbersOfItems Number.settled items := by
  match items with
  | [] => rfl
  | item :: rest => rw [settledItems, mapNumbersOfItems, settled_eq item, settledItems_eq rest]
termination_by structural items

theorem settledFields_eq (fields : List (String × Value)) :
    settledFields fields = mapNumbersOfFields Number.settled fields := by
  match fields with
  | [] => rfl
  | field :: rest => rw [settledFields, mapNumbersOfFields, settledField_eq field, settledFields_eq rest]
termination_by structural fields

theorem settledField_eq (field : String × Value) :
    settledField field = mapNumbersOfField Number.settled field := by
  match field with
  | (key, value) => rw [settledField, mapNumbersOfField, settled_eq value]
termination_by structural field

end

/-! ## Keys in the way -/

mutual

/-- Whether some object in a value starts with the key `for`. -/
def opensFor : Value → Bool
  | .list items => itemsOpenFor items
  | .object fields => (fields.map Prod.fst).head? == some "for" || fieldsOpenFor fields
  | _ => false
termination_by structural v => v

/-- Whether some object in the items starts with the key `for`. -/
def itemsOpenFor : List Value → Bool
  | [] => false
  | item :: rest => item.opensFor || itemsOpenFor rest
termination_by structural items => items

/-- Whether some object in the values of fields starts with the key `for`. -/
def fieldsOpenFor : List (String × Value) → Bool
  | [] => false
  | field :: rest => fieldOpensFor field || fieldsOpenFor rest
termination_by structural fields => fields

/-- Whether some object in the value of a field starts with the key `for`. -/
def fieldOpensFor : String × Value → Bool
  | (_, value) => value.opensFor
termination_by structural field => field

end

mutual

/-- Whether some object in a value has the key `null`. -/
def hasNullKey : Value → Bool
  | .list items => itemsHaveNullKey items
  | .object fields => fieldsHaveNullKey fields
  | _ => false
termination_by structural v => v

/-- Whether some object in the items has the key `null`. -/
def itemsHaveNullKey : List Value → Bool
  | [] => false
  | item :: rest => item.hasNullKey || itemsHaveNullKey rest
termination_by structural items => items

/-- Whether a field, or some object in its value, has the key `null`. -/
def fieldsHaveNullKey : List (String × Value) → Bool
  | [] => false
  | field :: rest => fieldHasNullKey field || fieldsHaveNullKey rest
termination_by structural fields => fields

/-- Whether the field, or some object in its value, has the key `null`. -/
def fieldHasNullKey : String × Value → Bool
  | (key, value) => key == "null" || value.hasNullKey
termination_by structural field => field

end

/-! ## Trees -/

/-- The expression that a rendered key is read as. -/
def keyTree (key : String) : Expr :=
  if Text.isIdentifier key then Reader.ofName key else .string key

mutual

/-- The tree of a value that is rendered on a line indented by `indent`. -/
def tree (indent : List Char) : Value → Expr
  | .null => .null
  | .bool b => .bool b
  | .number n => .number (n.reread?.getD n) n.toChars
  | .string s => .string s
  | .unevaluated _ => .null
  | .list [] => .list [] false []
  | .list (first :: rest) =>
    if (first :: rest).all isScalar then
      .list (⟨[], tree indent first, []⟩ :: inlineTrees indent rest) false []
    else .list (lineTrees (indent ++ indentStep) (first :: rest)) true ('\n' :: indent)
  | .object [] => .object [] []
  | .object (first :: rest) =>
    .object (fieldTree ['\n'] (indent ++ indentStep) first ::
      fieldTrees (indent ++ indentStep) rest) indent
termination_by structural v => v

/-- The trees of further items of a list on one line. -/
def inlineTrees (indent : List Char) : List Value → List (Padded Expr)
  | [] => []
  | item :: rest => ⟨[' '], tree indent item, []⟩ :: inlineTrees indent rest
termination_by structural items => items

/-- The trees of items on a line each. -/
def lineTrees (inner : List Char) : List Value → List (Padded Expr)
  | [] => []
  | item :: rest => ⟨'\n' :: inner, tree inner item, []⟩ :: lineTrees inner rest
termination_by structural items => items

/-- The trees of fields on a line each, behind the first. -/
def fieldTrees (inner : List Char) : List (String × Value) → List Item
  | [] => []
  | field :: rest => fieldTree [] inner field :: fieldTrees inner rest
termination_by structural fields => fields

/-- The tree of a field; `start` is what stands in front of its line. -/
def fieldTree (start inner : List Char) : String × Value → Item
  | (key, value) =>
    ⟨⟨start ++ inner, Reader.keyOf (keyTree key), [' ']⟩, false, ⟨[' '], tree inner value, []⟩,
      .newline⟩
termination_by structural field => field

end

end Value

end HclOverlay
