/-!
# Tables in insertion order

A table is a list of keys with their values, in the order in which the keys first appeared. Objects,
block indices, patch attributes, parsed files and build plans are all tables.

* `find?` — the value of a key.
* `insert` — sets a key: in place if it is there, at the end if it is new.
* `insertNew` — adds a key only if it is new, so the first value stays.
* `modify` — changes the value of a key in place, starting from a default at the end if it is new.
-/

namespace HclOverlay

/-- Keys with values, in order of first appearance. -/
abbrev Table (κ : Type) (α : Type) := List (κ × α)

namespace Table

variable {κ α : Type} [BEq κ]

/-- The value of the first entry with the key. -/
def find? : Table κ α → κ → Option α
  | [], _ => none
  | (k, v) :: rest, key => if k == key then some v else find? rest key

/-- Whether the key has an entry. -/
def contains (t : Table κ α) (key : κ) : Bool :=
  (t.find? key).isSome

/-- Sets the value of a key; a key that is there keeps its place and its spelling. -/
def insert : Table κ α → κ → α → Table κ α
  | [], key, value => [(key, value)]
  | (k, v) :: rest, key, value =>
    if k == key then (k, value) :: rest else (k, v) :: insert rest key value

/-- Adds an entry unless the key already has one. -/
def insertNew (t : Table κ α) (key : κ) (value : α) : Table κ α :=
  if t.contains key then t else t ++ [(key, value)]

/-- Applies `f` to the value of a key, which starts as `start` at the end of the table. -/
def modify (t : Table κ α) (key : κ) (start : α) (f : α → α) : Table κ α :=
  t.insert key (f ((t.find? key).getD start))

/-- The keys, in order. -/
def keys (t : Table κ α) : List κ :=
  t.map Prod.fst

/-- A table built from entries of which a later one replaces the value of an earlier one. -/
def ofEntries (entries : List (κ × α)) : Table κ α :=
  entries.foldl (fun t e => t.insert e.1 e.2) []

/-! ## Lookup after insertion -/

@[simp] theorem find?_nil (key : κ) : find? ([] : Table κ α) key = none := rfl

theorem find?_cons (k : κ) (v : α) (t : Table κ α) (key : κ) :
    find? ((k, v) :: t) key = if k == key then some v else find? t key := rfl

@[simp] theorem find?_insert_self [LawfulBEq κ] (t : Table κ α) (key : κ) (value : α) :
    (t.insert key value).find? key = some value := by
  induction t with
  | nil => simp [insert, find?]
  | cons e rest ih =>
    obtain ⟨k, v⟩ := e
    by_cases h : (k == key) = true <;> simp [insert, find?, h, ih]

theorem find?_insert_of_ne [LawfulBEq κ] (t : Table κ α) {key other : κ} (value : α)
    (h : other ≠ key) : (t.insert key value).find? other = t.find? other := by
  induction t with
  | nil => simp [insert, find?, Ne.symm h]
  | cons e rest ih =>
    obtain ⟨k, v⟩ := e
    by_cases hk : (k == key) = true
    · have : k = key := by simpa using hk
      subst this
      simp [insert, find?, Ne.symm h]
    · simp [insert, find?, hk, ih]

/-- An entry of a table with a key set is the new one or an old one. -/
theorem mem_insert [LawfulBEq κ] {t : Table κ α} {key : κ} {value : α} {e : κ × α}
    (h : e ∈ t.insert key value) : e = (key, value) ∨ e ∈ t := by
  induction t with
  | nil => exact .inl (List.mem_singleton.1 h)
  | cons first rest ih =>
    obtain ⟨k, v⟩ := first
    rw [insert] at h
    split at h
    · next hk =>
      rcases List.mem_cons.1 h with rfl | h
      · exact .inl (by rw [eq_of_beq hk])
      · exact .inr (List.mem_cons_of_mem _ h)
    · rcases List.mem_cons.1 h with rfl | h
      · exact .inr List.mem_cons_self
      · exact (ih h).imp_right (List.mem_cons_of_mem _)

/-- An entry of a table with a new key is the new one or an old one. -/
theorem mem_insertNew {t : Table κ α} {key : κ} {value : α} {e : κ × α}
    (h : e ∈ t.insertNew key value) : e = (key, value) ∨ e ∈ t := by
  rw [insertNew] at h
  split at h
  · exact .inr h
  · exact (List.mem_append.1 h).symm.imp_left List.mem_singleton.1

/-- Setting a key that is there leaves the keys as they were. -/
theorem keys_insert_of_contains [LawfulBEq κ] (t : Table κ α) {key : κ} (value : α)
    (h : t.contains key = true) : (t.insert key value).keys = t.keys := by
  induction t with
  | nil => simp [contains, find?] at h
  | cons e rest ih =>
    obtain ⟨k, v⟩ := e
    by_cases hk : (k == key) = true
    · simp [insert, keys, hk]
    · have hr : contains rest key = true := by simpa [contains, find?, hk] using h
      simpa [insert, keys, hk] using ih hr

/-- Setting a new key adds it at the end. -/
theorem keys_insert_of_not_contains (t : Table κ α) {key : κ} (value : α)
    (h : t.contains key = false) : (t.insert key value).keys = t.keys ++ [key] := by
  induction t with
  | nil => simp [insert, keys]
  | cons e rest ih =>
    obtain ⟨k, v⟩ := e
    by_cases hk : (k == key) = true
    · simp [contains, find?, hk] at h
    · have hr : contains rest key = false := by simpa [contains, find?, hk] using h
      simpa [insert, keys, hk] using ih hr

end Table

end HclOverlay
