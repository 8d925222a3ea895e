import HclOverlay.Table
import Mathlib.Data.List.Induction
import Mathlib.Data.List.Nodup

/-!
# Tables as maps

A table is a list of entries, but it is meant as a map from keys to values with an order of its keys.
If no key comes twice, this is all there is to it: the order of the keys and the value of each.

* `find?_eq_none_iff`, `mem_of_find?`, `find?_of_mem` — lookup and membership.
* `keys_insert`, `nodup_keys_insert` — the keys after a key was set.
* `nodup_keys_ofEntries`, `mem_of_mem_ofEntries` — what a table made of entries holds.
* `ext` — **tables are equal** if they have the same keys in the same order and the same values.
* `ofEntries_of_nodup` — entries of different keys are already a table.
* `gather` — a table that items change one after the other; its keys and values, and
  `map_gather`, where only a part of each value is looked at.
* `keys_ofEntries`, `find?_ofEntries` — a table made of any entries.
-/

namespace HclOverlay.Table

variable {κ α : Type} [BEq κ] [LawfulBEq κ] {t u : Table κ α} {key : κ} {v : α}

/-! ## Lookup -/

theorem mem_of_find? (h : t.find? key = some v) : (key, v) ∈ t := by
  induction t with
  | nil => cases h
  | cons e rest ih =>
    obtain ⟨k, w⟩ := e
    rw [find?_cons] at h
    split at h
    · next hk =>
      cases h
      rw [eq_of_beq hk]
      exact List.mem_cons_self
    · exact List.mem_cons_of_mem _ (ih h)

theorem find?_of_mem (ht : t.keys.Nodup) (h : (key, v) ∈ t) : t.find? key = some v := by
  induction t with
  | nil => cases h
  | cons e rest ih =>
    obtain ⟨k, w⟩ := e
    rw [keys, List.map_cons, List.nodup_cons] at ht
    rw [find?_cons]
    rcases List.mem_cons.1 h with heq | h
    · cases heq
      rw [if_pos (beq_self_eq_true key)]
    · have hne : ¬(k == key) = true := fun hk =>
        ht.1 (List.mem_map.2 ⟨_, h, (eq_of_beq hk).symm⟩)
      rw [if_neg hne, ih ht.2 h]

theorem not_mem_keys_of_find? (h : t.find? key = none) : key ∉ t.keys := by
  induction t with
  | nil => exact List.not_mem_nil
  | cons e rest ih =>
    rw [find?_cons] at h
    split at h
    · cases h
    · next hne =>
      rw [keys, List.map_cons, List.mem_cons]
      rintro (rfl | hmem)
      · exact hne (beq_self_eq_true _)
      · exact ih h hmem

/-- A key without a value is no key of the table. -/
theorem find?_eq_none_iff : t.find? key = none ↔ key ∉ t.keys := by
  refine ⟨not_mem_keys_of_find?, fun h => ?_⟩
  cases hv : t.find? key with
  | none => rfl
  | some v => exact absurd (List.mem_map.2 ⟨_, mem_of_find? hv, rfl⟩) h

/-- The value of a key is the first one that the table has for it. -/
theorem find?_eq_some_iff :
    t.find? key = some v ↔ ∃ front back, t = front ++ (key, v) :: back ∧ key ∉ keys front := by
  induction t with
  | nil => simp
  | cons e rest ih =>
    obtain ⟨k, w⟩ := e
    rw [find?_cons]
    by_cases hk : k = key
    · subst hk
      rw [if_pos (beq_self_eq_true k)]
      refine ⟨fun h => ⟨[], rest, by rw [Option.some.inj h]; rfl, List.not_mem_nil⟩, ?_⟩
      rintro ⟨front, back, hsplit, hfront⟩
      cases front with
      | nil => rw [(Prod.mk.inj (List.cons.inj hsplit).1).2]
      | cons e front =>
        obtain ⟨rfl, -⟩ := List.cons.inj hsplit
        exact absurd List.mem_cons_self hfront
    · rw [if_neg (by simpa using hk), ih]
      constructor
      · rintro ⟨front, back, rfl, hfront⟩
        refine ⟨(k, w) :: front, back, rfl, ?_⟩
        exact List.not_mem_cons_of_ne_of_not_mem (Ne.symm hk) hfront
      · rintro ⟨front, back, hsplit, hfront⟩
        cases front with
        | nil => exact absurd (Prod.mk.inj (List.cons.inj hsplit).1).1 hk
        | cons e front =>
          obtain ⟨rfl, rfl⟩ := List.cons.inj hsplit
          exact ⟨front, back, rfl, fun hmem => hfront (List.mem_cons_of_mem _ hmem)⟩

theorem contains_iff_mem_keys {k : κ} : t.contains k = true ↔ k ∈ t.keys := by
  rw [contains, Option.isSome_iff_ne_none, Ne, find?_eq_none_iff, not_not]

theorem find?_filter (p : κ → Bool) (key : κ) :
    Table.find? (t.filter fun e => p e.1) key = if p key then t.find? key else none := by
  induction t with
  | nil => simp
  | cons e rest ih =>
    obtain ⟨k, v⟩ := e
    by_cases hk : (k == key) = true
    · obtain rfl := eq_of_beq hk
      by_cases hp : p k = true <;> simp [find?_cons, hp, ih]
    · by_cases hp : p k = true <;> simp [find?_cons, hk, hp, ih]

/-! ## Keys -/

theorem keys_insert [DecidableEq κ] (t : Table κ α) (key : κ) (v : α) :
    (t.insert key v).keys = if key ∈ t.keys then t.keys else t.keys ++ [key] := by
  split
  · next h => exact keys_insert_of_contains t v (contains_iff_mem_keys.2 h)
  · next h =>
    rw [← contains_iff_mem_keys, Bool.not_eq_true] at h
    exact keys_insert_of_not_contains t v h

theorem nodup_keys_insert (h : t.keys.Nodup) : (t.insert key v).keys.Nodup := by
  cases hc : t.contains key with
  | true => rwa [keys_insert_of_contains t v hc]
  | false =>
    have hnew : key ∉ t.keys := by
      intro hmem
      obtain ⟨⟨k, w⟩, he, rfl⟩ := List.mem_map.1 hmem
      rw [contains, find?_of_mem h he] at hc
      cases hc
    rw [keys_insert_of_not_contains t v hc, List.nodup_append]
    refine ⟨h, by simp, fun a ha b hb heq => hnew ?_⟩
    rw [List.mem_singleton.1 hb] at heq
    rwa [heq] at ha

/-- Whatever the entries, no key of a table comes twice. -/
theorem nodup_keys_ofEntries (entries : List (κ × α)) : (ofEntries entries).keys.Nodup := by
  have hfold : ∀ (entries : List (κ × α)) (t : Table κ α), t.keys.Nodup →
      (entries.foldl (fun t e => t.insert e.1 e.2) t).keys.Nodup := by
    intro entries
    induction entries with
    | nil => exact fun t ht => ht
    | cons e rest ih => exact fun t ht => ih _ (nodup_keys_insert ht)
  exact hfold entries [] List.nodup_nil

/-- What a table holds is among the entries it was built from. -/
theorem mem_of_mem_ofEntries {entries : List (κ × α)} {e : κ × α} (h : e ∈ ofEntries entries) :
    e ∈ entries := by
  have hfold : ∀ (entries : List (κ × α)) (t : Table κ α),
      e ∈ entries.foldl (fun t e => t.insert e.1 e.2) t → e ∈ t ∨ e ∈ entries := by
    intro entries
    induction entries with
    | nil => exact fun t h => .inl h
    | cons first rest ih =>
      intro t h
      rcases ih _ h with h | h
      · rcases mem_insert h with rfl | h
        · exact .inr List.mem_cons_self
        · exact .inl h
      · exact .inr (List.mem_cons_of_mem first h)
  exact (hfold entries [] h).resolve_left List.not_mem_nil

/-! ## Equality -/

/-- **Tables are equal** if they have the same keys in the same order and the same values. -/
theorem ext (ht : t.keys.Nodup) (hkeys : t.keys = u.keys)
    (hfind : ∀ k, t.find? k = u.find? k) : t = u := by
  induction t generalizing u with
  | nil => exact (List.map_eq_nil_iff.1 hkeys.symm).symm
  | cons e rest ih =>
    obtain ⟨k, v⟩ := e
    cases u with
    | nil => cases hkeys
    | cons e' rest' =>
      obtain ⟨k', v'⟩ := e'
      obtain ⟨rfl, htail⟩ := List.cons.inj hkeys
      have htail : keys rest = keys rest' := htail
      rw [keys, List.map_cons, List.nodup_cons] at ht
      have hv : v = v' := by simpa [find?_cons] using hfind k
      subst hv
      -- the key of the first entries is none of the keys behind them
      have hrest : ∀ k', Table.find? rest k' = Table.find? rest' k' := by
        intro k'
        by_cases hk : (k == k') = true
        · obtain rfl := eq_of_beq hk
          rw [find?_eq_none_iff.2 ht.1, find?_eq_none_iff.2 (htail ▸ ht.1)]
        · simpa [find?_cons, hk] using hfind k'
      rw [ih ht.2 htail hrest]

theorem insert_eq_append (h : key ∉ t.keys) : t.insert key v = t ++ [(key, v)] := by
  induction t with
  | nil => rfl
  | cons e rest ih =>
    obtain ⟨k, w⟩ := e
    rw [keys, List.map_cons, List.mem_cons, not_or] at h
    have hk : ¬(k == key) = true := fun hk => h.1 (eq_of_beq hk).symm
    rw [insert, if_neg hk, ih h.2, List.cons_append]

/-- Entries of different keys are already a table. -/
theorem ofEntries_of_nodup {entries : List (κ × α)} (h : (keys entries).Nodup) :
    ofEntries entries = entries := by
  have hfold : ∀ (back front : Table κ α), (keys (front ++ back)).Nodup →
      back.foldl (fun t e => Table.insert t e.1 e.2) front = front ++ back := by
    intro back
    induction back with
    | nil => exact fun front _ => (List.append_nil front).symm
    | cons e rest ih =>
      intro front hnodup
      have hnew : e.1 ∉ keys front := by
        intro hmem
        rw [keys, List.map_append, List.nodup_append] at hnodup
        exact hnodup.2.2 e.1 hmem e.1 (List.mem_map.2 ⟨e, List.mem_cons_self, rfl⟩) rfl
      rw [List.foldl_cons, insert_eq_append hnew, ih _ (by simpa using hnodup)]
      simp
  exact hfold entries [] h

/-! ## Tables changed item by item -/

section Gather

variable {ι : Type}

theorem find?_modify (k other : κ) (start : α) (f : α → α) [Decidable (other = k)] :
    (t.modify k start f).find? other =
      if other = k then some (f ((t.find? k).getD start)) else t.find? other := by
  split
  · next h => rw [h, modify, find?_insert_self]
  · next h => exact find?_insert_of_ne _ _ h

variable (key : ι → κ) (start : ι → α) (f : ι → α → α)

/-- The table that items change one after the other: each item changes the value of its key. -/
def gather (items : List ι) : Table κ α :=
  items.foldl (fun t i => t.modify (key i) (start i) (f i)) []

omit [LawfulBEq κ] in
theorem gather_concat (items : List ι) (i : ι) :
    gather key start f (items ++ [i]) =
      (gather key start f items).modify (key i) (start i) (f i) := by
  rw [gather, List.foldl_append, List.foldl_cons, List.foldl_nil, gather]

/-- The keys are those of the items, in the order in which they first appear. -/
theorem keys_gather (items : List ι) :
    (gather key start f items).keys = (items.map key).eraseDups := by
  induction items using List.reverseRecOn with
  | nil => rfl
  | append_singleton items i ih =>
    rw [gather_concat, List.map_append, List.eraseDups_append, ← ih, modify, List.map_singleton]
    -- the last item adds its key unless an earlier one has it
    cases hi : (gather key start f items).contains (key i) with
    | true =>
      have hmem : key i ∈ items.map key := by
        rw [← List.mem_eraseDups, ← ih]
        exact contains_iff_mem_keys.1 hi
      rw [keys_insert_of_contains _ _ hi]
      simp [List.removeAll, hmem]
    | false =>
      have hnew : key i ∉ items.map key := by
        rw [← List.mem_eraseDups, ← ih, ← contains_iff_mem_keys, hi]
        exact Bool.false_ne_true
      rw [keys_insert_of_not_contains _ _ hi]
      simp [List.removeAll, hnew, List.eraseDups_cons]

/-- The value of a key comes from the items that have it, in order. -/
theorem find?_gather (items : List ι) (k : κ) :
    (gather key start f items).find? k = (items.find? (key · == k)).map fun first =>
      (items.filter (key · == k)).foldl (fun v i => f i v) (start first) := by
  classical
  induction items using List.reverseRecOn with
  | nil => rfl
  | append_singleton items i ih =>
    rw [gather_concat, find?_modify, List.find?_append, List.filter_append]
    by_cases hi : k = key i
    · subst hi
      rw [if_pos rfl, ih]
      cases hfirst : items.find? (key · == key i) with
      | some first => simp
      | none =>
        have hnone : items.filter (key · == key i) = [] := by
          simpa [List.filter_eq_nil_iff] using hfirst
        simp [hnone]
    · have hne : (key i == k) = false := beq_eq_false_iff_ne.2 (Ne.symm hi)
      rw [if_neg hi, ih]
      simp [hne]

section Map

omit [LawfulBEq κ]

variable {β : Type} (g : α → β)

theorem find?_map (t : Table κ α) (k : κ) :
    find? (t.map (Prod.map id g)) k = (t.find? k).map g := by
  induction t with
  | nil => rfl
  | cons e rest ih =>
    rw [List.map_cons, find?, Prod.map_fst, Prod.map_snd, id_eq, ih, find?]
    split <;> rfl

theorem map_insert (t : Table κ α) (k : κ) (v : α) :
    (t.insert k v).map (Prod.map id g) = insert (t.map (Prod.map id g)) k (g v) := by
  induction t with
  | nil => rfl
  | cons e rest ih =>
    rw [insert, List.map_cons, insert, Prod.map_fst, Prod.map_snd, id_eq, ← ih]
    exact apply_ite (List.map (Prod.map id g)) ..

variable {g} {ι' : Type} {start' : ι' → β} {f' : ι' → β → β}

/-- If a part of the values is changed by a part of the items, it is gathered from this part. -/
theorem map_gather (key' : ι' → κ) (h : ι → ι') (hkey : ∀ i, key' (h i) = key i)
    (hstart : ∀ i, g (start i) = start' (h i)) (hf : ∀ i a, g (f i a) = f' (h i) (g a))
    (items : List ι) :
    (gather key start f items).map (Prod.map id g) = gather key' start' f' (items.map h) := by
  induction items using List.reverseRecOn with
  | nil => rfl
  | append_singleton items i ih =>
    rw [gather_concat, List.map_append, List.map_singleton, gather_concat, ← ih, modify, modify,
      map_insert, find?_map, hkey, hf, ← hstart, Option.getD_map]

end Map

end Gather

/-! ## Tables of entries -/

/-- The keys are those of the entries, in the order in which they first appear. -/
theorem keys_ofEntries (entries : List (κ × α)) :
    (ofEntries entries).keys = (entries.map Prod.fst).eraseDups :=
  keys_gather Prod.fst Prod.snd (fun e _ => e.2) entries

/-- The value of a key is that of the last entry with it. -/
theorem find?_ofEntries (entries : List (κ × α)) (k : κ) :
    (ofEntries entries).find? k = (entries.filter (·.1 == k)).getLast?.map Prod.snd := by
  have hlast : ∀ (found : List (κ × α)) (v : α),
      found.foldl (fun _ e => e.2) v = (found.getLast?.map Prod.snd).getD v := by
    intro found
    induction found using List.reverseRecOn with
    | nil => exact fun v => rfl
    | append_singleton found e _ => simp
  refine (find?_gather Prod.fst Prod.snd (fun e _ => e.2) entries k).trans ?_
  rw [← List.head?_filter]
  cases hfound : entries.filter (·.1 == k) with
  | nil => rfl
  | cons e rest => simp [hlast, List.getLast?_cons]

end HclOverlay.Table
