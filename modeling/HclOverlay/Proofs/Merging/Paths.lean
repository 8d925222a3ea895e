import HclOverlay.Proofs.Merging.Fields

/-!
# Merging path by path

A patch reaches into nested objects by paths of keys. Along a path on which both sides have objects
merging is merging again, so what is found at the end of a path is found out from the two sides alone.

* `Value.at?` — the value at the end of a path of keys.
* `at?_merge_of_both` — where both sides have something, the result has the merge of the two.
* `at?_merge_of_patch`, `at?_merge_of_existing` — which side wins where only one of them counts.
* `Merged`, `merge_pathwise` — **merging, key by key and path by path**.
-/

namespace HclOverlay.Value

/-- The value at the end of a path of keys. -/
def at? : Value → List String → Option Value
  | v, [] => some v
  | v, key :: rest => (v.field? key).bind (·.at? rest)

theorem at?_cons (v : Value) (key : String) (rest : List String) :
    v.at? (key :: rest) = (v.field? key).bind (·.at? rest) := rfl

theorem at?_cons_eq_some {v w : Value} {key : String} {rest : List String} :
    v.at? (key :: rest) = some w ↔ ∃ x, v.field? key = some x ∧ x.at? rest = some w := by
  rw [at?_cons, Option.bind_eq_some_iff]

namespace DistinctKeys

variable {v w a p : Value}

theorem at? (h : v.DistinctKeys) {path : List String} (hw : v.at? path = some w) :
    w.DistinctKeys := by
  induction path generalizing v with
  | nil =>
    cases hw
    exact h
  | cons key rest ih =>
    obtain ⟨x, hx, hw⟩ := at?_cons_eq_some.1 hw
    exact ih (h.field hx) hw

/-- Where both sides have something, the result has the merge of the two: the path leads through
objects on both sides. -/
theorem at?_merge_of_both (hp : p.DistinctKeys) {path : List String} {x y : Value}
    (hx : a.at? path = some x) (hy : p.at? path = some y) :
    (a.merge p).at? path = some (x.merge y) := by
  induction path generalizing a p with
  | nil =>
    cases hx
    cases hy
    rfl
  | cons key rest ih =>
    obtain ⟨x', hx', hx⟩ := at?_cons_eq_some.1 hx
    obtain ⟨y', hy', hy⟩ := at?_cons_eq_some.1 hy
    have hboth := And.intro (isObject_of_field? hx') (isObject_of_field? hy')
    rw [at?_cons, field?_merge hp.nodup hboth, hx', hy']
    exact ih (hp.field hy') hx hy

/-- Where the patch has something that is no object, the result has it too. -/
theorem at?_merge_of_patch (hp : p.DistinctKeys) {path : List String} {v : Value}
    (hv : p.at? path = some v) (hobject : v.isObject = false) :
    (a.merge p).at? path = some v := by
  induction path generalizing a p with
  | nil =>
    cases hv
    exact congrArg some (merge_of_not_isObject hobject)
  | cons key rest ih =>
    obtain ⟨y, hy, hv'⟩ := at?_cons_eq_some.1 hv
    cases ha : a.isObject with
    | false => rwa [merge_of_existing_not_isObject ha]
    | true =>
      rw [at?_cons, field?_merge hp.nodup ⟨ha, isObject_of_field? hy⟩, hy]
      cases a.field? key with
      | none => exact hv'
      | some x => exact ih (hp.field hy) hv'

/-- Where the patch has nothing, and nothing but objects on the way there, what was there stays. -/
theorem at?_merge_of_existing (hp : p.DistinctKeys) {path : List String} {v : Value}
    (hv : a.at? path = some v) (hnone : p.at? path = none)
    (hway : ∀ front, front <+: path → front ≠ path → ∀ w ∈ p.at? front, w.isObject = true) :
    (a.merge p).at? path = some v := by
  induction path generalizing a p with
  | nil => cases hnone
  | cons key rest ih =>
    obtain ⟨x, hx, hv'⟩ := at?_cons_eq_some.1 hv
    have hroot : p.isObject = true :=
      hway [] (List.nil_prefix) (List.cons_ne_nil key rest).symm p rfl
    rw [at?_cons, field?_merge hp.nodup ⟨isObject_of_field? hx, hroot⟩, hx]
    rw [at?_cons] at hnone
    cases hy : p.field? key with
    | none => exact hv'
    | some y =>
      rw [hy, Option.bind_some] at hnone
      refine ih (hp.field hy) hv' hnone fun front hfront hne w hw => ?_
      refine hway (key :: front) (List.cons_prefix_cons.2 ⟨rfl, hfront⟩) (by simpa using hne) w ?_
      rw [at?_cons, hy]
      exact hw

end DistinctKeys

/-! ## The result -/

/-- What the merge `m` of two objects is. -/
structure Merged (a p m : Value) : Prop where
  /-- the keys of `a` in their order, then those of `p` that `a` does not have in theirs -/
  keys : m.keys = a.keys ++ p.keys.filter (· ∉ a.keys)
  /-- under each key the value of the side that has it, or the merge of both -/
  fields : ∀ key, m.field? key = (a.field? key).merge merge (p.field? key)
  /-- what the patch has at the end of a path, unless it is an object -/
  ofPatch : ∀ path v, p.at? path = some v → v.isObject = false → m.at? path = some v
  /-- what was there at the end of a path where the patch has nothing, and only objects before -/
  ofExisting : ∀ path v, a.at? path = some v → p.at? path = none →
    (∀ front, front <+: path → front ≠ path → ∀ w ∈ p.at? front, w.isObject = true) →
    m.at? path = some v
  /-- where both sides have objects, an object with the keys of both -/
  inner : ∀ path x y, a.at? path = some x → p.at? path = some y → x.isObject = true →
    y.isObject = true → ∃ z, m.at? path = some z ∧ z.isObject = true ∧
      z.keys = x.keys ++ y.keys.filter (· ∉ x.keys)
  /-- no key comes twice -/
  distinct : m.DistinctKeys

/-- **Merging, key by key and path by path.** Unless both values are objects the patch wins; the
merge of two objects has the keys of both, and at the end of every path what the two sides say. -/
theorem merge_pathwise {a p : Value} (ha : a.DistinctKeys) (hp : p.DistinctKeys) :
    ((a.isObject && p.isObject) = false → a.merge p = p) ∧
      ((a.isObject && p.isObject) = true →
        (a.merge p).isObject = true ∧ Merged a p (a.merge p)) := by
  refine ⟨merge_eq_patch, fun h => ?_⟩
  have hboth : a.isObject = true ∧ p.isObject = true := by simpa using h
  refine ⟨(isObject_merge a p).trans hboth.2, ?_⟩
  exact {
    keys := keys_merge hp.nodup hboth
    fields := field?_merge hp.nodup hboth
    ofPatch := fun path v => hp.at?_merge_of_patch
    ofExisting := fun path v => hp.at?_merge_of_existing
    inner := by
      intro path x y hx hy hxobject hyobject
      have hyDistinct : y.DistinctKeys := hp.at? hy
      exact ⟨x.merge y, hp.at?_merge_of_both hx hy, (isObject_merge x y).trans hyobject,
        keys_merge hyDistinct.nodup ⟨hxobject, hyobject⟩⟩
    distinct := ha.merge hp }

/-- Two objects with a key of both kinds at each depth, and a path that ends inside of the patch. -/
theorem merge_pathwise_nested :
    let a : Value := .object [("tags", .object [("b", .bool true), ("a", .string "x")]),
      ("old", .null), ("gone", .object [("k", .null)])]
    let p : Value := .object [("new", .list []), ("gone", .string "no"),
      ("tags", .object [("c", .null), ("a", .string "y")])]
    (a.isObject && p.isObject) = true ∧ (a.merge p).keys = ["tags", "old", "gone", "new"] ∧
      (a.merge p).at? ["tags", "a"] = some (.string "y") ∧
      (a.merge p).at? ["tags", "b"] = some (.bool true) ∧
      (a.merge p).at? ["gone"] = some (.string "no") ∧
      (∃ z, (a.merge p).at? ["tags"] = some z ∧ z.keys = ["b", "a", "c"]) ∧
      ((Value.null).isObject && p.isObject) = false ∧ Value.null.merge p = p := by
  intro a p
  have ha : a.DistinctKeys := by
    refine .object (by decide) ?_
    simp only [List.forall_mem_cons]
    refine ⟨.object (by decide) ?_, .scalar rfl, .object (by decide) ?_, nofun⟩
    · exact List.forall_mem_cons.2 ⟨.scalar rfl, List.forall_mem_singleton.2 (.scalar rfl)⟩
    · exact List.forall_mem_singleton.2 (.scalar rfl)
  have hp : p.DistinctKeys := by
    refine .object (by decide) ?_
    simp only [List.forall_mem_cons]
    refine ⟨.list nofun, .scalar rfl, .object (by decide) ?_, nofun⟩
    exact List.forall_mem_cons.2 ⟨.scalar rfl, List.forall_mem_singleton.2 (.scalar rfl)⟩
  obtain ⟨-, hmerged⟩ := (merge_pathwise ha hp).2 rfl
  obtain ⟨z, hz, -, hkeys⟩ := hmerged.inner ["tags"] _ _ rfl rfl rfl rfl
  refine ⟨rfl, hmerged.keys.trans (by decide), hmerged.ofPatch _ _ rfl rfl,
    hmerged.ofExisting ["tags", "b"] _ rfl rfl ?_, hmerged.ofPatch _ _ rfl rfl, ⟨z, hz, ?_⟩, rfl,
    (merge_pathwise (.scalar rfl) hp).1 rfl⟩
  · intro front hfront hne w hw
    obtain rfl | ⟨rest, rfl, hrest⟩ := List.prefix_cons_iff.1 hfront
    · cases hw
      rfl
    · obtain rfl | ⟨last, rfl, hlast⟩ := List.prefix_cons_iff.1 hrest
      · cases hw
        rfl
      · exact absurd (List.prefix_nil.1 hlast ▸ rfl) hne
  · exact hkeys.trans (by decide)

end HclOverlay.Value
