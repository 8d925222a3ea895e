import HclOverlay.Proofs.Merging.Paths

/-!
# The laws of merging

Whether an overlay may be applied again, and whether two overlays may be made one. All laws are
equations of values, the order of the keys included.

* `merge_self` — a value merged with itself is itself.
* `Joined`, `merge_assoc` — **merging is associative** where the middle value does not replace an
  object that the last one would have been merged with.
* `merge_merge_self`, `merge_merge_left` — a patch that was merged is absorbed; both are instances
  of associativity.
* `Strategy.combine_combine_merge` — two merging patches, one after the other, are one.
-/

namespace HclOverlay.Value

variable {a b c : Value}

/-! ## A value and itself -/

/-- A value merged with itself is itself. -/
theorem merge_self (ha : a.DistinctKeys) : a.merge a = a := by
  induction ha using DistinctKeys.fieldInduction with
  | fields a ha ih =>
    cases hobject : a.isObject with
    | false => exact merge_of_not_isObject hobject
    | true =>
      have hboth := And.intro hobject hobject
      have hkeys : (a.merge a).keys = a.keys := by
        rw [keys_merge ha.nodup hboth]
        simp
      refine object_ext ((isObject_merge a a).trans hobject) hobject ?_ hkeys fun key => ?_
      · exact hkeys ▸ ha.nodup
      · rw [field?_merge ha.nodup hboth]
        cases hx : a.field? key with
        | none => rfl
        | some x => exact congrArg some (ih key x hx)

/-! ## Three values -/

/-- At no path does `b` have something else than an object where `a` and `c` both have objects. -/
def Joined (a b c : Value) : Prop :=
  ∀ path x y z, a.at? path = some x → b.at? path = some y → c.at? path = some z →
    x.isObject = true → z.isObject = true → y.isObject = true

namespace Joined

/-- A value is joined by itself to anything that follows. -/
theorem self_left (a c : Value) : Joined a a c := by
  intro path x y z hx hy hz hxobject hzobject
  cases hx.symm.trans hy
  exact hxobject

/-- A value is joined by itself to anything before it. -/
theorem self_right (a c : Value) : Joined a c c := by
  intro path x y z hx hy hz hxobject hzobject
  cases hy.symm.trans hz
  exact hzobject

theorem root (h : Joined a b c) (ha : a.isObject = true) (hc : c.isObject = true) :
    b.isObject = true :=
  h [] a b c rfl rfl rfl ha hc

theorem field (h : Joined a b c) {key : String} {x y z : Value} (hx : a.field? key = some x)
    (hy : b.field? key = some y) (hz : c.field? key = some z) : Joined x y z := by
  intro path x' y' z' hx' hy' hz'
  refine h (key :: path) x' y' z' ?_ ?_ ?_
  · exact at?_cons_eq_some.2 ⟨x, hx, hx'⟩
  · exact at?_cons_eq_some.2 ⟨y, hy, hy'⟩
  · exact at?_cons_eq_some.2 ⟨z, hz, hz'⟩

/-- An object joins two values as soon as its fields join theirs. -/
theorem of_fields (hb : b.isObject = true)
    (h : ∀ key x y z, a.field? key = some x → b.field? key = some y → c.field? key = some z →
      Joined x y z) : Joined a b c := by
  intro path x y z hx hy hz hxobject hzobject
  cases path with
  | nil =>
    cases hy
    exact hb
  | cons key rest =>
    obtain ⟨x', hx', hx⟩ := at?_cons_eq_some.1 hx
    obtain ⟨y', hy', hy⟩ := at?_cons_eq_some.1 hy
    obtain ⟨z', hz', hz⟩ := at?_cons_eq_some.1 hz
    exact h key x' y' z' hx' hy' hz' rest x y z hx hy hz hxobject hzobject

end Joined

/-- What is new in `ks` and then new in `ls` is what is new in `ks` and then its own new ones. -/
theorem filter_new_append (as ks ls : List String) :
    as ++ ks.filter (· ∉ as) ++ ls.filter (· ∉ as ++ ks.filter (· ∉ as)) =
      as ++ (ks ++ ls.filter (· ∉ ks)).filter (· ∉ as) := by
  have hls : (ls.filter (· ∉ ks)).filter (· ∉ as) =
      ls.filter (· ∉ as ++ ks.filter (· ∉ as)) := by
    rw [List.filter_filter]
    refine List.filter_congr fun k _ => ?_
    by_cases hk : k ∈ as <;> simp [hk]
  rw [List.append_assoc, List.filter_append, hls]

/-- **Merging is associative** where the middle value does not stand in the way. -/
theorem merge_assoc (ha : a.DistinctKeys) (hb : b.DistinctKeys) (hc : c.DistinctKeys)
    (h : Joined a b c) : (a.merge b).merge c = a.merge (b.merge c) := by
  induction hc using DistinctKeys.fieldInduction generalizing a b with
  | fields c hc ih =>
    cases hco : c.isObject with
    | false => simp only [merge_of_not_isObject hco]
    | true =>
      cases hbo : b.isObject with
      | false =>
        -- the middle value replaces what is there, so that may not be an object
        have hao : a.isObject = false := by
          cases hao : a.isObject with
          | false => rfl
          | true => exact (h.root hao hco).symm.trans hbo
        rw [merge_of_not_isObject hbo, merge_of_existing_not_isObject hbo,
          merge_of_existing_not_isObject hao]
      | true =>
        cases hao : a.isObject with
        | false => rw [merge_of_existing_not_isObject hao, merge_of_existing_not_isObject hao]
        | true =>
          have hab : (a.merge b).isObject = true := (isObject_merge a b).trans hbo
          have hbc : (b.merge c).isObject = true := (isObject_merge b c).trans hco
          have hbcDistinct := hb.merge hc
          refine object_ext ((isObject_merge _ c).trans hco) ((isObject_merge a _).trans hbc)
            ((ha.merge hb).merge hc).nodup ?_ fun key => ?_
          · rw [keys_merge hc.nodup ⟨hab, hco⟩, keys_merge hb.nodup ⟨hao, hbo⟩,
              keys_merge hbcDistinct.nodup ⟨hao, hbc⟩, keys_merge hc.nodup ⟨hbo, hco⟩]
            exact filter_new_append a.keys b.keys c.keys
          · rw [field?_merge hc.nodup ⟨hab, hco⟩, field?_merge hb.nodup ⟨hao, hbo⟩,
              field?_merge hbcDistinct.nodup ⟨hao, hbc⟩, field?_merge hc.nodup ⟨hbo, hco⟩]
            -- only a key that all three have needs the law again
            cases hx : a.field? key with
            | none => cases b.field? key <;> cases c.field? key <;> rfl
            | some x =>
              cases hy : b.field? key with
              | none => cases c.field? key <;> rfl
              | some y =>
                cases hz : c.field? key with
                | none => rfl
                | some z =>
                  exact congrArg some
                    (ih key z hz (ha.field hx) (hb.field hy) (h.field hx hy hz))

/-- A patch merged a second time changes nothing. -/
theorem merge_merge_self (ha : a.DistinctKeys) (hb : b.DistinctKeys) :
    (a.merge b).merge b = a.merge b := by
  rw [merge_assoc ha hb hb (Joined.self_right a b), merge_self hb]

/-- Merging in the result of a merge changes nothing more than the merge did. -/
theorem merge_merge_left (ha : a.DistinctKeys) (hb : b.DistinctKeys) :
    a.merge (a.merge b) = a.merge b := by
  rw [← merge_assoc ha ha hb (Joined.self_left a b), merge_self ha]

end HclOverlay.Value

namespace HclOverlay

/-- Merging into a value that is there is merging, whether or not it was evaluated. -/
theorem Strategy.combine_merge_some (current patch : Value) :
    Strategy.merge.combine (some current) patch = current.merge patch := by
  cases hcurrent : current.isUnevaluated with
  | false => simp [combine, hcurrent]
  | true =>
    have hobject : current.isObject = false := by
      cases current with
      | unevaluated source => rfl
      | _ => cases hcurrent
    simp [combine, hcurrent, Value.merge_of_existing_not_isObject hobject]

/-- Two merging patches, one after the other, are one merging patch of their merge. -/
theorem Strategy.combine_combine_merge {existing : Option Value} {b c : Value}
    (hexisting : ∀ a ∈ existing, a.DistinctKeys ∧ Value.Joined a b c) (hb : b.DistinctKeys)
    (hc : c.DistinctKeys) :
    Strategy.merge.combine (some (Strategy.merge.combine existing b)) c =
      Strategy.merge.combine existing (b.merge c) := by
  cases existing with
  | none => exact combine_merge_some b c
  | some a =>
    obtain ⟨ha, hjoined⟩ := hexisting a rfl
    simp only [combine_merge_some]
    exact Value.merge_assoc ha hb hc hjoined

/-- **The laws of merging**: a patch that was merged is absorbed, a value absorbs itself, and two
patches are one where the first does not replace an object that the second adds to. -/
theorem Value.merge_laws {a b c : Value} (ha : a.DistinctKeys) (hb : b.DistinctKeys)
    (hc : c.DistinctKeys) :
    (a.merge b).merge b = a.merge b ∧ a.merge (a.merge b) = a.merge b ∧ a.merge a = a ∧
      (Joined a b c → (a.merge b).merge c = a.merge (b.merge c)) ∧
      ∀ existing : Option Value, (∀ e ∈ existing, e.DistinctKeys ∧ Joined e b c) →
        Strategy.merge.combine (some (Strategy.merge.combine existing b)) c =
          Strategy.merge.combine existing (b.merge c) := by
  refine ⟨merge_merge_self ha hb, merge_merge_left ha hb, merge_self ha, merge_assoc ha hb hc, ?_⟩
  intro existing hexisting
  exact Strategy.combine_combine_merge hexisting hb hc

/-- Three objects that meet in an inner object, and where the second one replaces a text. -/
theorem Value.merge_laws_nested :
    let a : Value := .object [("tags", .object [("b", .null)]), ("name", .string "x")]
    let b : Value := .object [("name", .object []), ("tags", .object [("c", .null)])]
    let c : Value := .object [("tags", .object [("b", .bool true), ("d", .null)]), ("new", .null)]
    Joined a b c ∧ (a.merge b).merge b = a.merge b ∧ a.merge (a.merge b) = a.merge b ∧
      a.merge a = a ∧ (a.merge b).merge c = a.merge (b.merge c) ∧
      Strategy.merge.combine (some (Strategy.merge.combine (some a) b)) c =
        Strategy.merge.combine (some a) (b.merge c) := by
  intro a b c
  have ha : a.DistinctKeys := by
    refine .object (by decide) (List.forall_mem_cons.2 ⟨.object (by decide) ?_, ?_⟩)
    · exact List.forall_mem_singleton.2 (.scalar rfl)
    · exact List.forall_mem_singleton.2 (.scalar rfl)
  have hb : b.DistinctKeys := by
    refine .object (by decide) (List.forall_mem_cons.2 ⟨.object (by decide) nofun, ?_⟩)
    refine List.forall_mem_singleton.2 (.object (by decide) ?_)
    exact List.forall_mem_singleton.2 (.scalar rfl)
  have hc : c.DistinctKeys := by
    refine .object (by decide) (List.forall_mem_cons.2 ⟨.object (by decide) ?_, ?_⟩)
    · exact List.forall_mem_cons.2 ⟨.scalar rfl, List.forall_mem_singleton.2 (.scalar rfl)⟩
    · exact List.forall_mem_singleton.2 (.scalar rfl)
  have hjoined : Joined a b c := by
    refine .of_fields rfl fun key x y z hx hy hz => ?_
    by_cases htags : key = "tags"
    · subst htags
      cases hx
      cases hy
      cases hz
      -- the second object has none of the keys that the others share
      refine .of_fields rfl fun key x y z hx hy hz => ?_
      by_cases hkey : key = "c"
      · subst hkey
        cases hx
      · simp [Table.find?_cons, Ne.symm hkey] at hy
    · by_cases hname : key = "name"
      · subst hname
        cases hz
      · simp [a, Table.find?_cons, Ne.symm htags, Ne.symm hname] at hx
  obtain ⟨hright, hleft, hself, hassoc, hcombine⟩ := merge_laws ha hb hc
  refine ⟨hjoined, hright, hleft, hself, hassoc hjoined, hcombine (some a) ?_⟩
  intro e he
  cases he
  exact ⟨ha, hjoined⟩

/-- A value in between that is no object makes the order of the merges matter. -/
example :
    let a : Value := .object [("k", .null)]
    let c : Value := .object []
    ((a.merge .null).merge c).keys = [] ∧ (a.merge (Value.null.merge c)).keys = ["k"] := by
  decide

end HclOverlay
