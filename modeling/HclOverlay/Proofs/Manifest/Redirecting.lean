import HclOverlay.Proofs.Manifest.Rewriting

/-!
# Redirecting entries

What a redirection makes of an entry is fixed by rules for the entry alone. Modules with a patched
copy come first; only the others can be given back the directory they had, and only if they point to
their copy. An entry that has been redirected is where the rules want it, so a second redirection
finds nothing to do, also after the manifest was printed and read.

* `Directs` — the rules, for an entry before and after.
* `target?_of_mem`, `target?_of_copy`, `target?_of_ne` — one equation for each kind of entry.
* `directs_entry`, `Directs.eq_entry` — **every entry follows the rules**, which leave no choice;
  `count_eq` counts the entries that have changed.
* `count_echo_manifest` — **nothing is left to change**.
-/

namespace HclOverlay.Manifest

namespace Redirection

/-- What a redirection makes of an entry: only its directory may change, by these rules. -/
structure Directs (r : Redirection) (before after : Entry) : Prop where
  key : after.key = before.key
  source : after.source = before.source
  others : after.others = before.others
  /-- the root module stays -/
  root : before.key = "" → after.dir = before.dir
  /-- a patched module is loaded from its copy -/
  patched : before.key ≠ "" → before.key ∈ r.patched → after.dir = (r.output.join before.key).text
  /-- another one changes only if it points to its copy and something is known to be restored -/
  changed : before.key ∉ r.patched → after.dir ≠ before.dir →
    before.dir = (r.output.join before.key).text ∧ before.key ∈ r.restore.keys
  /-- and then gets the first directory that is known -/
  restored : before.key ≠ "" → before.key ∉ r.patched →
    before.dir = (r.output.join before.key).text → ∀ front dir back,
      r.restore = front ++ (before.key, dir) :: back → before.key ∉ Table.keys front →
        after.dir = dir

variable {r : Redirection} {e : Entry}

/-! ## One entry -/

theorem target?_of_key_empty (h : e.key = "") : r.target? e = none := by
  rw [target?, if_pos (by simpa using h)]

theorem target?_of_mem (hkey : e.key ≠ "") (h : e.key ∈ r.patched) :
    r.target? e = some (r.copyOf e.key) := by
  rw [target?, if_neg (by simpa using hkey), if_pos (by simpa using h)]

theorem target?_of_copy (hkey : e.key ≠ "") (h : e.key ∉ r.patched)
    (hdir : e.dir = r.copyOf e.key) : r.target? e = r.restore.find? e.key := by
  rw [target?, if_neg (by simpa using hkey), if_neg (by simpa using h),
    if_pos (by simpa using hdir)]

theorem target?_of_ne (h : e.key ∉ r.patched) (hdir : e.dir ≠ r.copyOf e.key) :
    r.target? e = none := by
  have hnot : ¬r.patched.contains e.key = true := by simpa using h
  have hother : ¬(e.dir == r.copyOf e.key) = true := by simpa using hdir
  rw [target?, if_neg hnot, if_neg hother, ite_self]

theorem dir_entry (r : Redirection) (e : Entry) :
    (r.entry e).dir = (r.target? e).getD e.dir := rfl

/-- **Every entry** follows the rules. -/
theorem directs_entry (r : Redirection) (e : Entry) : r.Directs e (r.entry e) where
  key := rfl
  source := rfl
  others := rfl
  root h := by rw [dir_entry, target?_of_key_empty h, Option.getD_none]
  patched hkey h := by
    rw [dir_entry, target?_of_mem hkey h, Option.getD_some]
    rfl
  changed h hne := by
    have hkey : e.key ≠ "" := fun hkey => hne (by rw [entry_of_key_empty hkey])
    have hdir : e.dir = r.copyOf e.key := by
      by_contra hdir
      exact hne (by rw [dir_entry, target?_of_ne h hdir, Option.getD_none])
    refine ⟨hdir, ?_⟩
    by_contra hkeys
    refine hne ?_
    rw [dir_entry, target?_of_copy hkey h hdir, Table.find?_eq_none_iff.2 hkeys, Option.getD_none]
  restored hkey h hdir front dir back hsplit hfront := by
    have hfind : r.restore.find? e.key = some dir :=
      Table.find?_eq_some_iff.2 ⟨front, back, hsplit, hfront⟩
    rw [dir_entry, target?_of_copy hkey h hdir, hfind, Option.getD_some]

/-- **The rules leave no choice**: whatever follows them is the redirected entry. -/
theorem Directs.eq_entry {after : Entry} (h : r.Directs e after) : after = r.entry e := by
  have hdir : after.dir = (r.entry e).dir := by
    have hentry := directs_entry r e
    by_cases hkey : e.key = ""
    · rw [h.root hkey, hentry.root hkey]
    by_cases hpatched : e.key ∈ r.patched
    · rw [h.patched hkey hpatched, hentry.patched hkey hpatched]
    by_cases hcopy : e.dir = (r.output.join e.key).text ∧ e.key ∈ r.restore.keys
    · obtain ⟨dir, hfind⟩ := Option.ne_none_iff_exists'.1
        (mt Table.find?_eq_none_iff.1 (not_not.2 hcopy.2))
      obtain ⟨front, back, hsplit, hfront⟩ := Table.find?_eq_some_iff.1 hfind
      rw [h.restored hkey hpatched hcopy.1 front dir back hsplit hfront,
        hentry.restored hkey hpatched hcopy.1 front dir back hsplit hfront]
    · rw [not_not.1 (mt (h.changed hpatched) hcopy), not_not.1 (mt (hentry.changed hpatched) hcopy)]
  obtain ⟨key, source, dir, others⟩ := after
  obtain rfl : key = e.key := h.key
  obtain rfl : source = e.source := h.source
  obtain rfl : others = e.others := h.others
  exact congrArg (fun dir => { e with dir }) hdir

/-- An entry that stands where an entry was redirected to stays there. -/
theorem changes_eq_false {found : Entry} (hkey : found.key = e.key)
    (hdir : found.dir = (r.entry e).dir) : r.changes found = false := by
  rw [dir_entry] at hdir
  rw [changes, bne_eq_false_iff_eq, dir_entry]
  by_cases hroot : e.key = ""
  · rw [target?_of_key_empty (hkey.trans hroot), Option.getD_none]
  by_cases hpatched : e.key ∈ r.patched
  · rw [target?_of_mem hroot hpatched] at hdir
    rw [target?_of_mem (hkey ▸ hroot) (hkey ▸ hpatched), hkey, hdir]
    rfl
  by_cases hcopy : e.dir = r.copyOf e.key
  · rw [target?_of_copy hroot hpatched hcopy] at hdir
    by_cases hthere : found.dir = r.copyOf found.key
    · rw [target?_of_copy (hkey ▸ hroot) (hkey ▸ hpatched) hthere, hkey, hdir]
      cases r.restore.find? e.key <;> rfl
    · rw [target?_of_ne (hkey ▸ hpatched) hthere, Option.getD_none]
  · rw [target?_of_ne hpatched hcopy, Option.getD_none] at hdir
    rw [target?_of_ne (hkey ▸ hpatched) (by rwa [hkey, hdir]), Option.getD_none]

end Redirection

/-! ## All entries -/

variable {r : Redirection}

/-- All entries follow the rules, and no other list of entries does. -/
theorem Redirection.directs_manifest (r : Redirection) (m : Manifest) {entries : List Entry} :
    List.Forall₂ r.Directs m.entries entries ↔ entries = (r.manifest m).entries := by
  have hmap : ∀ {l : List Entry}, List.Forall₂ r.Directs l entries → entries = l.map r.entry := by
    intro l h
    induction h with
    | nil => rfl
    | cons hfirst _ ih => rw [hfirst.eq_entry, ih, List.map_cons]
  refine ⟨hmap, ?_⟩
  rintro rfl
  exact List.forall₂_map_right_iff.2 (List.forall₂_same.2 fun e _ => r.directs_entry e)

/-- How many entries have another directory than before. -/
theorem Redirection.count_eq (r : Redirection) (m : Manifest) :
    r.count m = (m.entries.zip (r.manifest m).entries).countP fun e => e.2.dir != e.1.dir := by
  rw [count, manifest]
  induction m.entries with
  | nil => rfl
  | cons e entries ih =>
    rw [List.countP_cons, ih, List.map_cons, List.zip_cons_cons, List.countP_cons]
    rfl

theorem Redirection.count_echo_manifest (r : Redirection) (m : Manifest) :
    r.count (r.manifest m).echo = 0 := by
  refine List.countP_eq_zero.2 fun e he => ?_
  obtain ⟨e', he', rfl⟩ := List.mem_map.1 he
  obtain ⟨e, he, rfl⟩ := List.mem_map.1 he'
  exact Bool.eq_false_iff.1 (changes_eq_false (e := e) rfl rfl)

end HclOverlay.Manifest
