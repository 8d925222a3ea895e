import HclOverlay.Proofs.FileTree.Walking
import HclOverlay.Proofs.Path.Order

/-!
# Listing directories

A list of the files in a directory is in the order of paths, so it depends on which files there are
and not on how a tree holds them. Two trees with the same files give the same list.

* `Listed` — lists in order, without repetitions, of paths below a directory; `Listed.ext`.
* `mem_walk`, `listed_walk` — the files below a directory.
* `mem_entries`, `listed_entries` — the files directly in a directory.
-/

namespace HclOverlay.FileTree

open HclOverlay.Path (IsName)

variable {t : FileTree} {base p : Path} {files files' : List Path}

/-! ## Lists of paths -/

/-- Paths below a directory, in order. -/
structure Listed (base : Path) (files : List Path) : Prop where
  below : ∀ p ∈ files, ∃ row, (∀ name ∈ row, IsName name) ∧ p = base.below row
  nodup : files.Nodup
  sorted : files.Pairwise fun p q => p.key ≤ q.key

/-- Lists of the same paths are the same. -/
theorem Listed.ext (h : Listed base files) (h' : Listed base files')
    (hmem : ∀ p, p ∈ files ↔ p ∈ files') : files = files' := by
  refine Path.eq_of_sorted h.sorted h'.sorted h.nodup h'.nodup hmem fun p hp q hq heq => ?_
  obtain ⟨row, hrow, rfl⟩ := h.below p hp
  obtain ⟨row', hrow', rfl⟩ := h.below q hq
  rw [Path.below_injective hrow hrow' heq]

theorem Listed.filter (h : Listed base files) (keep : Path → Bool) :
    Listed base (files.filter keep) where
  below p hp := h.below p (List.mem_of_mem_filter hp)
  nodup := h.nodup.filter keep
  sorted := h.sorted.filter keep

/-- Different rows of names, as paths in order. -/
theorem listed_sort {rows : List (List String)} (hrows : ∀ row ∈ rows, ∀ name ∈ row, IsName name)
    (hnodup : rows.Nodup) : Listed base (Path.sort (rows.map base.below)) where
  below p hp := by
    obtain ⟨row, hrow, rfl⟩ := List.mem_map.1 (Path.mem_sort.1 hp)
    exact ⟨row, hrows row hrow, rfl⟩
  nodup := Path.nodup_sort (hnodup.map_on fun row hrow row' hrow' heq =>
    Path.below_injective (hrows row hrow) (hrows row' hrow') (congrArg Path.components heq))
  sorted := Path.pairwise_sort _

/-! ## Files below a directory -/

theorem listed_walk (ht : t.Sound) (hdir : t.isDirectory base = true)
    (h : t.walk base = .ok files) : Listed base files := by
  obtain ⟨-, ⟨hnot, -⟩ | ⟨hl, rfl⟩⟩ := walk_eq_ok ht h
  · exact absurd ((isDirectory_iff ht).1 hdir).2 hnot
  · exact listed_sort (fun row hrow => (names_of_mem_filesBelow ht hl hrow).2.1)
      (nodup_filesBelow ht _)

/-- What a walk through a directory finds. -/
theorem mem_walk (ht : t.Sound) (hdir : t.isDirectory base = true) (h : t.walk base = .ok files) :
    p ∈ files ↔ ∃ row, (∀ name ∈ row, IsName name) ∧ p = base.below row ∧
      ∃ bytes, t.fileAt? (base.location ++ row) = some bytes := by
  obtain ⟨-, ⟨hnot, -⟩ | ⟨hl, rfl⟩⟩ := walk_eq_ok ht h
  · exact absurd ((isDirectory_iff ht).1 hdir).2 hnot
  rw [Path.mem_sort, List.mem_map]
  constructor
  · rintro ⟨row, hrow, rfl⟩
    obtain ⟨-, hnames, hfile⟩ := names_of_mem_filesBelow ht hl hrow
    exact ⟨row, hnames, rfl, hfile⟩
  · rintro ⟨row, -, rfl, hfile⟩
    refine ⟨row, (mem_filesBelow ht fun hnil => ?_).2 hfile, rfl⟩
    obtain ⟨bytes, hbytes⟩ := hfile
    rw [hnil, fileAt?_of_directory (lookup?_root t)] at hbytes
    cases hbytes

/-- **Walks through one directory of two trees** find the same files where these agree. -/
theorem filter_walk_eq {t₁ t₂ : FileTree} (ht₁ : t₁.Sound) (ht₂ : t₂.Sound)
    (hdir₁ : t₁.isDirectory base = true) (hdir₂ : t₂.isDirectory base = true)
    (h₁ : t₁.walk base = .ok files) (h₂ : t₂.walk base = .ok files') (keep : Path → Bool)
    (hagree : ∀ row, (∀ name ∈ row, IsName name) → keep (base.below row) = true →
      t₁.fileAt? (base.location ++ row) = t₂.fileAt? (base.location ++ row)) :
    files.filter keep = files'.filter keep := by
  refine ((listed_walk ht₁ hdir₁ h₁).filter keep).ext ((listed_walk ht₂ hdir₂ h₂).filter keep) ?_
  intro p
  rw [List.mem_filter, List.mem_filter, mem_walk ht₁ hdir₁ h₁, mem_walk ht₂ hdir₂ h₂]
  constructor
  · rintro ⟨⟨row, hnames, rfl, hfile⟩, hkeep⟩
    exact ⟨⟨row, hnames, rfl, hagree row hnames hkeep ▸ hfile⟩, hkeep⟩
  · rintro ⟨⟨row, hnames, rfl, hfile⟩, hkeep⟩
    exact ⟨⟨row, hnames, rfl, hagree row hnames hkeep ▸ hfile⟩, hkeep⟩

/-! ## Files directly in a directory -/

/-- The files of some kind among the entries of a directory, in order. -/
def entries (t : FileTree) (base : Path) (keep : Path → Bool) (names : List String) : List Path :=
  Path.sort ((names.map base.join).filter fun p => t.isFile p && keep p)

theorem childOf?_eq_some {l : Location} {e : Location × Node} {name : String} :
    childOf? l e = some name ↔ e.1 = l ++ [name] := by
  unfold childOf?
  constructor
  · intro h
    split at h
    · next hrow =>
      cases h
      exact (List.isPrefixOf?_eq_some_iff_append_eq.1 hrow).symm
    · cases h
  · intro h
    rw [List.isPrefixOf?_eq_some_iff_append_eq.2 h.symm]

/-- The names of a directory are those of what stands in it. -/
theorem mem_names (ht : t.Sound) {names : List String} (h : t.names base = .ok names)
    {name : String} : name ∈ names ↔ ∃ n, t.lookup? (base.location ++ [name]) = some n := by
  obtain ⟨-, -, rfl⟩ := names_eq_ok ht h
  rw [List.mem_filterMap]
  constructor
  · rintro ⟨⟨l, n⟩, hmem, hchild⟩
    obtain rfl : l = base.location ++ [name] := childOf?_eq_some.1 hchild
    exact ⟨n, ht.lookup?_of_mem hmem⟩
  · rintro ⟨n, hn⟩
    exact ⟨_, mem_nodes_of_lookup? (by simp) hn, childOf?_eq_some.2 rfl⟩

theorem nodup_names (ht : t.Sound) {names : List String} (h : t.names base = .ok names) :
    names.Nodup := by
  obtain ⟨-, -, rfl⟩ := names_eq_ok ht h
  have hkeys : t.nodes.Pairwise fun e e' => e.1 ≠ e'.1 := List.pairwise_map.1 ht.nodup
  refine List.pairwise_filterMap.2 (hkeys.imp fun hne name hname name' hname' heq => hne ?_)
  rw [childOf?_eq_some.1 hname, childOf?_eq_some.1 hname', heq]

/-- Whether a file stands at a name in an open directory. -/
theorem isFile_join_name (ht : t.Sound) (hopen : t.Opens base) {name : String} (hname : IsName name) :
    t.isFile (base.join name) = true ↔
      walkableParts (base.join name) = .ok (base.join name).parts ∧
        ∃ bytes, t.fileAt? (base.location ++ [name]) = some bytes := by
  rw [isFile_iff ht, Path.location_join_name base hname]
  constructor
  · rintro ⟨hresolve, hfile⟩
    exact ⟨(resolve_eq_ok hresolve).1, hfile⟩
  · rintro ⟨hwalk, bytes, hbytes⟩
    have hsize := (ht.name_of_lookup? (fileAt?_eq_some.1 hbytes) name (by simp)).2
    have hresolve := resolve_join_name ht hopen hname hsize hwalk
    rw [Path.location_join_name base hname] at hresolve
    exact ⟨hresolve, bytes, hbytes⟩

theorem mem_entries (ht : t.Sound) (hopen : t.Opens base) {names : List String}
    (h : t.names base = .ok names) {keep : Path → Bool} :
    p ∈ t.entries base keep names ↔ ∃ name, IsName name ∧ p = base.join name ∧ keep p = true ∧
      walkableParts p = .ok p.parts ∧ ∃ bytes, t.fileAt? (base.location ++ [name]) = some bytes := by
  rw [entries, Path.mem_sort, List.mem_filter, List.mem_map, Bool.and_eq_true]
  constructor
  · rintro ⟨⟨name, hname, rfl⟩, hfile, hkeep⟩
    obtain ⟨n, hn⟩ := (mem_names ht h).1 hname
    have hisName := ht.isName hn name (by simp)
    exact ⟨name, hisName, rfl, hkeep, (isFile_join_name ht hopen hisName).1 hfile⟩
  · rintro ⟨name, hname, rfl, hkeep, hfile⟩
    obtain ⟨bytes, hbytes⟩ := hfile.2
    exact ⟨⟨name, (mem_names ht h).2 ⟨_, fileAt?_eq_some.1 hbytes⟩, rfl⟩,
      (isFile_join_name ht hopen hname).2 hfile, hkeep⟩

theorem listed_entries (ht : t.Sound) {names : List String} (h : t.names base = .ok names)
    (keep : Path → Bool) : Listed base (t.entries base keep names) := by
  have hrows : (names.map base.join).filter (fun p => t.isFile p && keep p) =
      ((names.map fun name => [name]).filter fun row =>
        t.isFile (base.below row) && keep (base.below row)).map base.below := by
    rw [List.filter_map, List.filter_map, List.map_map]
    rfl
  rw [entries, hrows]
  refine listed_sort (fun row hrow name hname => ?_) (List.Nodup.filter _ ?_)
  · obtain ⟨other, hother, rfl⟩ := List.mem_map.1 (List.mem_of_mem_filter hrow)
    obtain ⟨n, hn⟩ := (mem_names ht h).1 hother
    rw [List.mem_singleton.1 hname]
    exact ht.isName hn other (by simp)
  · exact (nodup_names ht h).map fun a b heq => (List.cons.inj heq).1

/-- **Entries of one directory of two trees** are the same where these agree. -/
theorem entries_eq {t₁ t₂ : FileTree} (ht₁ : t₁.Sound) (ht₂ : t₂.Sound) (hopen₁ : t₁.Opens base)
    (hopen₂ : t₂.Opens base) {names names' : List String} (h₁ : t₁.names base = .ok names)
    (h₂ : t₂.names base = .ok names') (keep : Path → Bool)
    (hagree : ∀ name, IsName name → keep (base.join name) = true →
      t₁.fileAt? (base.location ++ [name]) = t₂.fileAt? (base.location ++ [name])) :
    t₁.entries base keep names = t₂.entries base keep names' := by
  refine (listed_entries ht₁ h₁ keep).ext (listed_entries ht₂ h₂ keep) fun p => ?_
  rw [mem_entries ht₁ hopen₁ h₁, mem_entries ht₂ hopen₂ h₂]
  constructor
  · rintro ⟨name, hname, rfl, hkeep, hwalk, hfile⟩
    exact ⟨name, hname, rfl, hkeep, hwalk, hagree name hname hkeep ▸ hfile⟩
  · rintro ⟨name, hname, rfl, hkeep, hwalk, hfile⟩
    exact ⟨name, hname, rfl, hkeep, hwalk, hagree name hname hkeep ▸ hfile⟩

end HclOverlay.FileTree
