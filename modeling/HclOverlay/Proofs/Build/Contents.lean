import HclOverlay.Proofs.Build.Agreement
import HclOverlay.Proofs.Patching.Files

/-!
# What a copy has to hold

The copy of a module is determined by the files of the module and the patches of its plan, so it can
be written down as a function of the tree before the build. Here it is, with the proof that a build
reads just this.

* `rowsOf`, `filesOf` — the files of a module: overlays and old output are none of them.
* `sourcesOf`, `patchedOf` — the texts of the module files, and these files with patches applied.
* `Exact` — a copy that holds all of it and nothing else.
* `readModule_eq_ok` — **what a build reads of a module** is this.
* `Exact.congr_tree` — it depends on the files of the module alone.
-/

namespace HclOverlay.Build

open Work FileTree HclOverlay.Path

variable {t t₁ t₂ : FileTree} {base dir : Path} {plan : Plan}

/-! ## Specification -/

/-- The files of a module as rows of names seen from its directory. Overlays and what the output
directory starts are left out. -/
def rowsOf (base dir : Path) (t : FileTree) : List (List String) :=
  (t.filesBelow dir.location).filter fun row =>
    !(dir.below row).isOverlay && !(dir.below row).startsWith base

/-- Their paths, in order. -/
def filesOf (base dir : Path) (t : FileTree) : List Path :=
  Path.sort ((rowsOf base dir t).map dir.below)

/-- The text of a file with its path. -/
def sourceAt? (t : FileTree) (p : Path) : Option (Path × String) := do
  let bytes ← t.fileAt? p.location
  let text ← String.fromUTF8? bytes
  return (p, text)

/-- The module files with their texts, in order, if all of them are texts. -/
def sourcesOf (base dir : Path) (t : FileTree) : Option (List (Path × String)) :=
  ((filesOf base dir t).filter Path.isModuleFile).mapM (sourceAt? t)

/-- The module files with the patches of a plan applied, if none of them fails. -/
def patchedOf (base : Path) (plan : Plan) (t : FileTree) : Option ModuleFiles := do
  let sources ← sourcesOf base plan.call.directory t
  let loaded ← (readFiles sources).run.1.toOption
  match (applyPatches plan.patches).run loaded with
  | (.ok _, files, _) => return files
  | (.error _, _, _) => none

/-- A copy of `n` files, which has some bytes at a row of names, holds the patched module files and
the other files of the module as they are, and nothing else. -/
structure Exact (base : Path) (plan : Plan) (t : FileTree) (n : Nat)
    (copy : List String → Option ByteArray) : Prop where
  distinct : (rowsOf base plan.call.directory t).Nodup
  count : n = (rowsOf base plan.call.directory t).length
  nothing : ∀ row, row ∉ rowsOf base plan.call.directory t → copy row = none
  support : ∀ row ∈ rowsOf base plan.call.directory t,
    (plan.call.directory.below row).isModuleFile = false →
      ∃ bytes, t.fileAt? (plan.call.directory.location ++ row) = some bytes ∧ copy row = some bytes
  patched : ∃ files, patchedOf base plan t = some files ∧
    ∀ row ∈ rowsOf base plan.call.directory t,
      (plan.call.directory.below row).isModuleFile = true →
        ∃ file, files.find? (plan.call.directory.below row) = some file ∧
          copy row = some file.text.toByteArray

/-! ## Files of a module -/

theorem mem_filesBelow_iff (ht : t.Sound) {l : Location} {row : List String} :
    row ∈ t.filesBelow l ↔ ∃ bytes, t.fileAt? (l ++ row) = some bytes := by
  by_cases hrow : l ++ row = []
  · rw [hrow, fileAt?_of_directory (lookup?_root t)]
    refine iff_of_false (fun hmem => ?_) (by simp)
    obtain ⟨e, he, hbelow⟩ := List.mem_filterMap.1 hmem
    exact (ht.names e he).1 ((prefix_of_fileBelow? hbelow).trans hrow)
  · exact mem_filesBelow ht hrow

theorem mem_rowsOf (ht : t.Sound) {row : List String} :
    row ∈ rowsOf base dir t ↔ (∃ bytes, t.fileAt? (dir.location ++ row) = some bytes) ∧
      (dir.below row).isOverlay = false ∧ (dir.below row).startsWith base = false := by
  rw [rowsOf, List.mem_filter, mem_filesBelow_iff ht]
  simp

/-- Rows are made of names. -/
theorem names_of_mem_rowsOf (ht : t.Sound) {row : List String} (h : row ∈ rowsOf base dir t) :
    ∀ name ∈ row, IsName name := by
  obtain ⟨⟨bytes, hbytes⟩, -⟩ := (mem_rowsOf ht).1 h
  exact fun name hname => ht.isName (fileAt?_eq_some.1 hbytes) name (List.mem_append_right _ hname)

theorem nodup_rowsOf (ht : t.Sound) : (rowsOf base dir t).Nodup :=
  (nodup_filesBelow ht _).filter _

theorem listed_filesOf (ht : t.Sound) : Listed dir (filesOf base dir t) :=
  listed_sort (fun _ hrow => names_of_mem_rowsOf ht hrow) (nodup_rowsOf ht)

theorem mem_filesOf {p : Path} :
    p ∈ filesOf base dir t ↔ ∃ row ∈ rowsOf base dir t, dir.below row = p := by
  rw [filesOf, Path.mem_sort, List.mem_map]

/-- No file is both patched and copied. -/
theorem nodup_kinds (ht : t.Sound) : ((filesOf base dir t).filter Path.isModuleFile ++
    (filesOf base dir t).filter Path.isSupportFile).Nodup := by
  have hnodup : (filesOf base dir t).Nodup := (listed_filesOf ht).nodup
  refine List.nodup_append.2 ⟨hnodup.filter _, hnodup.filter _, fun p hp q hq heq => ?_⟩
  have hmodule := (List.mem_filter.1 hp).2
  have hother := (List.mem_filter.1 hq).2
  rw [← heq, Path.isSupportFile, hmodule] at hother
  cases hother

/-- A file is either patched or copied. -/
theorem length_filesOf : (rowsOf base dir t).length =
    ((filesOf base dir t).filter Path.isModuleFile).length +
      ((filesOf base dir t).filter Path.isSupportFile).length := by
  have hlength : (filesOf base dir t).length = (rowsOf base dir t).length := by
    rw [filesOf, (Path.perm_sort _).length_eq, List.length_map]
  rw [← hlength, List.length_eq_length_filter_add Path.isModuleFile]
  congr 2
  refine List.filter_congr fun p hp => ?_
  obtain ⟨row, hrow, rfl⟩ := mem_filesOf.1 hp
  have hoverlay := (List.mem_filter.1 hrow).2
  rw [Bool.and_eq_true, Bool.not_eq_true'] at hoverlay
  rw [Path.isSupportFile, hoverlay.1, Bool.not_false, Bool.and_true]

/-! ## Different paths -/

/-- Paths below one directory are the same only if they are equal. -/
theorem same_of_listed {files : List Path} (h : Listed dir files) {p q : Path} (hp : p ∈ files)
    (hq : q ∈ files) (hsame : (p == q) = true) : p = q := by
  obtain ⟨row, hrow, rfl⟩ := h.below p hp
  obtain ⟨other, hother, rfl⟩ := h.below q hq
  rw [below_injective hrow hother (eq_of_beq hsame)]

theorem pairwise_of_listed {files : List Path} (h : Listed dir files) :
    files.Pairwise fun p q => (p == q) = false := by
  refine h.nodup.imp_of_mem fun hp hq hne => ?_
  rw [← Bool.not_eq_true]
  exact fun hsame => hne (same_of_listed h hp hq hsame)

theorem same_self (p : Path) : (p == p) = true := beq_self_eq_true p.components

/-- Each of the files is found by its path. -/
theorem find?_of_mem_of_listed {files : ModuleFiles} (h : Listed dir files.keys)
    {e : Path × ModuleFile} (he : e ∈ files) : files.find? e.1 = some e.2 := by
  have hpairwise := pairwise_of_listed h
  rw [Table.keys] at hpairwise
  induction files with
  | nil => cases he
  | cons first rest ih =>
    rw [List.map_cons, List.pairwise_cons] at hpairwise
    rw [Table.find?_cons]
    rcases List.mem_cons.1 he with rfl | he
    · rw [if_pos (same_self _)]
    · rw [hpairwise.1 e.1 (List.mem_map_of_mem he), if_neg Bool.false_ne_true]
      exact ih ⟨fun p hp => h.below p (List.mem_cons_of_mem _ hp), (List.nodup_cons.1 h.nodup).2,
        (List.pairwise_cons.1 h.sorted).2⟩ he hpairwise.2

theorem keys_insert_of_new {files : ModuleFiles} {p : Path} (file : ModuleFile)
    (h : ∀ q ∈ files.keys, (q == p) = false) :
    (Table.insert files p file).keys = files.keys ++ [p] := by
  refine Table.keys_insert_of_not_contains files file ?_
  rw [Table.contains]
  induction files with
  | nil => rfl
  | cons first rest ih =>
    rw [Table.keys, List.map_cons, List.forall_mem_cons] at h
    rw [Table.find?_cons, h.1, if_neg Bool.false_ne_true]
    exact ih h.2

/-! ## What a build reads -/

/-- The files that are loaded are those that their texts are read as. -/
theorem reads_loadFiles_eq_ok (ht : t.Sound) {files loaded : ModuleFiles} {ps : List Path}
    (h : reads (loadFiles files ps) t = .ok loaded)
    (hnew : (files.keys ++ ps).Pairwise fun p q => (p == q) = false) :
    loaded.keys = files.keys ++ ps ∧ ∃ sources, ps.mapM (sourceAt? t) = some sources ∧
      ∀ s, ∃ s', outcome (sources.foldlM (fun files entry => do
          let file ← ModuleFile.read entry.2 entry.1
          return Table.insert files entry.1 file) files) s = (.ok loaded, s') := by
  induction ps generalizing files with
  | nil =>
    cases h
    exact ⟨(List.append_nil _).symm, [], rfl, fun s => ⟨s, rfl⟩⟩
  | cons p rest ih =>
    obtain ⟨source, hsource, h⟩ := reads_bind_eq_ok h
    obtain ⟨file, hfile, h⟩ := reads_bind_eq_ok h
    obtain ⟨bytes, hbytes, htext⟩ := readText_eq_ok ht (reads_look_eq_ok hsource)
    rw [reads_lift] at hfile
    obtain ⟨d, hd, rfl⟩ := ModuleFile.read_eq_ok (Prod.ext hfile rfl)
    -- the path is new, so the file comes behind the others
    have hkeys := keys_insert_of_new (p := p) ⟨p, source, d, (Index.ofDocument d).1, false⟩
      fun q hq => (List.pairwise_append.1 hnew).2.2 q hq p List.mem_cons_self
    obtain ⟨hloaded, sources, hsources, hrun⟩ := ih h (by
      rw [hkeys, List.append_assoc]
      exact hnew)
    refine ⟨?_, (p, source) :: sources, ?_, fun s => ?_⟩
    · rw [hloaded, hkeys, List.append_assoc, List.singleton_append]
    · simp [List.mapM_cons, sourceAt?, hbytes, htext, hsources]
    · obtain ⟨s', hs'⟩ := hrun (s ++ (Index.ofDocument d).2)
      refine ⟨s', ?_⟩
      rw [List.foldlM_cons, outcome_bind, outcome_bind, ModuleFile.outcome_read hd]
      exact hs'

/-- The files of one kind that a walk finds, less what the output directory starts. -/
theorem filter_walk (ht : t.Sound) (hdir : t.isDirectory dir = true) {walked : List Path}
    (hwalk : t.walk dir = .ok walked) (base : Path) (kind : Path → Bool)
    (hkind : ∀ p, kind p = true → p.isOverlay = false) :
    (walked.filter kind).filter (!·.startsWith base) = (filesOf base dir t).filter kind := by
  refine (((listed_walk ht hdir hwalk).filter kind).filter _).ext
    ((listed_filesOf ht).filter kind) fun p => ?_
  rw [List.mem_filter, List.mem_filter, List.mem_filter, mem_filesOf, mem_walk ht hdir hwalk,
    Bool.not_eq_true']
  constructor
  · rintro ⟨⟨⟨row, -, rfl, hfile⟩, hp⟩, hout⟩
    exact ⟨⟨row, (mem_rowsOf ht).2 ⟨hfile, hkind _ hp, hout⟩, rfl⟩, hp⟩
  · rintro ⟨⟨row, hrow, rfl⟩, hp⟩
    obtain ⟨hfile, -, hout⟩ := (mem_rowsOf ht).1 hrow
    exact ⟨⟨⟨row, names_of_mem_rowsOf ht hrow, rfl, hfile⟩, hp⟩, hout⟩

/-- **What a build reads of a module** is what its copy has to hold. -/
theorem readModule_eq_ok (ht : t.Sound) {found : ModuleFiles × List Path}
    (h : reads (readModule base plan) t = .ok found) :
    t.lookup? plan.call.directory.location = some .directory ∧
      patchedOf base plan t = some found.1 ∧
      found.1.keys = (filesOf base plan.call.directory t).filter Path.isModuleFile ∧
      found.2 = (filesOf base plan.call.directory t).filter Path.isSupportFile := by
  obtain ⟨t', ht', h⟩ := reads_bind_eq_ok h
  cases ht'
  split at h
  · cases h
  next hnot =>
  have hdir : t.isDirectory plan.call.directory = true := by simpa using hnot
  obtain ⟨contents, hcontents, h⟩ := reads_bind_eq_ok h
  obtain ⟨loaded, hloaded, h⟩ := reads_bind_eq_ok h
  obtain ⟨patched, hpatched, h⟩ := reads_bind_eq_ok h
  cases h
  obtain ⟨walked, hwalk, rfl⟩ := reads_moduleContents hcontents
  -- walking through the directory finds the files that lie below it
  have hmodule := filter_walk ht hdir hwalk base Path.isModuleFile fun p hp => by
    simpa using (Bool.and_eq_true_iff.1 hp).2
  have hsupport := filter_walk ht hdir hwalk base Path.isSupportFile fun p hp => by
    simpa using (Bool.and_eq_true_iff.1 hp).2
  change reads (loadFiles [] ((walked.filter Path.isModuleFile).filter (!·.startsWith base))) t = _
    at hloaded
  rw [hmodule] at hloaded
  obtain ⟨hkeys, sources, hsources, hrun⟩ := reads_loadFiles_eq_ok ht hloaded
    (pairwise_of_listed ((listed_filesOf ht).filter _))
  obtain ⟨notices, hread⟩ := hrun []
  have hall := reads_patchFiles hpatched
  obtain ⟨notices', hpatches⟩ := Patching.run_applyPatches loaded plan.patches
  have hload : (readFiles sources).run = (.ok loaded, notices) := hread
  refine ⟨((isDirectory_iff ht).1 hdir).2, ?_, ?_, hsupport⟩
  · rw [hall] at hpatches
    rw [patchedOf, sourcesOf, hsources]
    simp only [Option.bind_eq_bind, Option.bind_some, hload, Except.toOption, hpatches]
    rfl
  · have hsame := Patching.keys_patchAll loaded plan.patches
    rw [hall] at hsame
    exact hsame.trans hkeys

/-! ## Other trees -/

section Congruence

variable (ht₁ : t₁.Sound) (ht₂ : t₂.Sound)
  (hagree : ∀ row, (∀ name ∈ row, IsName name) → (dir.below row).startsWith base = false →
    t₁.fileAt? (dir.location ++ row) = t₂.fileAt? (dir.location ++ row))

include ht₁ ht₂ hagree

theorem mem_rowsOf_congr {row : List String} :
    row ∈ rowsOf base dir t₁ ↔ row ∈ rowsOf base dir t₂ := by
  constructor
  · intro h
    have hnames := names_of_mem_rowsOf ht₁ h
    obtain ⟨hfile, hoverlay, hout⟩ := (mem_rowsOf ht₁).1 h
    exact (mem_rowsOf ht₂).2 ⟨hagree row hnames hout ▸ hfile, hoverlay, hout⟩
  · intro h
    have hnames := names_of_mem_rowsOf ht₂ h
    obtain ⟨hfile, hoverlay, hout⟩ := (mem_rowsOf ht₂).1 h
    exact (mem_rowsOf ht₁).2 ⟨hagree row hnames hout ▸ hfile, hoverlay, hout⟩

theorem filesOf_congr : filesOf base dir t₁ = filesOf base dir t₂ := by
  refine (listed_filesOf ht₁).ext (listed_filesOf ht₂) fun p => ?_
  rw [mem_filesOf, mem_filesOf]
  exact exists_congr fun row => and_congr_left' (mem_rowsOf_congr ht₁ ht₂ hagree)

theorem sourcesOf_congr : sourcesOf base dir t₁ = sourcesOf base dir t₂ := by
  rw [sourcesOf, sourcesOf, ← filesOf_congr ht₁ ht₂ hagree]
  have hsame : ∀ p ∈ (filesOf base dir t₁).filter Path.isModuleFile,
      sourceAt? t₁ p = sourceAt? t₂ p := by
    intro p hp
    obtain ⟨row, hrow, rfl⟩ := mem_filesOf.1 (List.mem_of_mem_filter hp)
    have hnames := names_of_mem_rowsOf ht₁ hrow
    rw [sourceAt?, sourceAt?, location_below _ hnames,
      hagree row hnames ((mem_rowsOf ht₁).1 hrow).2.2]
  generalize (filesOf base dir t₁).filter Path.isModuleFile = ps at hsame
  induction ps with
  | nil => rfl
  | cons p ps ih =>
    rw [List.forall_mem_cons] at hsame
    rw [List.mapM_cons, List.mapM_cons, hsame.1, ih hsame.2]

end Congruence

/-- **What a copy has to hold** depends on the files of the module alone. -/
theorem Exact.congr_tree (ht₁ : t₁.Sound) (ht₂ : t₂.Sound) {n : Nat}
    {copy : List String → Option ByteArray} (h : Exact base plan t₁ n copy)
    (hagree : ∀ row, (∀ name ∈ row, IsName name) →
      (plan.call.directory.below row).startsWith base = false →
      t₁.fileAt? (plan.call.directory.location ++ row) =
        t₂.fileAt? (plan.call.directory.location ++ row)) :
    Exact base plan t₂ n copy := by
  have hmem : ∀ row, row ∈ rowsOf base plan.call.directory t₁ ↔
      row ∈ rowsOf base plan.call.directory t₂ := fun row => mem_rowsOf_congr ht₁ ht₂ hagree
  have hpatched : patchedOf base plan t₁ = patchedOf base plan t₂ := by
    rw [patchedOf, patchedOf, sourcesOf_congr ht₁ ht₂ hagree]
  refine ⟨nodup_rowsOf ht₂, ?_, fun row hrow => h.nothing row (mt (hmem row).1 hrow), ?_, ?_⟩
  · rw [h.count]
    exact ((List.perm_ext_iff_of_nodup (nodup_rowsOf ht₁) (nodup_rowsOf ht₂)).2 hmem).length_eq
  · intro row hrow hkind
    obtain ⟨bytes, hbytes, hcopy⟩ := h.support row ((hmem row).2 hrow) hkind
    refine ⟨bytes, ?_, hcopy⟩
    rw [← hagree row (names_of_mem_rowsOf ht₂ hrow) ((mem_rowsOf ht₂).1 hrow).2.2, hbytes]
  · obtain ⟨files, hfiles, hcopy⟩ := h.patched
    exact ⟨files, hpatched ▸ hfiles, fun row hrow => hcopy row ((hmem row).2 hrow)⟩

end HclOverlay.Build
