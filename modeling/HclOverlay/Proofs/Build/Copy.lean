import HclOverlay.Build.Instance
import HclOverlay.Proofs.Build.Steps
import HclOverlay.Proofs.FileTree.Edits
import HclOverlay.Proofs.Patching.Steps
import HclOverlay.Proofs.Path.Order

/-!
# Writing a patched copy

A patched copy is made in two phases: first everything is read and patched, and no file changes; then
the copy is written, and only files below its directory change.

* `readModule`, `writeModule`, `patchModule_eq` — the two phases.
* `IsBelow`, `isBelow_readModule` — what is copied are files below the directory of the module.
* `Wrote` — one file of the copy; `does_writePatched`, `does_copySupport`.
* `confined_writeModule` — **only the directory of the copy changes**, and the way to it is made.
-/

namespace HclOverlay.Build

open Work FileTree HclOverlay.Path

variable {t t' : FileTree}

/-! ## The phases -/

/-- The patched files of the module of a plan, and the files that are only copied. -/
def readModule (outputBase : Path) (plan : Plan) : Work (ModuleFiles × List Path) := do
  let dir := plan.call.directory
  if !(← tree).isDirectory dir then throw (.moduleMissing dir)
  else
    let contents ← moduleContents dir
    let contents := contents.outside outputBase
    let files ← patchFiles plan.patches (← loadFiles [] contents.moduleFiles)
    return (files, contents.supportFiles)

/-- Removes what is in the place of a copy. -/
def clearOld (out : Path) : Work Unit := do
  if (← tree).there out then onFile out (removeDirectory out)

/-- Replaces the copy of the module of a plan. -/
def writeModule (outputBase : Path) (plan : Plan) (found : ModuleFiles × List Path) : Work Nat := do
  let out := outputBase.join plan.call.name
  clearOld out
  writeCopy plan.call.directory out found.1 found.2
  return found.1.length + found.2.length

theorem patchModule_eq (outputBase : Path) (plan : Plan) :
    patchModule outputBase plan = readModule outputBase plan >>= writeModule outputBase plan := by
  unfold patchModule readModule
  rw [bind_assoc]
  refine bind_congr fun t => ?_
  split
  · rfl
  · simp only [bind_assoc, pure_bind, writeModule, clearOld]
    refine bind_congr fun contents => bind_congr fun loaded => bind_congr fun files =>
      bind_congr fun t => ?_
    split <;> simp only [pure_bind]

/-! ## Reading -/

instance looks_filesBelow (p : Path) : Looks (Build.filesBelow p) := Looks.look _ _

instance looks_moduleContents (dir : Path) : Looks (moduleContents dir) := by
  unfold moduleContents
  infer_instance

instance looks_loadFiles (files : ModuleFiles) (ps : List Path) : Looks (loadFiles files ps) := by
  induction ps generalizing files with
  | nil => exact Looks.pure files
  | cons p rest ih =>
    unfold loadFiles
    infer_instance

instance looks_patchFiles (patches : List Patch) (files : ModuleFiles) :
    Looks (patchFiles patches files) := by
  unfold patchFiles
  rcases (applyPatches patches).run files with ⟨_ | _, _⟩ <;> infer_instance

instance looks_readModule (outputBase : Path) (plan : Plan) :
    Looks (readModule outputBase plan) := by
  unfold readModule
  infer_instance

/-- A path that a row of names leads to from a directory. -/
def IsBelow (dir p : Path) : Prop :=
  ∃ row, row ≠ [] ∧ (∀ name ∈ row, IsName name) ∧ p = dir.below row

/-- What a walk through a directory gives. -/
theorem isBelow_walk (ht : t.Sound) {dir p : Path} {files : List Path}
    (h : t.walk dir = .ok files) (hdir : t.isDirectory dir = true) (hp : p ∈ files) :
    IsBelow dir p := by
  obtain ⟨-, ⟨hnot, -⟩ | ⟨hd, rfl⟩⟩ := walk_eq_ok ht h
  · exact absurd ((isDirectory_iff ht).1 hdir).2 hnot
  · obtain ⟨row, hrow, rfl⟩ := List.mem_map.1 (mem_sort.1 hp)
    obtain ⟨hne, hnames, -⟩ := names_of_mem_filesBelow ht hd hrow
    exact ⟨row, hne, hnames, rfl⟩

theorem mem_keys_insert {files : ModuleFiles} {p path : Path} {file : ModuleFile}
    (h : path ∈ (Table.insert files p file).keys) : path ∈ files.keys ∨ path = p := by
  induction files with
  | nil => exact .inr (List.mem_singleton.1 h)
  | cons e files ih =>
    rw [Table.insert] at h
    split at h
    · exact .inl h
    · rcases List.mem_cons.1 h with rfl | h
      · exact .inl List.mem_cons_self
      · exact (ih h).imp_left (List.mem_cons_of_mem _)

theorem reads_loadFiles {files loaded : ModuleFiles} {ps : List Path}
    (h : reads (loadFiles files ps) t = .ok loaded) :
    ∀ path ∈ loaded.keys, path ∈ files.keys ∨ path ∈ ps := by
  induction ps generalizing files with
  | nil =>
    cases h
    exact fun path hpath => .inl hpath
  | cons p rest ih =>
    obtain ⟨source, -, h⟩ := reads_bind_eq_ok h
    obtain ⟨file, -, h⟩ := reads_bind_eq_ok h
    intro path hpath
    rcases ih h path hpath with hold | hnew
    · rcases mem_keys_insert hold with hold | rfl
      · exact .inl hold
      · exact .inr List.mem_cons_self
    · exact .inr (List.mem_cons_of_mem _ hnew)

theorem reads_patchFiles {patches : List Patch} {files patched : ModuleFiles}
    (h : reads (patchFiles patches files) t = .ok patched) :
    Patching.patchAll files patches = (.ok (), patched) := by
  obtain ⟨notices, hrun⟩ := Patching.run_applyPatches files patches
  rw [patchFiles, hrun] at h
  rcases hall : Patching.patchAll files patches with ⟨e | u, final⟩ <;> rw [hall] at h
  · obtain ⟨u, -, h⟩ := reads_bind_eq_ok h
    cases h
  · obtain ⟨u, -, h⟩ := reads_bind_eq_ok h
    cases h
    rfl

/-- **What is copied** are files below the directory of the module, and not below the directory of
the copies as far as the text of their paths goes. -/
theorem isBelow_readModule (ht : t.Sound) {outputBase : Path} {plan : Plan}
    {files : ModuleFiles} {support : List Path}
    (h : reads (readModule outputBase plan) t = .ok (files, support)) :
    ∀ p, p ∈ files.keys ∨ p ∈ support →
      IsBelow plan.call.directory p ∧ p.startsWith outputBase = false := by
  obtain ⟨t', ht', h⟩ := reads_bind_eq_ok h
  cases ht'
  split at h
  · cases h
  · next hdir =>
    rw [Bool.not_eq_true', Bool.not_eq_false] at hdir
    obtain ⟨contents, hcontents, h⟩ := reads_bind_eq_ok h
    obtain ⟨loaded, hloaded, h⟩ := reads_bind_eq_ok h
    obtain ⟨patched, hpatched, h⟩ := reads_bind_eq_ok h
    cases h
    obtain ⟨walked, hwalked, hcontents⟩ := reads_bind_eq_ok hcontents
    cases hcontents
    have hkeys : files.keys = loaded.keys := by
      rw [← Patching.keys_patchAll loaded plan.patches, reads_patchFiles hpatched]
    intro p hp
    have hmem : p ∈ walked ∧ p.startsWith outputBase = false := by
      rcases hp with hp | hp
      · rw [hkeys] at hp
        rcases reads_loadFiles hloaded p hp with hp | hp
        · cases hp
        · obtain ⟨hp, hout⟩ := List.mem_filter.1 hp
          exact ⟨(List.mem_filter.1 hp).1, by simpa using hout⟩
      · obtain ⟨hp, hout⟩ := List.mem_filter.1 hp
        exact ⟨(List.mem_filter.1 hp).1, by simpa using hout⟩
    exact ⟨isBelow_walk ht (reads_look_eq_ok hwalked) hdir hmem.1, hmem.2⟩

/-! ## Writing -/

/-- A file is written: nothing else changes, and the path could be walked. -/
structure Wrote (target : Path) (bytes : ByteArray) (t t' : FileTree) : Prop where
  walkable : walkableParts target = .ok target.parts
  fileAt? : ∀ l, t'.fileAt? l = if l = target.location then some bytes else t.fileAt? l

variable {dir out p : Path} {zone road : Location → Prop}

theorem does_createParent (ht : t.Sound) {target : Path} {r : Except Failure Unit}
    (h : Does (createParent target) t r t') (zone : Location → Prop) :
    Confined zone (· ∈ target.way) t t' ∧ ∀ l, t'.fileAt? l = t.fileAt? l := by
  have hframe : ∀ zone, Confined zone (· ∈ target.way) t t' := by
    intro zone
    unfold createParent at h
    split at h
    · next dir hdir =>
      obtain ⟨-, rfl⟩ := does_onFile h
      exact (confined_createDirectories ht zone dir).mono (fun _ hl => hl) fun l hl =>
        .inr (way_subset (steps_parent hdir) hl)
    · obtain ⟨-, rfl⟩ := does_pure h
      exact .refl _ _ ht
  exact ⟨hframe zone, fun l => (hframe fun _ => False).file l id⟩

theorem does_writeFile (ht : t.Sound) {blamed target : Path} {bytes : ByteArray}
    {r : Except Failure Unit} (h : Does (onFile blamed (writeFile target bytes)) t r t')
    (hzone : zone target.location) :
    Confined zone road t t' ∧ (r = .ok () → Wrote target bytes t t') := by
  obtain ⟨hr, rfl⟩ := does_onFile h
  rcases writeFile_cases ht target bytes with ⟨e, hfail⟩ | ⟨hdone, hresolve, hreached, hnew⟩
  · rw [hfail] at hr ⊢
    exact ⟨.refl _ _ ht, fun hok => by rw [hr] at hok; cases hok⟩
  · rw [hdone]
    exact ⟨.put ht hreached hnew bytes hzone, fun _ =>
      ⟨(resolve_eq_ok hresolve).1, fileAt?_put_file (hreached.ne_nil hnew) bytes⟩⟩

theorem does_copyFile (ht : t.Sound) {blamed source target : Path} {r : Except Failure Unit}
    (h : Does (onFile blamed (copyFile source target)) t r t') (hzone : zone target.location) :
    Confined zone road t t' ∧
      (r = .ok () → ∃ bytes, t.fileAt? source.location = some bytes ∧ Wrote target bytes t t') := by
  obtain ⟨hr, ht'⟩ := does_onFile h
  rcases copyFile_cases ht source target with ⟨e, hfail⟩ | ⟨bytes, hbytes, hcopy⟩
  · rw [hfail] at hr ht'
    rw [ht']
    exact ⟨.refl _ _ ht, fun hok => by rw [hr] at hok; cases hok⟩
  · rw [hcopy] at hr ht'
    rcases writeFile_cases ht target bytes with ⟨e, hfail⟩ | ⟨hdone, hresolve, hreached, hnew⟩
    · rw [hfail] at hr ht'
      rw [ht']
      exact ⟨.refl _ _ ht, fun hok => by rw [hr] at hok; cases hok⟩
    · rw [hdone] at ht'
      rw [ht']
      exact ⟨.put ht hreached hnew bytes hzone, fun _ => ⟨bytes, hbytes,
        (resolve_eq_ok hresolve).1, fileAt?_put_file (hreached.ne_nil hnew) bytes⟩⟩

/-- Where the copy of a file goes. -/
def targetOf (dir out p : Path) : Path := out.join ((p.stripBase? dir).getD p).text

/-- Copies lie below their directory as the files lie below theirs. -/
theorem targetOf_below (out : Path) {row : List String} (hne : row ≠ [])
    (hnames : ∀ name ∈ row, IsName name) :
    targetOf dir out (dir.below row) = out.below row := by
  rw [targetOf, stripBase?_below dir hne hnames]
  exact join_row out hne hnames

theorem location_targetOf (out : Path) {row : List String} (hne : row ≠ [])
    (hnames : ∀ name ∈ row, IsName name) :
    (targetOf dir out (dir.below row)).location = out.location ++ row := by
  rw [targetOf_below out hne hnames, location_below out hnames]

theorem targetOf_spec (out : Path) (hp : IsBelow dir p) :
    copyTarget dir out p = pure (targetOf dir out p) ∧
      IsRelative ((p.stripBase? dir).getD p).text ∧
      ∃ row, row ≠ [] ∧ p = dir.below row ∧ (targetOf dir out p).location = out.location ++ row := by
  obtain ⟨row, hne, hnames, rfl⟩ := hp
  rw [copyTarget, location_targetOf out hne hnames, targetOf, stripBase?_below dir hne hnames]
  exact ⟨rfl, isRelative_row hne hnames, row, hne, rfl, rfl⟩

/-- Different files have different copies. -/
theorem targetOf_injective (out : Path) {q : Path} (hp : IsBelow dir p) (hq : IsBelow dir q)
    (h : (targetOf dir out p).location = (targetOf dir out q).location) : p = q := by
  obtain ⟨row, hne, hnames, rfl⟩ := hp
  obtain ⟨other, hother, hnames', rfl⟩ := hq
  rw [location_targetOf out hne hnames, location_targetOf out hother hnames',
    List.append_cancel_left_eq] at h
  rw [h]

theorem prefix_targetOf (out : Path) (hp : IsBelow dir p) :
    out.location <+: (targetOf dir out p).location := by
  obtain ⟨-, -, row, -, -, hlocation⟩ := targetOf_spec out hp
  rw [hlocation]
  exact List.prefix_append _ _

theorem way_targetOf (out : Path) (hp : IsBelow dir p) {l : Location}
    (hl : l ∈ (targetOf dir out p).way) : out.location <+: l ∨ l ∈ out.way := by
  obtain ⟨row, hne, hnames, rfl⟩ := hp
  rw [targetOf_below out hne hnames] at hl
  rcases mem_way_of_steps (steps_below out hnames) hl with hl | ⟨front, -, rfl⟩
  · exact .inr hl
  · exact .inl (List.prefix_append _ _)

/-- The directory of a copied file: what is new lies in the copy or leads to it. -/
theorem does_createParent_targetOf (ht : t.Sound) (hp : IsBelow dir p)
    (hzone : ∀ l, out.location <+: l → zone l) {r : Except Failure Unit}
    (h : Does (createParent (targetOf dir out p)) t r t') :
    Confined zone (· ∈ out.way) t t' ∧ ∀ l, t'.fileAt? l = t.fileAt? l := by
  obtain ⟨hframe, hsame⟩ := does_createParent ht h zone
  exact ⟨hframe.mono (fun _ hl => hl) fun l hl => (way_targetOf out hp hl).imp_left (hzone l), hsame⟩

/-- One patched file. -/
theorem does_writePatched (ht : t.Sound) {entry : Path × ModuleFile} (hp : IsBelow dir entry.1)
    (hzone : ∀ l, out.location <+: l → zone l) {r : Except Failure Unit}
    (h : Does (writePatched dir out entry) t r t') :
    Confined zone (· ∈ out.way) t t' ∧
      (r = .ok () → Wrote (targetOf dir out entry.1) entry.2.text.toByteArray t t') := by
  rw [writePatched, (targetOf_spec out hp).1, pure_bind] at h
  rcases does_bind h with ⟨e, hparent, rfl⟩ | ⟨u, t₁, hparent, hwrite⟩
  · exact ⟨(does_createParent_targetOf ht hp hzone hparent).1, nofun⟩
  · obtain ⟨hframe, hsame⟩ := does_createParent_targetOf ht hp hzone hparent
    obtain ⟨hframe', hwrote⟩ := does_writeFile hframe.sound hwrite (hzone _ (prefix_targetOf out hp))
    refine ⟨hframe.trans hframe', fun hok => ⟨(hwrote hok).walkable, fun l => ?_⟩⟩
    rw [(hwrote hok).fileAt?, hsame]

/-- One file that is only copied. -/
theorem does_copySupport (ht : t.Sound) (hp : IsBelow dir p)
    (hzone : ∀ l, out.location <+: l → zone l) {r : Except Failure Unit}
    (h : Does (copySupport dir out p) t r t') :
    Confined zone (· ∈ out.way) t t' ∧ (r = .ok () → ∃ bytes, t.fileAt? p.location = some bytes ∧
      Wrote (targetOf dir out p) bytes t t') := by
  rw [copySupport, (targetOf_spec out hp).1, pure_bind] at h
  rcases does_bind h with ⟨e, hparent, rfl⟩ | ⟨u, t₁, hparent, hwrite⟩
  · exact ⟨(does_createParent_targetOf ht hp hzone hparent).1, nofun⟩
  · obtain ⟨hframe, hsame⟩ := does_createParent_targetOf ht hp hzone hparent
    obtain ⟨hframe', hwrote⟩ := does_copyFile hframe.sound hwrite (hzone _ (prefix_targetOf out hp))
    refine ⟨hframe.trans hframe', fun hok => ?_⟩
    obtain ⟨bytes, hbytes, hwrote⟩ := hwrote hok
    refine ⟨bytes, by rw [← hsame, hbytes], hwrote.walkable, fun l => ?_⟩
    rw [hwrote.fileAt?, hsame]

/-! ## Whole copies -/

/-- The files that make up a copy. -/
def AllBelow (dir : Path) (found : ModuleFiles × List Path) : Prop :=
  (∀ e ∈ found.1, IsBelow dir e.1) ∧ ∀ p ∈ found.2, IsBelow dir p

theorem allBelow_readModule (ht : t.Sound) {outputBase : Path} {plan : Plan}
    {found : ModuleFiles × List Path}
    (h : reads (readModule outputBase plan) t = .ok found) :
    AllBelow plan.call.directory found :=
  ⟨fun e he => (isBelow_readModule ht h e.1 (.inl (List.mem_map.2 ⟨e, he, rfl⟩))).1,
    fun p hp => (isBelow_readModule ht h p (.inr hp)).1⟩

theorem confined_forM {α : Type} {f : α → Work Unit} {l : List α}
    (hf : ∀ a ∈ l, ∀ t r t', t.Sound → Does (f a) t r t' → Confined zone road t t')
    (ht : t.Sound) {r : Except Failure Unit} (h : Does (l.forM f) t r t') : Confined zone road t t' :=
  does_forM (P := fun t t' => t.Sound → Confined zone road t t') (fun _ ht => .refl _ _ ht)
    (fun h h' ht => (h ht).trans (h' (h ht).sound))
    (fun a ha t r t' hdoes ht => hf a ha t r t' ht hdoes) h ht

theorem confined_writeCopy (ht : t.Sound) {found : ModuleFiles × List Path}
    (hfound : AllBelow dir found) (hzone : ∀ l, out.location <+: l → zone l)
    {r : Except Failure Unit} (h : Does (writeCopy dir out found.1 found.2) t r t') :
    Confined zone (· ∈ out.way) t t' := by
  rcases does_bind h with ⟨e, hfiles, -⟩ | ⟨u, t₁, hfiles, hsupport⟩
  · exact confined_forM (fun e he t r t' ht h => (does_writePatched ht (hfound.1 e he) hzone h).1) ht
      hfiles
  · have hfirst := confined_forM (fun e he t r t' ht h =>
      (does_writePatched ht (hfound.1 e he) hzone h).1) ht hfiles
    exact hfirst.trans (confined_forM (fun p hp t r t' ht h =>
      (does_copySupport ht (hfound.2 p hp) hzone h).1) hfirst.sound hsupport)

/-- What is in the place of a copy goes, or stays because it is not there. -/
theorem does_clearOld (ht : t.Sound) (base : Path) {name : String} (hname : IsName name)
    {r : Except Failure Unit} (h : Does (clearOld (base.join name)) t r t') :
    (t' = t ∧ (r = .ok () → t.there (base.join name) = false)) ∨
      (r = .ok () ∧ t' = t.eraseAt (base.location ++ [name]) ∧
        t.lookup? (base.location ++ [name]) = some .directory) := by
  rcases does_bind h with ⟨e, htree, -⟩ | ⟨found, t₁, htree, hclear⟩
  · cases (does_tree htree).1
  · obtain ⟨heq, rfl⟩ := does_tree htree
    cases heq
    split at hclear
    · obtain ⟨hr, rfl⟩ := does_onFile hclear
      rcases removeDirectory_cases ht base hname with ⟨e, hfail⟩ | ⟨hdone, hdir⟩
      · rw [hfail] at hr ⊢
        exact .inl ⟨rfl, fun hok => by rw [hr] at hok; cases hok⟩
      · rw [hdone] at hr ⊢
        exact .inr ⟨hr, rfl, hdir⟩
    · next hthere =>
      obtain ⟨-, rfl⟩ := does_pure hclear
      exact .inl ⟨rfl, fun _ => by simpa using hthere⟩

theorem confined_clearOld (ht : t.Sound) {base : Path} {name : String} (hname : IsName name)
    (hzone : ∀ l, base.location ++ [name] <+: l → zone l) {r : Except Failure Unit}
    (h : Does (clearOld (base.join name)) t r t') :
    Confined zone (fun _ => False) t t' := by
  rcases does_clearOld ht base hname h with ⟨rfl, -⟩ | ⟨-, rfl, -⟩
  · exact .refl _ _ ht
  · exact .eraseAt ht (by simp) hzone

theorem way_join_name (base : Path) {name : String} (hname : IsName name) {l : Location}
    (hl : l ∈ (base.join name).way) : base.location ++ [name] <+: l ∨ l ∈ base.way := by
  have hsteps : (base.join name).steps = base.steps ++ [name].map .name := by
    rw [steps_join base hname.isRelative, hname.steps]
    rfl
  rcases mem_way_of_steps hsteps hl with hl | ⟨front, hfront, rfl⟩
  · exact .inr hl
  · rcases List.eq_nil_or_concat front with rfl | ⟨rest, last, rfl⟩
    · exact .inr (by rw [List.append_nil]; exact base.location_mem_way)
    · rw [List.concat_eq_append] at hfront ⊢
      have heq := hfront.eq_of_length_le (by simp)
      rw [heq]
      exact .inl List.prefix_rfl

/-- **Only the directory of a copy changes** when it is written, and the way to it is made, however
that ends. -/
theorem confined_writeModule (ht : t.Sound) {outputBase : Path} {plan : Plan}
    (hname : IsName plan.call.name) {found : ModuleFiles × List Path}
    (hfound : AllBelow plan.call.directory found)
    (hzone : ∀ l, outputBase.location ++ [plan.call.name] <+: l → zone l)
    {r : Except Failure Nat} (h : Does (writeModule outputBase plan found) t r t') :
    Confined zone (· ∈ outputBase.way) t t' := by
  have hout : (outputBase.join plan.call.name).location = outputBase.location ++ [plan.call.name] :=
    location_join_name outputBase hname
  rcases does_bind h with ⟨e, hold, -⟩ | ⟨u, t₁, hold, h⟩
  · exact (confined_clearOld ht hname hzone hold).weaken
  · have hframe : Confined zone (· ∈ outputBase.way) t t₁ :=
      (confined_clearOld ht hname hzone hold).weaken
    have hcopy : ∀ {r t'}, Does (writeCopy plan.call.directory (outputBase.join plan.call.name)
        found.1 found.2) t₁ r t' → Confined zone (· ∈ outputBase.way) t₁ t' := by
      intro r t' h
      refine (confined_writeCopy hframe.sound hfound (hout ▸ hzone) h).mono (fun _ hl => hl) ?_
      exact fun l hl => (way_join_name outputBase hname hl).imp_left (hzone l)
    rcases does_bind h with ⟨e, hwrite, -⟩ | ⟨u, t₂, hwrite, h⟩
    · exact hframe.trans (hcopy hwrite)
    · obtain ⟨-, rfl⟩ := does_pure h
      exact hframe.trans (hcopy hwrite)

/-- How a copy is written that ends well. -/
theorem does_writeModule_ok {outputBase : Path} {plan : Plan} {found : ModuleFiles × List Path}
    {n : Nat} (h : Does (writeModule outputBase plan found) t (.ok n) t') :
    ∃ u, Does (clearOld (outputBase.join plan.call.name)) t (.ok ()) u ∧
      Does (writeCopy plan.call.directory (outputBase.join plan.call.name) found.1 found.2) u
        (.ok ()) t' ∧
      n = found.1.length + found.2.length := by
  obtain ⟨⟨⟩, u, hclear, h⟩ := does_bind_ok h
  obtain ⟨⟨⟩, v, hwrite, h⟩ := does_bind_ok h
  obtain ⟨heq, rfl⟩ := does_pure h
  exact ⟨u, hclear, hwrite, Except.ok.inj heq⟩

end HclOverlay.Build
