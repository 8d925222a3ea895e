import HclOverlay.Proofs.Build.Contents
import HclOverlay.Proofs.Build.Repetition
import HclOverlay.Proofs.FileTree.Creating

/-!
# All of a copy or nothing

A copy is written only after everything has been read and patched, over what an earlier build left.
After the earlier copy is gone nothing may fail any more, or it would be lost for nothing. Writing
can indeed not fail once the output directory is open: the files of a module leave room for each
other, so no file is in the way of a directory and no directory in the way of a file.

* `rowsOf_apart` — no file of a module lies below another one.
* `Room`, `Underway` — a copy that is being written, and leaves room for what is still to come.
* `Writes.does_createParent`, `Writes.does_edit`, `Writes.does_place` — **one file more**: it is
  written, or the output directory could not be opened and nothing has changed.
* `does_forM_unless`, `Writes.does_writeCopy` — all files.
* `Writable`, `patchModule_all_or_nothing` — **patching that fails changes no file**.
-/

namespace HclOverlay.Build

open Work FileTree HclOverlay.Path

variable {t t' u u' : FileTree} {root base dir : Path} {output name : String}
variable {rows : List (List String)} {row : List String}

/-! ## Room for files -/

/-- No file of a module lies below another one. -/
theorem rowsOf_apart (ht : t.Sound) {other : List String} (hrow : row ∈ rowsOf base dir t)
    (hother : other ∈ rowsOf base dir t) (h : other <+: row) : other = row := by
  obtain ⟨rest, rfl⟩ := h
  obtain ⟨⟨bytes, hbytes⟩, -⟩ := (mem_rowsOf ht).1 hrow
  obtain ⟨⟨bytes', hbytes'⟩, -⟩ := (mem_rowsOf ht).1 hother
  by_cases hnil : rest = []
  · rw [hnil, List.append_nil]
  · rw [← List.append_assoc] at hbytes
    have hdir := ht.lookup?_append (fileAt?_eq_some.1 hbytes) hnil
    rw [fileAt?_of_directory hdir] at hbytes'
    cases hbytes'

/-- Files can be written at rows of names: where directories have to be there is no file, and where
the files go there is no directory. -/
structure Room (out : Location) (rows : List (List String)) (u : FileTree) : Prop where
  above : ∀ row ∈ rows, ∀ front, front <+: row → front ≠ row → u.fileAt? (out ++ front) = none
  place : ∀ row ∈ rows, u.lookup? (out ++ row) ≠ some .directory

/-- A copy that is being written: nothing but the copy changes. -/
structure Underway (out : Location) (rows : List (List String)) (t u : FileTree) : Prop where
  frame : Frame (out <+: ·) t u
  room : Room out rows u

/-- Where nothing is, a copy can start. -/
theorem underway_start {out : Location} (ht : t.Sound)
    (hgone : ∀ l, out <+: l → t.lookup? l = none) : Underway out rows t t where
  frame := .refl _ ht
  room :=
    { above := fun row _ front _ _ => by
        rw [fileAt?, hgone _ (List.prefix_append _ _)]
        rfl
      place := fun row _ => by
        rw [hgone _ (List.prefix_append _ _)]
        exact (Option.some_ne_none _).symm }

/-- A file that is found where there is no copy is found beside one. -/
theorem isFile_beside {out : Location} {q : Path} (ht : t.Sound)
    (hgone : ∀ l, out <+: l → t.lookup? l = none) (hframe : Frame (out <+: ·) t u)
    (hname : IsName name) (hfile : t.isFile (q.join name) = true) :
    u.isFile (q.join name) = true := by
  have hopen := opens_of_resolve ht hname ((isFile_iff ht).1 hfile).1
  obtain ⟨hwalk, bytes, hbytes⟩ := (isFile_join_name ht hopen hname).1 hfile
  have hkept : ∀ {l n}, t.lookup? l = some n → ¬out <+: l := by
    intro l n hn hl
    rw [hgone l hl] at hn
    cases hn
  refine (isFile_join_name hframe.sound (fun k hk => ?_) hname).2 ⟨hwalk, bytes, ?_⟩
  · exact hframe.directory k (hkept (hopen k hk)) (hopen k hk)
  · rw [hframe.file _ (hkept (fileAt?_eq_some.1 hbytes)), hbytes]

/-! ## One file -/

/-- A directory that is open and can have an entry of a name. -/
structure Takes (base : Path) (name : String) (u : FileTree) : Prop where
  opens : u.Opens base
  size : name.utf8ByteSize ≤ nameLimit

/-- Files that can be copied below the output directory under a name. -/
structure Writes (base : Path) (name : String) (rows : List (List String)) : Prop where
  isName : IsName name
  outside : ∀ l ∈ base.way, Outside base.location l
  ne_nil : ∀ row ∈ rows, row ≠ []
  fitting : ∀ row ∈ rows, Fitting row
  apart : ∀ row ∈ rows, ∀ other ∈ rows, other <+: row → other = row
  walkable : ∀ row ∈ rows, walkableParts (base.below (name :: row)) =
    .ok (base.below (name :: row)).parts

section Rows

variable (hw : Writes base name rows) {front : List String} {last : String}

include hw

theorem Writes.names (hrow : row ∈ rows) : ∀ other ∈ name :: row, IsName other :=
  List.forall_mem_cons.2 ⟨hw.isName, (hw.fitting row hrow).isName⟩

theorem Writes.above (hrow : front ++ [last] ∈ rows) : ∀ other ∈ name :: front, IsName other :=
  fun other hother => hw.names hrow other (by
    rw [← List.cons_append]
    exact List.mem_append_left _ hother)

/-- The directory of a file is named. -/
theorem Writes.parent (hrow : front ++ [last] ∈ rows) :
    ∃ (q : Path) (m : String), IsName m ∧ base.below (name :: front) = q.join m ∧
      (base.below (name :: (front ++ [last]))).parent? = some (base.below (name :: front)) := by
  have hnames := hw.names hrow
  have hlast := hnames last (by simp)
  rw [← List.cons_append, below_concat]
  rcases List.eq_nil_or_concat front with rfl | ⟨more, m, rfl⟩
  · exact ⟨base, name, hw.isName, rfl, parent?_join_name base hw.isName hlast⟩
  · have hm := hnames m (by simp)
    rw [List.concat_eq_append, ← List.cons_append, below_concat]
    exact ⟨_, m, hm, rfl, parent?_join_name _ hm hlast⟩

/-- If the output directory can have the copy, the directory of a file can be made. -/
theorem Writes.createDirectories_ok (hrow : front ++ [last] ∈ rows)
    (hu : Underway (base.location ++ [name]) rows t u) (htakes : Takes base name u) :
    ∃ u', outcome (createDirectories (base.below (name :: front))) u = (.ok (), u') := by
  have hlast := hw.names hrow last (by simp)
  have hwalk : walkableParts (base.below (name :: front)) =
      .ok (base.below (name :: front)).parts := by
    refine walkableParts_of_prefix ?_ (hw.walkable _ hrow)
    rw [← List.cons_append, below_concat]
    exact prefix_join _ hlast.isRelative
  have hfree : ∀ k, k <+: name :: front → u.fileAt? (base.location ++ k) = none := by
    intro k hk
    cases k with
    | nil => rw [List.append_nil, fileAt?_of_directory htakes.opens.lookup?]
    | cons first k =>
      obtain ⟨rfl, hfront⟩ := List.cons_prefix_cons.1 hk
      rw [List.append_cons]
      refine hu.room.above _ hrow k (hfront.trans (List.prefix_append _ _)) fun heq => ?_
      have hlength := hfront.length_le
      rw [heq, List.length_append, List.length_singleton] at hlength
      omega
  have hfitting : Fitting (name :: front) := List.forall_mem_cons.2 ⟨⟨hw.isName, htakes.size⟩,
    fun other hother => hw.fitting _ hrow other (List.mem_append_left _ hother)⟩
  obtain ⟨u', hdone, -⟩ := createDirectories_below hu.frame.sound htakes.opens
    (List.cons_ne_nil _ _) hfitting hwalk hfree
  exact ⟨u', hdone⟩

/-- Directories on the way to a file take no other file its place. -/
theorem Writes.room_of_made (hrow : front ++ [last] ∈ rows)
    (hu : Underway (base.location ++ [name]) rows t u)
    (hmade : Confined (fun _ => False) (· ∈ (base.below (name :: front)).way) u u') :
    Room (base.location ++ [name]) rows u' where
  above row' hrow' k hk hne := by rw [hmade.file _ id, hu.room.above row' hrow' k hk hne]
  place row' hrow' hdir := by
    rcases hmade.made _ id hdir with hold | hroad
    · exact hu.room.place row' hrow' hold
    rcases mem_way_of_steps (steps_below base (hw.above hrow)) hroad with hbase | ⟨k, hk, heq⟩
    · -- the output directory lies above its copies
      rcases hw.outside _ hbase with heq | hnot
      · exact absurd heq (by simp)
      · exact hnot (by rw [List.append_assoc]; exact List.prefix_append _ _)
    · rw [List.append_assoc, List.append_cancel_left_eq] at heq
      obtain rfl : name :: row' = k := heq
      have hbelow := (List.cons_prefix_cons.1 hk).2
      have hsame := hw.apart _ hrow row' hrow' (hbelow.trans (List.prefix_append _ _))
      have hlength := hbelow.length_le
      rw [hsame, List.length_append, List.length_singleton] at hlength
      omega

/-- The directory of a file is made, or the output directory cannot have the copy. -/
theorem Writes.does_createParent (hrow : front ++ [last] ∈ rows)
    (hu : Underway (base.location ++ [name]) rows t u) {r : Except Failure Unit}
    (h : Does (createParent (base.below (name :: (front ++ [last])))) u r u') :
    (r = .ok () ∧ Underway (base.location ++ [name]) rows t u' ∧
        u'.Opens (base.below (name :: front))) ∨
      (r ≠ .ok () ∧ ¬Takes base name u ∧ ∀ l, u'.fileAt? l = u.fileAt? l) := by
  obtain ⟨q, m, hm, hq, hparent⟩ := hw.parent hrow
  unfold createParent at h
  rw [hparent] at h
  obtain ⟨rfl, rfl⟩ := does_onFile h
  have hmade := confined_createDirectories hu.frame.sound (fun _ => False)
    (base.below (name :: front))
  rcases hend : outcome (createDirectories (base.below (name :: front))) u with ⟨e | done, u'⟩ <;>
    rw [hend] at hmade
  · refine .inr ⟨nofun, fun htakes => ?_, fun l => hmade.file l id⟩
    obtain ⟨u₁, hdone⟩ := hw.createDirectories_ok hrow hu htakes
    rw [hend] at hdone
    cases hdone
  · refine .inl ⟨rfl, ⟨hu.frame.trans (hmade.toFrame.mono fun _ => False.elim),
      hw.room_of_made hrow hu hmade⟩, ?_⟩
    rw [hq] at hend ⊢
    exact opens_of_createDirectories hu.frame.sound hm hend

/-- A file is written into its directory. -/
theorem Writes.does_edit (hrow : front ++ [last] ∈ rows)
    (hu : Underway (base.location ++ [name]) rows t u)
    (hopen : u.Opens (base.below (name :: front))) {edit : Edit Unit} {bytes : ByteArray} (hedit : outcome edit u =
      outcome (writeFile (base.below (name :: (front ++ [last]))) bytes) u)
    {blamed : Path} {r : Except Failure Unit} (h : Does (onFile blamed edit) u r u') :
    r = .ok () ∧ Underway (base.location ++ [name]) rows t u' ∧ Takes base name u' := by
  obtain ⟨hlast, hsize⟩ := hw.fitting _ hrow last (by simp)
  have hnames := hw.above hrow
  have hlocation : (base.below (name :: front)).location ++ [last] =
      base.location ++ [name] ++ (front ++ [last]) := by
    rw [location_below base hnames]
    simp
  have hwalk := hw.walkable _ hrow
  rw [← List.cons_append, below_concat] at hwalk hedit
  have hnew := hu.room.place _ hrow
  rw [← hlocation] at hnew
  rw [writeFile_join_name hu.frame.sound hopen hlast hsize hwalk hnew, hlocation] at hedit
  obtain ⟨hr, ht'⟩ := does_onFile h
  rw [hedit] at hr ht'
  subst ht'
  have hput : Confined (base.location ++ [name] <+: ·) (fun _ => False) u
      (u.put (base.location ++ [name] ++ (front ++ [last])) (.file bytes)) := by
    rw [← hlocation]
    refine .put hu.frame.sound (.entry hopen.lookup? hlast hsize) hnew bytes ?_
    rw [hlocation]
    exact List.prefix_append _ _
  have hlookup := lookup?_put (t := u) (l := base.location ++ [name] ++ (front ++ [last]))
    (by simp) (.file bytes)
  refine ⟨hr, ⟨hu.frame.trans hput.toFrame, fun row' hrow' k hk hne => ?_, fun row' hrow' => ?_⟩,
    fun k hk => ?_, ?_⟩
  · rw [fileAt?, hlookup, if_neg, ← fileAt?, hu.room.above row' hrow' k hk hne]
    -- no file lies below another one
    rw [List.append_cancel_left_eq]
    rintro rfl
    exact hne (hw.apart row' hrow' _ hrow hk)
  · rw [hlookup]
    split
    · simp
    · exact hu.room.place row' hrow'
  · exact hput.directory k (not_copy_of_outside (hw.outside k hk) name) (hopen.of_below hnames k hk)
  · -- the copy stands in the output directory
    have hdir := hopen.lookup?
    rw [location_below base hnames] at hdir
    exact (hu.frame.sound.name_of_lookup? hdir name (by simp)).2

/-- **One file more** is written, or the output directory cannot have the copy and no file has
changed. -/
theorem Writes.does_place {row : List String} (hrow : row ∈ rows)
    (hu : Underway (base.location ++ [name]) rows t u) {edit : Edit Unit}
    (hedit : ∀ {v}, Underway (base.location ++ [name]) rows t v → ∃ bytes,
      outcome edit v = outcome (writeFile (base.below (name :: row)) bytes) v)
    {blamed : Path} {r : Except Failure Unit}
    (h : Does (createParent (base.below (name :: row)) >>= fun _ => onFile blamed edit) u r u') :
    (r = .ok () ∧ Underway (base.location ++ [name]) rows t u' ∧ Takes base name u') ∨
      (r ≠ .ok () ∧ ¬Takes base name u ∧ ∀ l, u'.fileAt? l = u.fileAt? l) := by
  obtain ⟨front, last, rfl⟩ := (List.eq_nil_or_concat' row).resolve_left (hw.ne_nil row hrow)
  rcases does_bind h with ⟨e, hparent, rfl⟩ | ⟨done, u₁, hparent, hwrite⟩
  · rcases hw.does_createParent hrow hu hparent with ⟨heq, -⟩ | hfailed
    · cases heq
    · exact .inr hfailed
  · rcases hw.does_createParent hrow hu hparent with ⟨-, hu₁, hopen⟩ | ⟨hne, -⟩
    · obtain ⟨bytes, hbytes⟩ := hedit hu₁
      exact .inl (hw.does_edit hrow hu₁ hopen hbytes hwrite)
    · exact absurd rfl hne

end Rows

/-! ## All files -/

/-- A walk whose steps work or change no file does so as a whole, if after one step that works all
others do. -/
theorem does_forM_unless {α : Type} {P Q : FileTree → Prop} {f : α → Work Unit} {l : List α}
    (hf : ∀ a ∈ l, ∀ {u r u'}, P u → Does (f a) u r u' →
      (r = .ok () ∧ P u' ∧ Q u') ∨ (r ≠ .ok () ∧ ¬Q u ∧ ∀ l, u'.fileAt? l = u.fileAt? l))
    (hu : P u) {r : Except Failure Unit} (h : Does (l.forM f) u r u') :
    (r = .ok () ∧ P u' ∧ (u' = u ∨ Q u')) ∨
      (r ≠ .ok () ∧ ¬Q u ∧ ∀ l, u'.fileAt? l = u.fileAt? l) := by
  induction l generalizing u with
  | nil =>
    obtain ⟨rfl, rfl⟩ := does_pure h
    exact .inl ⟨rfl, hu, .inl rfl⟩
  | cons a l ih =>
    have hrest : ∀ b ∈ l, ∀ {u r u'}, P u → Does (f b) u r u' →
        (r = .ok () ∧ P u' ∧ Q u') ∨ (r ≠ .ok () ∧ ¬Q u ∧ ∀ l, u'.fileAt? l = u.fileAt? l) :=
      fun b hb => hf b (List.mem_cons_of_mem a hb)
    change Does (f a >>= fun _ => l.forM f) u r u' at h
    rcases does_bind h with ⟨e, hfirst, rfl⟩ | ⟨done, u₁, hfirst, hmore⟩
    · rcases hf a List.mem_cons_self hu hfirst with ⟨heq, -⟩ | hfailed
      · cases heq
      · exact .inr hfailed
    · -- a step that works leaves `Q`, and with `Q` the others cannot fail
      rcases hf a List.mem_cons_self hu hfirst with ⟨-, hu₁, hq⟩ | ⟨hne, -⟩
      · rcases ih hrest hu₁ hmore with ⟨hr, hu', rfl | hq'⟩ | ⟨-, hnot, -⟩
        · exact .inl ⟨hr, hu', .inr hq⟩
        · exact .inl ⟨hr, hu', .inr hq'⟩
        · exact absurd hq hnot
      · exact absurd rfl hne

theorem Writes.isFile_beside (hw : Writes base name rows) (hrow : row ∈ rows) (ht : t.Sound)
    {out : Location} (hgone : ∀ l, out <+: l → t.lookup? l = none) (hframe : Frame (out <+: ·) t u)
    (hfile : t.isFile (dir.below row) = true) : u.isFile (dir.below row) = true := by
  -- the path of a file below a directory ends in a name
  obtain ⟨front, last, rfl⟩ := (List.eq_nil_or_concat' row).resolve_left (hw.ne_nil row hrow)
  rw [below_concat] at hfile ⊢
  exact Build.isFile_beside ht hgone hframe ((hw.fitting _ hrow).isName last (by simp)) hfile

/-- **A copy** is written as a whole, or the output directory cannot have it and no file has
changed. What is only copied has to be there without the copy. -/
theorem Writes.does_writeCopy (hw : Writes base name rows) (ht : t.Sound)
    (hgone : ∀ l, base.location ++ [name] <+: l → t.lookup? l = none)
    {files : ModuleFiles} {support : List Path}
    (hfiles : ∀ e ∈ files, ∃ row ∈ rows, e.1 = dir.below row)
    (hsupport : ∀ p ∈ support, ∃ row ∈ rows, p = dir.below row ∧ t.isFile p = true)
    {r : Except Failure Unit} (h : Does (writeCopy dir (base.join name) files support) t r t') :
    r = .ok () ∨ (¬Takes base name t ∧ ∀ l, t'.fileAt? l = t.fileAt? l) := by
  have hbelow : ∀ {row}, row ∈ rows →
      copyTarget dir (base.join name) (dir.below row) = pure (base.below (name :: row)) := by
    intro row hrow
    have hnames := (hw.fitting row hrow).isName
    rw [(targetOf_spec (base.join name) ⟨row, hw.ne_nil row hrow, hnames, rfl⟩).1,
      targetOf_below _ (hw.ne_nil row hrow) hnames]
    rfl
  -- a file is written if the output directory takes files, and otherwise nothing is
  have hpatched : ∀ e ∈ files, ∀ {u r u'}, Underway (base.location ++ [name]) rows t u →
      Does (writePatched dir (base.join name) e) u r u' →
      (r = .ok () ∧ Underway (base.location ++ [name]) rows t u' ∧ Takes base name u') ∨
        (r ≠ .ok () ∧ ¬Takes base name u ∧ ∀ l, u'.fileAt? l = u.fileAt? l) := by
    intro e he u r u' hu hdoes
    obtain ⟨row, hrow, heq⟩ := hfiles e he
    rw [writePatched, heq, hbelow hrow, pure_bind] at hdoes
    exact hw.does_place hrow hu (fun _ => ⟨_, rfl⟩) hdoes
  have hcopied : ∀ p ∈ support, ∀ {u r u'}, Underway (base.location ++ [name]) rows t u →
      Does (copySupport dir (base.join name) p) u r u' →
      (r = .ok () ∧ Underway (base.location ++ [name]) rows t u' ∧ Takes base name u') ∨
        (r ≠ .ok () ∧ ¬Takes base name u ∧ ∀ l, u'.fileAt? l = u.fileAt? l) := by
    intro p hp u r u' hu hdoes
    obtain ⟨row, hrow, rfl, hfile⟩ := hsupport p hp
    rw [copySupport, hbelow hrow, pure_bind] at hdoes
    exact hw.does_place hrow hu (fun {v} hv => copyFile_of_isFile
      (hw.isFile_beside hrow ht hgone hv.frame hfile) _) hdoes
  rcases does_bind h with ⟨e, hfirst, rfl⟩ | ⟨done, u, hfirst, hsecond⟩
  · rcases does_forM_unless hpatched (underway_start ht hgone) hfirst with ⟨heq, -⟩ | ⟨-, hfailed⟩
    · cases heq
    · exact .inr hfailed
  · rcases does_forM_unless hpatched (underway_start ht hgone) hfirst with
      ⟨-, hu, hstart⟩ | ⟨hne, -⟩
    · rcases does_forM_unless hcopied hu hsecond with ⟨hr, -⟩ | ⟨-, hnot, hsame⟩
      · exact .inl hr
      · -- copying fails only if nothing has been written before
        rcases hstart with rfl | htakes
        · exact .inr ⟨hnot, hsame⟩
        · exact absurd htakes hnot
    · exact absurd rfl hne

/-! ## One module -/

/-- A plan whose copy can be written over an earlier one: the paths of its files can be walked, and
what is only copied is found without the earlier copy. -/
structure Writable (base : Path) (plan : Plan) (t : FileTree) : Prop where
  name : IsName plan.call.name
  walkable : ∀ row ∈ rowsOf base plan.call.directory t,
    walkableParts (base.below (plan.call.name :: row)) =
      .ok (base.below (plan.call.name :: row)).parts
  copied : ∀ row ∈ rowsOf base plan.call.directory t,
    (plan.call.directory.below row).isModuleFile = false →
    (t.eraseAt (base.location ++ [plan.call.name])).isFile (plan.call.directory.below row) = true

/-- The files of a module can be copied. -/
theorem Writable.writes {plan : Plan} (h : Writable (root.join output) plan t) (ht : t.Sound)
    (hdirect : Direct root output)
    (hdir : t.lookup? plan.call.directory.location = some .directory) :
    Writes (root.join output) plan.call.name
      (rowsOf (root.join output) plan.call.directory t) where
  isName := h.name
  outside := hdirect.outside_way
  ne_nil row hrow := (names_of_mem_filesBelow ht hdir (List.mem_of_mem_filter hrow)).1
  fitting row hrow := by
    obtain ⟨⟨bytes, hbytes⟩, -⟩ := (mem_rowsOf ht).1 hrow
    exact fun other hother => ht.name_of_lookup? (fileAt?_eq_some.1 hbytes) other
      (List.mem_append_right _ hother)
  apart row hrow other hother := rowsOf_apart ht hrow hother
  walkable := h.walkable

/-- Where an earlier copy was, there can be another one. -/
theorem takes_eraseAt (ht : t.Sound) (hdirect : Direct root output)
    (hopen : IsRelative output → t.Opens root)
    (hold : t.lookup? ((root.join output).location ++ [name]) = some .directory) :
    Takes (root.join output) name (t.eraseAt ((root.join output).location ++ [name])) where
  opens := by
    have hframe : Frame ((root.join output).location ++ [name] <+: ·) t
        (t.eraseAt ((root.join output).location ++ [name])) := by
      have hconfined : Confined ((root.join output).location ++ [name] <+: ·) (fun _ => False) t
          (t.eraseAt ((root.join output).location ++ [name])) :=
        .eraseAt ht (by simp) fun k hk => hk
      exact hconfined.toFrame
    refine Opens.join hframe.sound hdirect.straight
      (fun hrelative => opens_frame hdirect hrelative (hopen hrelative) hframe) ?_
    refine hframe.directory _ (not_copy_of_outside (.inl rfl) name) ?_
    exact ht.lookup?_append hold (List.cons_ne_nil _ _)
  size := (ht.name_of_lookup? hold name (by simp)).2

/-- A copy of no files is written. -/
theorem does_writeCopy_nil {out : Path} {r : Except Failure Unit}
    (h : Does (writeCopy dir out [] []) t r t') : r = .ok () := by
  rcases does_bind h with ⟨e, hnone, -⟩ | ⟨done, u, -, hnone⟩
  · cases (does_pure hnone).1
  · exact (does_pure hnone).1

/-- Without an earlier copy, writing one is all or nothing. -/
theorem does_writeCopy_new {plan : Plan} {files : ModuleFiles} {support : List Path} (ht : t.Sound)
    (hdirect : Direct root output) (hopen : IsRelative output → t.Opens root)
    (hw : Writes (root.join output) plan.call.name rows)
    (hthere : t.there ((root.join output).join plan.call.name) = false)
    (hfiles : ∀ e ∈ files, ∃ row ∈ rows, e.1 = dir.below row)
    (hsupport : ∀ p ∈ support, ∃ row ∈ rows, p = dir.below row ∧
      (t.eraseAt ((root.join output).location ++ [plan.call.name])).isFile p = true)
    {r : Except Failure Unit}
    (h : Does (writeCopy dir ((root.join output).join plan.call.name) files support) t r t') :
    r = .ok () ∨ ∀ l, t'.fileAt? l = t.fileAt? l := by
  by_cases hnil : rows = []
  · -- there are no files
    subst hnil
    obtain rfl : files = [] := List.eq_nil_iff_forall_not_mem.2 fun e he => by
      obtain ⟨row, hrow, -⟩ := hfiles e he
      cases hrow
    obtain rfl : support = [] := List.eq_nil_iff_forall_not_mem.2 fun p hp => by
      obtain ⟨row, hrow, -⟩ := hsupport p hp
      cases hrow
    exact .inl (does_writeCopy_nil h)
  obtain ⟨row, hrow⟩ := List.exists_mem_of_ne_nil rows hnil
  have hwalk : walkableParts ((root.join output).join plan.call.name) =
      .ok ((root.join output).join plan.call.name).parts :=
    walkableParts_of_prefix (prefix_below _ (hw.fitting row hrow).isName) (hw.walkable row hrow)
  -- as there was no earlier copy, clearing its place changes nothing
  have hnothing : ∀ l, (root.join output).location ++ [plan.call.name] <+: l →
      t.lookup? l = none := fun l hl =>
    nothing_of_not_there ht hdirect hopen hw.isName hwalk hthere hl
  have hne : (root.join output).location ++ [plan.call.name] ≠ [] := by simp
  have hframe : Frame ((root.join output).location ++ [plan.call.name] <+: ·)
      (t.eraseAt ((root.join output).location ++ [plan.call.name])) t :=
    ⟨fun l hl => by rw [fileAt?_eraseAt hne, if_neg hl],
      fun l hl hdir => by rwa [lookup?_eraseAt hne, if_neg hl] at hdir, ht⟩
  have hfound : ∀ p ∈ support, ∃ row ∈ rows, p = dir.below row ∧ t.isFile p = true := by
    intro p hp
    obtain ⟨other, hother, rfl, hfile⟩ := hsupport p hp
    refine ⟨other, hother, rfl, hw.isFile_beside hother (ht.eraseAt hne) ?_ hframe hfile⟩
    intro l hl
    rw [lookup?_eraseAt hne, if_pos hl]
  exact (hw.does_writeCopy ht hnothing hfiles hfound h).imp_right And.right

/-- Writing a copy is all or nothing. -/
theorem does_writeModule_error {plan : Plan} {found : ModuleFiles × List Path} (ht : t.Sound)
    (hdirect : Direct root output) (hopen : IsRelative output → t.Opens root)
    (hplan : Writable (root.join output) plan t)
    (hread : reads (readModule (root.join output) plan) t = .ok found) {e : Failure}
    (h : Does (writeModule (root.join output) plan found) t (.error e) t') :
    ∀ l, t'.fileAt? l = t.fileAt? l := by
  obtain ⟨hdir, -, hkeys, hsupport⟩ := readModule_eq_ok ht hread
  have hw := hplan.writes ht hdirect hdir
  have hne : (root.join output).location ++ [plan.call.name] ≠ [] := by simp
  have hgone : ∀ l, (root.join output).location ++ [plan.call.name] <+: l →
      (t.eraseAt ((root.join output).location ++ [plan.call.name])).lookup? l = none :=
    fun l hl => by rw [lookup?_eraseAt hne, if_pos hl]
  have hfiles : ∀ e ∈ found.1, ∃ row ∈ rowsOf (root.join output) plan.call.directory t,
      e.1 = plan.call.directory.below row := by
    intro e he
    have hmem : e.1 ∈ found.1.keys := List.mem_map_of_mem he
    rw [hkeys, List.mem_filter, mem_filesOf] at hmem
    obtain ⟨⟨row, hrow, heq⟩, -⟩ := hmem
    exact ⟨row, hrow, heq.symm⟩
  have hcopied : ∀ p ∈ found.2, ∃ row ∈ rowsOf (root.join output) plan.call.directory t,
      p = plan.call.directory.below row ∧
        (t.eraseAt ((root.join output).location ++ [plan.call.name])).isFile p = true := by
    intro p hp
    rw [hsupport, List.mem_filter, mem_filesOf] at hp
    obtain ⟨⟨row, hrow, rfl⟩, hkind⟩ := hp
    refine ⟨row, hrow, rfl, hplan.copied row hrow ?_⟩
    simpa using (Bool.and_eq_true_iff.1 hkind).1
  -- clearing the earlier copy is the first change, and it may be the one that fails
  rcases does_bind h with ⟨e', hclear, -⟩ | ⟨done, t₁, hclear, hcopy⟩
  · rcases does_clearOld ht _ hplan.name hclear with ⟨rfl, -⟩ | ⟨heq, -⟩
    · exact fun l => rfl
    · cases heq
  rcases does_bind hcopy with ⟨e', hwritten, -⟩ | ⟨done', t₂, -, hdone⟩
  swap
  · cases (does_pure hdone).1
  rcases does_clearOld ht _ hplan.name hclear with ⟨rfl, hthere⟩ | ⟨-, rfl, hold⟩
  · rcases does_writeCopy_new ht hdirect hopen hw (hthere rfl) hfiles hcopied hwritten with
      heq | hsame
    · cases heq
    · exact hsame
  · -- the output directory had the earlier copy, so it can have the new one
    rcases hw.does_writeCopy (ht.eraseAt hne) hgone hfiles hcopied hwritten with heq | ⟨hnot, -⟩
    · cases heq
    · exact absurd (takes_eraseAt ht hdirect hopen hold) hnot

/-- **Patching a module is all or nothing.** Whatever fails before the copy is written leaves the
tree as it is, whichever tree and plan these are. What fails after that changes no file: an earlier
copy is neither removed nor mixed with new files. For that the output directory has to be found by
its path, and what is only copied must not be found in the earlier copy, which goes before the
copying. -/
theorem patchModule_all_or_nothing {root : Path} {output : String} {plan : Plan} {s : Session}
    {e : Failure} (h : ((patchModule (root.join output) plan).run s).1 = .error e) :
    ((patchModule (root.join output) plan).run s).2.tree = s.tree ∨
      ∃ found, reads (readModule (root.join output) plan) s.tree = .ok found ∧
        (s.tree.Sound → Direct root output → (IsRelative output → s.tree.Opens root) →
          Writable (root.join output) plan s.tree → ∀ l,
            ((patchModule (root.join output) plan).run s).2.tree.fileAt? l = s.tree.fileAt? l) := by
  have hdoes : Does (patchModule (root.join output) plan) s.tree (.error e)
      ((patchModule (root.join output) plan).run s).2.tree := ⟨s, rfl, h, rfl⟩
  rcases does_patchModule hdoes with ⟨e', -, -, hsame⟩ | ⟨found, hread, hwrite⟩
  · exact .inl hsame
  · refine .inr ⟨found, hread, fun ht hdirect hopen hplan => ?_⟩
    exact does_writeModule_error ht hdirect hopen hplan hread hwrite

/-- A file stands in the place of the copy, so writing the copy fails; the file stays, and nothing
else has come. -/
theorem patchModule_all_or_nothing_file :
    let file (text : String) : Node := .file text.toByteArray
    let t : FileTree := ⟨[(["r"], .directory), (["r", "m"], .directory),
      (["r", "m", "main.tf"], file "resource k w \x7b\n  a = 1\n\x7d\n"),
      (["r", "m", "notes"], file "notes"), (["r", "out"], .directory),
      (["r", "out", "m"], file "old")]⟩
    let plan : Plan := ⟨⟨"m", "./m", ⟨"/r/m"⟩⟩, [⟨"k", "w", some "./m", []⟩]⟩
    let final := ((patchModule ((⟨"/r"⟩ : Path).join "out") plan).run ⟨t, [], []⟩).2.tree
    (reads (readModule ((⟨"/r"⟩ : Path).join "out") plan) t).isOk = true ∧
      ∀ l, final.fileAt? l = t.fileAt? l := by
  intro file t plan final
  have hroot : t.isDirectory ⟨"/r"⟩ = true := by decide +kernel
  have hs : t.Sound := by decide +kernel
  have hdirect : Direct ⟨"/r"⟩ "out" := ⟨by decide +kernel, fun _ => by decide +kernel⟩
  have hplan : Writable ((⟨"/r"⟩ : Path).join "out") plan t := by
    refine ⟨by decide, fun row hrow => walkableParts_eq_ok.2 ?_, by decide +kernel⟩
    have hall : ∀ row ∈ rowsOf ((⟨"/r"⟩ : Path).join "out") ⟨"/r/m"⟩ t,
        '\x00' ∉ (((⟨"/r"⟩ : Path).join "out").below ("m" :: row)).text.toList ∧
          (((⟨"/r"⟩ : Path).join "out").below ("m" :: row)).text.utf8ByteSize ≤ pathLimit := by
      decide +kernel
    exact hall row hrow
  obtain ⟨e, h⟩ : ∃ e, ((patchModule ((⟨"/r"⟩ : Path).join "out") plan).run ⟨t, [], []⟩).1 =
      .error e := by
    have hfails :
        ((patchModule ((⟨"/r"⟩ : Path).join "out") plan).run ⟨t, [], []⟩).1.isOk = false := by
      decide +kernel
    cases hend : ((patchModule ((⟨"/r"⟩ : Path).join "out") plan).run ⟨t, [], []⟩).1 with
    | error e => exact ⟨e, rfl⟩
    | ok n =>
      rw [hend] at hfails
      cases hfails
  refine ⟨by decide +kernel, ?_⟩
  rcases patchModule_all_or_nothing h with hsame | ⟨found, -, hfiles⟩
  · exact fun l => congrArg (·.fileAt? l) hsame
  · exact hfiles hs hdirect (fun _ => opens_of_isDirectory hs hroot) hplan

end HclOverlay.Build
