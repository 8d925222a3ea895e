import HclOverlay.Proofs.Build.Contents
import HclOverlay.Proofs.Build.Repetition

/-!
# Copies are complete and exact

After a build that ends well, the directory of a module that was patched holds the files of this
module as they were before the build, the module files with their patches applied, and nothing else;
that of a module that was not patched holds no file. Nothing of this needs to look at the order of
the plans: what one plan has written, no later one touches.

* `does_writeCopy_ok` — the files of one copy; `exact_writeModule` — **one copy is exact**.
* `Unshared` — modules that have nothing in the place of a copy.
* `Finished`, `finished_carryOut`, `finished_carryOuts` — what holds after some plans, after one
  more, and after all of them.
* `run_completes_copies` — **the copies of a build are complete and exact**.
-/

namespace HclOverlay.Build

open Work FileTree HclOverlay.Path

variable {t t' t₀ : FileTree} {root base : Path} {output : String} {plan : Plan}

/-! ## One copy -/

/-- Steps that write one file each: at the end all the files are there. -/
theorem does_forM_write {α : Type} {inv : FileTree → Prop} {f : α → Work PUnit}
    {place : α → Location} {bytes : α → Option ByteArray} {l : List α}
    (hf : ∀ a ∈ l, ∀ {t t'}, inv t → Does (f a) t (.ok ()) t' →
      inv t' ∧ ∀ k, t'.fileAt? k = if k = place a then bytes a else t.fileAt? k)
    (hplaces : (l.map place).Nodup) (ht : inv t) (h : Does (l.forM f) t (.ok ()) t') :
    inv t' ∧ (∀ a ∈ l, t'.fileAt? (place a) = bytes a) ∧
      ∀ k, k ∉ l.map place → t'.fileAt? k = t.fileAt? k := by
  induction l generalizing t with
  | nil =>
    obtain ⟨-, rfl⟩ := does_pure h
    exact ⟨ht, nofun, fun k _ => rfl⟩
  | cons a l ih =>
    rw [List.map_cons, List.nodup_cons] at hplaces
    obtain ⟨u, hfirst, hrest⟩ := does_forM_cons h
    obtain ⟨hu, hwrote⟩ := hf a List.mem_cons_self ht hfirst
    obtain ⟨ht', hall, hother⟩ :=
      ih (fun b hb => hf b (List.mem_cons_of_mem a hb)) hplaces.2 hu hrest
    refine ⟨ht', List.forall_mem_cons.2 ⟨?_, hall⟩, fun k hk => ?_⟩
    · -- no later step writes to the place of the first
      rw [hother _ hplaces.1, hwrote, if_pos rfl]
    · rw [List.map_cons, List.mem_cons, not_or] at hk
      rw [hother k hk.2, hwrote, if_neg hk.1]

/-- The files of a copy, if none of those that are only copied lies in it. -/
theorem does_writeCopy_ok {dir out : Path} {found : ModuleFiles × List Path} (ht : t.Sound)
    (hfound : AllBelow dir found) (hnodup : (found.1.keys ++ found.2).Nodup)
    (hsupport : ∀ p ∈ found.2, ¬out.location <+: p.location)
    (h : Does (writeCopy dir out found.1 found.2) t (.ok ()) t') :
    (∀ e ∈ found.1, t'.fileAt? (targetOf dir out e.1).location = some e.2.text.toByteArray) ∧
      (∀ p ∈ found.2, t'.fileAt? (targetOf dir out p).location = t.fileAt? p.location) ∧
      ∀ l, (∀ p ∈ found.1.keys ++ found.2, l ≠ (targetOf dir out p).location) →
        t'.fileAt? l = t.fileAt? l := by
  have hbelow : ∀ p ∈ found.1.keys ++ found.2, IsBelow dir p := by
    intro p hp
    rcases List.mem_append.1 hp with hp | hp
    · obtain ⟨e, he, rfl⟩ := List.mem_map.1 hp
      exact hfound.1 e he
    · exact hfound.2 p hp
  -- different files have different places
  have hplaces : ((found.1.keys ++ found.2).map fun p => (targetOf dir out p).location).Nodup :=
    List.Nodup.map_on (fun p hp q hq => targetOf_injective out (hbelow p hp) (hbelow q hq)) hnodup
  rw [List.map_append, List.nodup_append, Table.keys, List.map_map, Function.comp_def] at hplaces
  obtain ⟨hfiles, hcopies, hapart⟩ := hplaces
  have hstep : ∀ e ∈ found.1, ∀ {v v'}, Frame (out.location <+: ·) t v →
      Does (writePatched dir out e) v (.ok ()) v' → Frame (out.location <+: ·) t v' ∧
        ∀ k, v'.fileAt? k = if k = (targetOf dir out e.1).location then
          some e.2.text.toByteArray else v.fileAt? k := by
    intro e he v v' hv hdoes
    obtain ⟨hframe, hwrote⟩ := does_writePatched hv.sound (hfound.1 e he) (fun l hl => hl) hdoes
    exact ⟨hv.trans hframe.toFrame, (hwrote rfl).fileAt?⟩
  have hstep' : ∀ p ∈ found.2, ∀ {v v'}, Frame (out.location <+: ·) t v →
      Does (copySupport dir out p) v (.ok ()) v' → Frame (out.location <+: ·) t v' ∧
        ∀ k, v'.fileAt? k = if k = (targetOf dir out p).location then
          t.fileAt? p.location else v.fileAt? k := by
    intro p hp v v' hv hdoes
    obtain ⟨hframe, hwrote⟩ := does_copySupport hv.sound (hfound.2 p hp) (fun l hl => hl) hdoes
    obtain ⟨bytes, hbytes, hwrote⟩ := hwrote rfl
    -- nothing has changed yet where the file comes from
    rw [hv.file _ (hsupport p hp)] at hbytes
    exact ⟨hv.trans hframe.toFrame, hbytes ▸ hwrote.fileAt?⟩
  obtain ⟨⟨⟩, u, hwrite, hcopy⟩ := does_bind_ok h
  obtain ⟨hu, hwritten, hother⟩ := does_forM_write hstep hfiles (.refl _ ht) hwrite
  obtain ⟨-, hcopied, hother'⟩ := does_forM_write hstep' hcopies hu hcopy
  refine ⟨fun e he => ?_, hcopied, fun l hl => ?_⟩
  · have hplace := List.mem_map_of_mem (f := fun e => (targetOf dir out e.1).location) he
    rw [hother' _ fun hmem => hapart _ hplace _ hmem rfl, hwritten e he]
  · rw [hother' l, hother l]
    · intro hmem
      obtain ⟨e, he, rfl⟩ := List.mem_map.1 hmem
      exact hl e.1 (List.mem_append_left _ (List.mem_map_of_mem he)) rfl
    · intro hmem
      obtain ⟨p, hp, rfl⟩ := List.mem_map.1 hmem
      exact hl p (List.mem_append_right _ hp) rfl

/-- The bytes of a file in a copy, by the row of names that leads to it there. -/
def copyIn (base : Path) (name : String) (t : FileTree) (row : List String) : Option ByteArray :=
  t.fileAt? (base.location ++ name :: row)

/-- The place in a copy of a file of the module. -/
theorem location_targetOf_row {dir : Path} {row : List String} {name : String} (ht : t.Sound)
    (hdir : t.lookup? dir.location = some .directory) (hname : IsName name)
    (hrow : row ∈ rowsOf base dir t) :
    (targetOf dir (base.join name) (dir.below row)).location = base.location ++ name :: row := by
  obtain ⟨hne, hnames, -⟩ := names_of_mem_filesBelow ht hdir (List.mem_of_mem_filter hrow)
  rw [location_targetOf _ hne hnames, location_join_name base hname, List.append_assoc,
    List.singleton_append]

/-- **One copy is exact**, unless a file of the module lies in it. -/
theorem exact_writeModule (ht : t.Sound) (hdirect : Direct root output)
    (hopen : IsRelative output → t.Opens root) (hname : IsName plan.call.name)
    (hpatches : plan.patches ≠ [])
    (hown : ∀ row ∈ rowsOf (root.join output) plan.call.directory t,
      ¬(root.join output).location ++ [plan.call.name] <+: plan.call.directory.location ++ row)
    {found : ModuleFiles × List Path}
    (hread : reads (readModule (root.join output) plan) t = .ok found) {n : Nat}
    (h : Does (writeModule (root.join output) plan found) t (.ok n) t') :
    Exact (root.join output) plan t n (copyIn (root.join output) plan.call.name t') := by
  generalize hbase : root.join output = base at *
  obtain ⟨u, hclear, hwrite, rfl⟩ := does_writeModule_ok h
  have hfound := allBelow_readModule ht hread
  have hframe := confined_clearOld ht hname (fun l hl => hl) hclear
  -- what was in the copy before is gone
  have hempty : ∀ row, copyIn base plan.call.name u row = none := by
    have hwalk := walkable_of_writeCopy hframe.sound hfound (files_ne_nil hread hpatches) hwrite
    subst hbase
    refine fun row => cleared ht hdirect hopen hname hwalk hclear ⟨row, ?_⟩
    rw [List.append_assoc, List.singleton_append]
  obtain ⟨hdir, hpatched, hkeys, hsupport⟩ := readModule_eq_ok ht hread
  have hlisted : Listed plan.call.directory (filesOf base plan.call.directory t) :=
    listed_filesOf ht
  have hfiles : ∀ p ∈ found.1.keys ++ found.2, p ∈ filesOf base plan.call.directory t := by
    rw [hkeys, hsupport]
    exact fun p hp => (List.mem_append.1 hp).elim List.mem_of_mem_filter List.mem_of_mem_filter
  have hnodup : (found.1.keys ++ found.2).Nodup := by
    rw [hkeys, hsupport]
    exact nodup_kinds ht
  -- no file that is copied is overwritten before it is read
  obtain ⟨hwritten, hcopied, hother⟩ := does_writeCopy_ok hframe.sound hfound hnodup (by
    intro p hp
    obtain ⟨row, hrow, rfl⟩ := mem_filesOf.1 (hfiles p (List.mem_append_right _ hp))
    rw [location_join_name base hname, location_below _ (names_of_mem_rowsOf ht hrow)]
    exact hown row hrow) hwrite
  have htarget : ∀ row ∈ rowsOf base plan.call.directory t,
      (targetOf plan.call.directory (base.join plan.call.name)
        (plan.call.directory.below row)).location = base.location ++ plan.call.name :: row :=
    fun _ hrow => location_targetOf_row ht hdir hname hrow
  refine ⟨nodup_rowsOf ht, ?_, fun row hrow => ?_, fun row hrow hkind => ?_,
    found.1, hpatched, fun row hrow hkind => ?_⟩
  · rw [length_filesOf, ← hkeys, hsupport, Table.keys, List.length_map]
  · -- the row of a file that was written is a row of the module
    rw [copyIn, hother, ← copyIn, hempty]
    intro p hp heq
    obtain ⟨other, hmem, rfl⟩ := mem_filesOf.1 (hfiles p hp)
    rw [htarget other hmem, List.append_cancel_left_eq] at heq
    cases heq
    exact hrow hmem
  · obtain ⟨⟨bytes, hbytes⟩, hoverlay, -⟩ := (mem_rowsOf ht).1 hrow
    have hmem : plan.call.directory.below row ∈ found.2 := by
      rw [hsupport, List.mem_filter, Path.isSupportFile, hkind, hoverlay]
      exact ⟨mem_filesOf.2 ⟨row, hrow, rfl⟩, rfl⟩
    refine ⟨bytes, hbytes, ?_⟩
    rw [copyIn, ← htarget row hrow, hcopied _ hmem,
      location_below _ (names_of_mem_rowsOf ht hrow), hframe.file _ (hown row hrow), hbytes]
  · have hmem : plan.call.directory.below row ∈ found.1.keys := by
      rw [hkeys, List.mem_filter]
      exact ⟨mem_filesOf.2 ⟨row, hrow, rfl⟩, hkind⟩
    obtain ⟨e, he, heq⟩ := List.mem_map.1 hmem
    refine ⟨e.2, ?_, ?_⟩
    · rw [← heq]
      exact find?_of_mem_of_listed (hkeys ▸ hlisted.filter _) he
    · rw [copyIn, ← htarget row hrow, ← heq, hwritten e he]

/-- A copy that is cleared because a patch found no resource is gone. -/
theorem gone_clearStale (ht : t.Sound) (hdirect : Direct root output)
    (hopen : IsRelative output → t.Opens root) {name : String} (hname : IsName name)
    (hwalk : walkableParts ((root.join output).join name) =
      .ok ((root.join output).join name).parts) {stale : Bool}
    (h : Does (clearStale (root.join output) name) t (.ok stale) t') (row : List String) :
    copyIn (root.join output) name t' row = none := by
  have hbelow : (root.join output).location ++ [name] <+:
      (root.join output).location ++ name :: row := ⟨row, by simp⟩
  rcases does_clearStale ht hname h with ⟨-, rfl, hgone⟩ | ⟨-, rfl, -⟩ | ⟨e, heq, -⟩
  · exact empty_of_not_there ht hdirect hopen hname hwalk hgone hbelow
  · rw [copyIn, fileAt?_eraseAt (by simp), if_pos hbelow]
  · cases heq

/-! ## All copies -/

/-- A plan whose copy has a place of its own: its path can be walked, and what a build takes for files
of the module does not lie in the place of a copy. -/
structure Unshared (base : Path) (plans : List Plan) (plan : Plan) : Prop where
  name : IsName plan.call.name
  walkable : walkableParts (base.join plan.call.name) = .ok (base.join plan.call.name).parts
  files : ∀ row, (∀ name ∈ row, IsName name) →
    (plan.call.directory.below row).startsWith base = false →
    ∀ other ∈ plans, ¬base.location ++ [other.call.name] <+: plan.call.directory.location ++ row

/-- Modules are told from copies by the texts of their paths. -/
theorem Seen.unshared {plans : List Plan} (h : Seen base plan.call.directory)
    (hname : IsName plan.call.name)
    (hwalk : walkableParts (base.join plan.call.name) = .ok (base.join plan.call.name).parts) :
    Unshared base plans plan := by
  refine ⟨hname, hwalk, fun row hrow hnot other _ hbelow => ?_⟩
  rw [h row hrow ((List.prefix_append _ _).trans hbelow)] at hnot
  cases hnot

/-- How far a build has come that has carried out some plans. -/
structure Finished (root : Path) (output : String) (t₀ : FileTree) (done : List Plan) (o : Outcome)
    (t : FileTree) : Prop where
  sound : t.Sound
  opens : IsRelative output → t.Opens root
  other : ∀ l, (∀ plan ∈ done, ¬(root.join output).location ++ [plan.call.name] <+: l) →
    t.fileAt? l = t₀.fileAt? l
  patched : ∀ name n, (name, n) ∈ o.patched → ∃ plan ∈ done, plan.call.name = name ∧
    Exact (root.join output) plan t₀ n (copyIn (root.join output) name t)
  failed : ∀ name e, (name, e) ∈ o.failed → (∃ plan ∈ done, plan.call.name = name) ∧
    ∀ row, copyIn (root.join output) name t row = none

/-- What changes in one copy changes in no other. -/
theorem copyIn_frame {name other : String} (hne : other ≠ name)
    (h : Frame (base.location ++ [name] <+: ·) t t') :
    copyIn base other t' = copyIn base other t := by
  funext row
  refine h.file _ fun hbelow => hne ?_
  rw [List.prefix_append_right_inj, List.cons_prefix_cons] at hbelow
  exact hbelow.1.symm

/-- **One plan more.** -/
theorem finished_carryOut {done plans : List Plan} {o o' : Outcome} (ht₀ : t₀.Sound)
    (hdirect : Direct root output) (hplan : Unshared (root.join output) plans plan)
    (hpatches : plan.patches ≠ []) (hdone : ∀ other ∈ done, other ∈ plans) (hmem : plan ∈ plans)
    (hnew : plan.call.name ∉ done.map (·.call.name)) (h : Finished root output t₀ done o t)
    (hdoes : Does (carryOut root (root.join output) o plan) t (.ok o') t') :
    Finished root output t₀ (done ++ [plan]) o' t' := by
  have hframe := (confined_carryOut h.sound hplan.name (fun l hl => hl) hdoes).toFrame
  have hopens := fun hrelative => opens_frame hdirect hrelative (h.opens hrelative) hframe
  have hother : ∀ l, (∀ other ∈ done ++ [plan],
      ¬(root.join output).location ++ [other.call.name] <+: l) → t'.fileAt? l = t₀.fileAt? l := by
    intro l hl
    rw [hframe.file l (hl plan (List.mem_append_right _ (List.mem_singleton_self _)))]
    exact h.other l fun other hmem => hl other (List.mem_append_left _ hmem)
  -- earlier copies have other names
  have hold : ∀ other ∈ done, copyIn (root.join output) other.call.name t' =
      copyIn (root.join output) other.call.name t := by
    intro other hother
    refine copyIn_frame (fun heq => hnew ?_) hframe
    rw [← heq]
    exact List.mem_map_of_mem hother
  have hpatched : ∀ name n, (name, n) ∈ o.patched → ∃ other ∈ done ++ [plan],
      other.call.name = name ∧
        Exact (root.join output) other t₀ n (copyIn (root.join output) name t') := by
    intro name n hentry
    obtain ⟨other, hother, rfl, hexact⟩ := h.patched name n hentry
    refine ⟨other, List.mem_append_left _ hother, rfl, ?_⟩
    rwa [hold other hother]
  have hfailed : ∀ name e, (name, e) ∈ o.failed →
      (∃ other ∈ done ++ [plan], other.call.name = name) ∧
        ∀ row, copyIn (root.join output) name t' row = none := by
    intro name e hentry
    obtain ⟨⟨other, hother, rfl⟩, hnone⟩ := h.failed name e hentry
    refine ⟨⟨other, List.mem_append_left _ hother, rfl⟩, ?_⟩
    rwa [hold other hother]
  rcases does_carryOut_ok hdoes with ⟨found, n, hread, hwrite, rfl⟩ |
    ⟨key, stale, -, hclear, rfl⟩
  · refine ⟨hframe.sound, hopens, hother, fun name n' hentry => ?_, hfailed⟩
    rcases List.mem_append.1 hentry with hentry | hentry
    · exact hpatched name n' hentry
    cases List.mem_singleton.1 hentry
    have hexact := exact_writeModule h.sound hdirect h.opens hplan.name hpatches (fun row hrow =>
      hplan.files row (names_of_mem_rowsOf h.sound hrow) ((mem_rowsOf h.sound).1 hrow).2.2 plan
        hmem) hread hwrite
    refine ⟨plan, List.mem_append_right _ (List.mem_singleton_self _), rfl,
      hexact.congr_tree h.sound ht₀ fun row hrow hnot => ?_⟩
    -- the plans before have not touched the files of the module
    exact h.other _ fun other hother => hplan.files row hrow hnot other (hdone other hother)
  · refine ⟨hframe.sound, hopens, hother, hpatched, fun name e hentry => ?_⟩
    rcases List.mem_append.1 hentry with hentry | hentry
    · exact hfailed name e hentry
    cases List.mem_singleton.1 hentry
    exact ⟨⟨plan, List.mem_append_right _ (List.mem_singleton_self _), rfl⟩,
      gone_clearStale h.sound hdirect h.opens hplan.name hplan.walkable hclear⟩

/-- **All plans.** -/
theorem finished_carryOuts {plans : List Plan} {o : Outcome} (ht₀ : t₀.Sound)
    (hdirect : Direct root output)
    (hplans : ∀ plan ∈ plans, Unshared (root.join output) plans plan)
    (hpatches : ∀ plan ∈ plans, plan.patches ≠ []) (hnames : (plans.map (·.call.name)).Nodup)
    (h : Finished root output t₀ [] ⟨[], [], []⟩ t)
    (hdoes : Does (plans.foldlM (carryOut root (root.join output)) ⟨[], [], []⟩) t (.ok o) t') :
    Finished root output t₀ plans o t' := by
  refine does_carryOuts (P := Finished root output t₀) (fun hinitial hdone hdo => ?_) h hdoes
  have hplan := hinitial.subset (List.mem_append_right _ (List.mem_singleton_self _))
  exact finished_carryOut ht₀ hdirect (hplans _ hplan) (hpatches _ hplan)
    (fun _ hother => hinitial.subset (List.mem_append_left _ hother)) hplan
    (name_not_mem_of_initial hnames hinitial) hdone hdo

/-- **The copies of a build are complete and exact**, if the output directory is found by its path,
no module lies in the place of a copy, and neither does the manifest unless it is to stay. -/
theorem run_completes_copies {here : Path} {args : Arguments} {s : Session} (hs : s.tree.Sound)
    (hdirect : Direct (rootOf here args) args.output.text)
    (hplans : ∀ plan ∈ plansOf here args s.tree,
      Unshared (outputOf here args) (plansOf here args s.tree) plan)
    (hmanifest : args.skipManifest = true ∨ ∀ plan ∈ plansOf here args s.tree,
      ¬(outputOf here args).location ++ [plan.call.name] <+:
        (manifestPath (rootOf here args)).location)
    {report : Report} (h : ((run here args).run s).1 = .ok report) :
    (∀ name n, (name, n) ∈ report.patched → ∃ plan ∈ plansOf here args s.tree,
      plan.call.name = name ∧ Exact (outputOf here args) plan s.tree n
        (copyIn (outputOf here args) name ((run here args).run s).2.tree)) ∧
    ∀ name e, (name, e) ∈ report.failed →
      ∀ row, copyIn (outputOf here args) name ((run here args).run s).2.tree row = none := by
  have hrun : Does (run here args) s.tree (.ok report) ((run here args).run s).2.tree :=
    ⟨s, rfl, h, rfl⟩
  rcases does_run hrun with ⟨-, hend⟩ | ⟨schedule, hread, hcarry⟩
  · obtain ⟨-, rfl⟩ := hend report rfl
    exact ⟨fun name n hentry => absurd hentry List.not_mem_nil,
      fun name e hentry => absurd hentry List.not_mem_nil⟩
  rw [plansOf_eq hread] at hplans hmanifest ⊢
  have hnamed := named_of_schedule hread
  obtain ⟨o, u, hfold, hpatched, hfailed, hlast⟩ :=
    does_carryAll_ok hs (fun plan hplan => (hplans plan hplan).name) hcarry
  have hstart : Finished (rootOf here args) args.output.text s.tree [] ⟨[], [], []⟩ s.tree :=
    ⟨hs, fun _ => opens_of_isDirectory hs (reads_schedule hread).1, fun l _ => rfl,
      fun name n hentry => absurd hentry List.not_mem_nil,
      fun name e hentry => absurd hentry List.not_mem_nil⟩
  have hall := finished_carryOuts hs hdirect hplans hnamed.patches_ne_nil hnamed.nodup_planList
    hstart hfold
  -- the manifest lies in no copy
  have hcopy : ∀ plan ∈ schedule.planList,
      copyIn (outputOf here args) plan.call.name ((run here args).run s).2.tree =
        copyIn (outputOf here args) plan.call.name u := by
    intro plan hplan
    funext row
    refine hlast _ (hmanifest.imp_right fun hnot heq => hnot plan hplan ?_)
    rw [← heq]
    exact ⟨row, by simp⟩
  rw [hpatched, hfailed]
  refine ⟨fun name n hentry => ?_, fun name e hentry => ?_⟩
  · obtain ⟨plan, hplan, rfl, hexact⟩ := hall.patched name n hentry
    refine ⟨plan, hplan, rfl, ?_⟩
    rwa [hcopy plan hplan]
  · obtain ⟨⟨plan, hplan, rfl⟩, hnone⟩ := hall.failed name e hentry
    rwa [hcopy plan hplan]

/-- Two modules over the copies of an earlier build: a file that is only copied comes along, and what
the patch of one module misses takes the copy of this module away. -/
theorem run_completes_copies_rebuilt :
    let file (text : String) : Node := .file text.toByteArray
    let t : FileTree := ⟨[(["r"], .directory),
      (["r", "main.tf"], file
        "module m \x7b\n  source = \"./m\"\n\x7d\nmodule n \x7b\n  source = \"./n\"\n\x7d\n"),
      (["r", "m"], .directory), (["r", "m", "main.tf"], file "resource k w \x7b\n  a = 1\n\x7d\n"),
      (["r", "m", "notes"], file "notes"),
      (["r", "n"], .directory), (["r", "n", "main.tf"], file "resource k v \x7b\n  a = 1\n\x7d\n"),
      (["r", "o.kf.hcl"], file ("patch k w \x7b\n  source = \"./m\"\n  b = 1\n\x7d\n" ++
        "patch k w \x7b\n  source = \"./n\"\n  b = 1\n\x7d\n")),
      (["r", "out"], .directory), (["r", "out", "m"], .directory),
      (["r", "out", "m", "old.tf"], file "old"), (["r", "out", "n"], .directory),
      (["r", "out", "n", "main.tf"], file "old")]⟩
    let args : Arguments := ⟨⟨"/r"⟩, ⟨"o.kf.hcl"⟩, ⟨"out"⟩, true⟩
    let final := ((run ⟨"/"⟩ args).run ⟨t, [], []⟩).2.tree
    (∃ plan ∈ plansOf ⟨"/"⟩ args t, plan.call.name = "m" ∧
      Exact (outputOf ⟨"/"⟩ args) plan t 2 (copyIn (outputOf ⟨"/"⟩ args) "m" final)) ∧
      ∀ row, copyIn (outputOf ⟨"/"⟩ args) "n" final row = none := by
  intro file t args final
  have hdirect : Direct (rootOf ⟨"/"⟩ args) args.output.text :=
    ⟨by decide +kernel, fun _ => by decide +kernel⟩
  -- the run, evaluated once for all that is needed of it
  obtain ⟨hplain, hran⟩ : (∀ plan ∈ plansOf ⟨"/"⟩ args t, plan.call.directory.IsPlain ∧
      IsName plan.call.name ∧ '\x00' ∉ ((outputOf ⟨"/"⟩ args).join plan.call.name).text.toList ∧
        ((outputOf ⟨"/"⟩ args).join plan.call.name).text.utf8ByteSize ≤ pathLimit) ∧
      ((run ⟨"/"⟩ args).run ⟨t, [], []⟩).1.toOption.map (fun r =>
        (r.patched, r.failed.map Prod.fst)) = some ([("m", 2)], ["n"]) := by
    decide +kernel
  have hplans : ∀ plan ∈ plansOf ⟨"/"⟩ args t,
      Unshared (outputOf ⟨"/"⟩ args) (plansOf ⟨"/"⟩ args t) plan := by
    intro plan hplan
    obtain ⟨hdir, hname, hwalk⟩ := hplain plan hplan
    exact (seen_of_plain (by decide +kernel) hdir).unshared hname (walkableParts_eq_ok.2 hwalk)
  obtain ⟨report, h, hreport⟩ := exists_ok hran
  obtain ⟨hpatched, hfailed⟩ := Prod.mk.inj hreport
  obtain ⟨hexact, hgone⟩ := @run_completes_copies ⟨"/"⟩ args ⟨t, [], []⟩ (by decide +kernel) hdirect
    hplans (.inl rfl) report h
  obtain ⟨e, he, hname⟩ := List.mem_map.1 (hfailed ▸ List.mem_singleton_self "n")
  refine ⟨hexact "m" 2 (by rw [hpatched]; exact List.mem_singleton_self _), ?_⟩
  exact hname ▸ hgone e.1 e.2 he

end HclOverlay.Build
