import HclOverlay.Proofs.Build.Contents
import HclOverlay.Proofs.Build.Redirects
import HclOverlay.Proofs.Build.Repetition
import HclOverlay.Proofs.Build.Scheduling
import HclOverlay.Proofs.FileTree.Creating

/-!
# Giving modules back

A module that one build patches and a later one cannot patch is loaded again from where it was
before both. The first build writes the path of the copy into the manifest; the second one finds the
copy by its path, removes it, works out anew where the module is loaded from, and recognises the
entry by the text that the first one wrote. The two halves meet at the copy that stands in between.

* `OverlaysEdited` — what may happen between the builds.
* `Stands` — a copy that a build can find: its path leads to it, and it holds a file that is no
  overlay.
* `stands_of_writeModule` — what is patched stands.
* `Traced`, `traced_carryOut`, `traced_carryOuts` — what some plans have done to the copies, after
  one more, and after all of them.
* `Ran`, `ran_of_does` — a whole build that succeeds.
* `failing_run_gives_back` — **a failing build undoes the redirection** of an earlier one.
-/

namespace HclOverlay

namespace Path

variable {name : String}

/-! ## Names of files -/

/-- Whether a file of this name is an overlay. -/
def isOverlayName (name : String) : Bool := endsWithText name overlaySuffix

theorem fileName?_join_name (base : Path) (h : IsName name) :
    (base.join name).fileName? = some name := by
  rw [fileName?, components_join_name base h, List.getLast?_concat]

theorem isOverlay_join_name (base : Path) (h : IsName name) :
    (base.join name).isOverlay = isOverlayName name := by
  rw [isOverlay, fileName?_join_name base h]
  rfl

/-- An overlay does not have the extension of module files. -/
theorem not_isOverlay_of_hasModuleExtension {p : Path} (h : p.hasModuleExtension = true) :
    p.isOverlay = false := by
  cases hn : p.fileName? with
  | none => rw [isOverlay, hn, Option.any_none]
  | some n =>
    rw [isOverlay, hn, Option.any_some, ← Bool.not_eq_true, endsWithText,
      List.isSuffixOf_iff_suffix]
    rintro ⟨front, hfront⟩
    have hreversed : n.toList.reverse = ['l', 'c', 'h', '.', 'f', 'k', '.'] ++ front.reverse := by
      rw [← hfront, List.reverse_append]
      rfl
    rw [hasModuleExtension, extension?, hn] at h
    simp [hreversed, moduleExtension] at h

end Path

namespace Build

open Work FileTree HclOverlay.Path

variable {t t' t₀ u : FileTree} {root base : Path} {name : String} {plan : Plan}
  {plans done : List Plan}

/-! ## Copies that stand -/

/-- Overlays have changed, and with them perhaps directories, but none of those that lead to the
output directory is gone. -/
structure OverlaysEdited (base : Path) (t t' : FileTree) : Prop where
  sound : t'.Sound
  files : ∀ l name, isOverlayName name = false → t'.fileAt? (l ++ [name]) = t.fileAt? (l ++ [name])
  way : ∀ l ∈ base.way, t.lookup? l = some .directory → t'.lookup? l = some .directory

/-- A copy that a build can find, and that does not go away with the overlays. -/
structure Stands (base : Path) (name : String) (t : FileTree) : Prop where
  opens : t.Opens base
  walkable : walkableParts (base.join name) = .ok (base.join name).parts
  file : ∃ row last, isOverlayName last = false ∧
    t.fileAt? (base.location ++ [name] ++ row ++ [last]) ≠ none

/-- What a copy stands on: the directories that lead to it, and its files. -/
theorem Stands.congr (h : Stands base name t)
    (hway : ∀ l ∈ base.way, t.lookup? l = some .directory → t'.lookup? l = some .directory)
    (hfiles : ∀ row last, isOverlayName last = false →
      t'.fileAt? (base.location ++ [name] ++ row ++ [last]) =
        t.fileAt? (base.location ++ [name] ++ row ++ [last])) : Stands base name t' := by
  obtain ⟨row, last, hlast, hfile⟩ := h.file
  exact ⟨fun l hl => hway l hl (h.opens l hl), h.walkable, row, last, hlast,
    by rwa [hfiles row last hlast]⟩

theorem Stands.lookup? (ht : t.Sound) (h : Stands base name t) :
    t.lookup? (base.location ++ [name]) = some .directory := by
  obtain ⟨row, last, -, hfile⟩ := h.file
  obtain ⟨bytes, hbytes⟩ := Option.ne_none_iff_exists'.1 hfile
  rw [List.append_assoc _ row] at hbytes
  exact ht.lookup?_append (fileAt?_eq_some.1 hbytes) (by simp)

/-- Other changes leave a copy that stands where it is. -/
theorem Stands.frame {zone : Location → Prop} (h : Stands base name t) (hframe : Frame zone t t')
    (hway : ∀ l ∈ base.way, ¬zone l) (hcopy : ∀ l, base.location ++ [name] <+: l → ¬zone l) :
    Stands base name t' :=
  h.congr (fun l hl => hframe.directory l (hway l hl)) fun row last _ =>
    hframe.file _ (hcopy _ (by simp [List.append_assoc]))

theorem Stands.edited (h : Stands base name t) (hedit : OverlaysEdited base t t') :
    Stands base name t' :=
  h.congr hedit.way fun _ _ hlast => hedit.files _ _ hlast

/-- A plan whose copy is a directory of its own, beside the ways to the output directory and to the
manifest. -/
structure Beside (root base : Path) (plan : Plan) : Prop where
  name : IsName plan.call.name
  way : ∀ l ∈ base.way, ¬base.location ++ [plan.call.name] <+: l
  manifest : ¬base.location ++ [plan.call.name] <+: (manifestPath root).location

/-- To write a file, everything above it must be a directory. -/
theorem opens_of_writePatched {dir out : Path} (ht : t.Sound) {entry : Path × ModuleFile}
    (hbelow : IsBelow dir entry.1) (h : Does (writePatched dir out entry) t (.ok ()) t') :
    t'.Opens out := by
  rw [writePatched, (targetOf_spec out hbelow).1, pure_bind] at h
  obtain ⟨row, hne, hnames, heq⟩ := hbelow
  obtain ⟨front, last, rfl⟩ := (List.eq_nil_or_concat' row).resolve_left hne
  rw [heq, targetOf_below out hne hnames, below_concat] at h
  rw [List.forall_mem_append, List.forall_mem_singleton] at hnames
  obtain ⟨⟨⟩, v, hparent, hwrite⟩ := does_bind_ok h
  have hv := (does_createParent ht hparent fun _ => False).1.sound
  obtain ⟨hr, rfl⟩ := does_onFile hwrite
  rcases writeFile_cases hv ((out.below front).join last) entry.2.text.toByteArray with
    ⟨e, hfail⟩ | ⟨hdone, hresolve, hreached, hnew⟩
  · rw [hfail] at hr
    cases hr
  · have hopen := (opens_of_resolve hv hnames.2 hresolve).of_below hnames.1
    intro l hl
    rw [hdone, lookup?_put (hreached.ne_nil hnew), if_neg, hopen l hl]
    rintro rfl
    exact hnew (hopen _ hl)

/-- **What is patched stands.** -/
theorem stands_of_writeModule (ht : t.Sound) (hplan : Beside root base plan)
    (hpatches : plan.patches ≠ []) {found : ModuleFiles × List Path} {n : Nat}
    (hread : reads (readModule base plan) t = .ok found)
    (h : Does (writeModule base plan found) t (.ok n) t') : Stands base plan.call.name t' := by
  obtain ⟨u, hclear, hwrite, -⟩ := does_writeModule_ok h
  have hu := (confined_clearOld ht hplan.name (fun _ hl => hl) hclear).sound
  have hfound := allBelow_readModule ht hread
  have hne := files_ne_nil hread hpatches
  obtain ⟨e, he, v, hfirst, hframe, hfile⟩ := hasFile_of_writeCopy hu hfound hne hwrite
  have hopen := opens_of_writePatched hu (hfound.1 e he) hfirst
  have hlocation := location_join_name base hplan.name
  rw [hlocation] at hframe
  -- the way to the output directory is part of the way to the copy
  have hbase : v.Opens base := fun l hl =>
    hopen l (way_subset ⟨_, (steps_join base hplan.name.isRelative).symm⟩ hl)
  refine ⟨hbase.frame hframe hplan.way, walkable_of_writeCopy hu hfound hne hwrite, ?_⟩
  obtain ⟨row, hrow, hnames, heq⟩ := hfound.1 e he
  obtain ⟨front, last, rfl⟩ := (List.eq_nil_or_concat' row).resolve_left hrow
  have hkind : e.1.isModuleFile = true := by
    obtain ⟨-, -, hkeys, -⟩ := readModule_eq_ok ht hread
    have hmem : e.1 ∈ found.1.keys := List.mem_map_of_mem he
    rw [hkeys] at hmem
    exact (List.mem_filter.1 hmem).2
  rw [isModuleFile, Bool.and_eq_true, Bool.not_eq_true', heq, below_concat,
    isOverlay_join_name _ (hnames last (by simp))] at hkind
  have hthere := hfile.file
  rw [heq, location_targetOf _ hrow hnames, hlocation, ← List.append_assoc] at hthere
  exact ⟨front, last, hkind.2, hthere⟩

/-- A copy is never in the place of a file. -/
theorem fileAt?_copy_carryOut (ht : t.Sound) (hplan : Beside root base plan)
    (hpatches : plan.patches ≠ []) {o o' : Outcome}
    (h : Does (carryOut root base o plan) t (.ok o') t') :
    t'.fileAt? (base.location ++ [plan.call.name]) =
      t.fileAt? (base.location ++ [plan.call.name]) := by
  rcases does_carryOut_ok h with ⟨found, n, hread, hwrite, -⟩ | ⟨key, stale, -, hclear, -⟩
  · obtain ⟨u, hcleared, hcopied, -⟩ := does_writeModule_ok hwrite
    have ht' := (confined_writeModule ht hplan.name (allBelow_readModule ht hread) (fun _ hl => hl)
      hwrite).sound
    have hstands := stands_of_writeModule ht hplan hpatches hread hwrite
    have hnew := fileAt?_of_directory (hstands.lookup? ht')
    rw [hnew]
    rcases does_clearOld ht base hplan.name hcleared with ⟨rfl, -⟩ | ⟨-, -, hold⟩
    · -- a file that is not cleared would still be there
      by_contra hfile
      have hstart : HasFile (base.location ++ [plan.call.name]) u := ⟨ht, Ne.symm hfile⟩
      obtain ⟨⟨⟩, v, hfiles, hcopies⟩ := does_bind_ok hcopied
      have hfound := allBelow_readModule ht hread
      exact ((hstart.writePatched hfound.1 hfiles).copySupport hfound.2 hcopies).file hnew
    · rw [fileAt?_of_directory hold]
  · rcases does_clearStale ht hplan.name hclear with ⟨-, rfl, -⟩ | ⟨-, rfl, hold⟩ | ⟨e, heq, -⟩
    · rfl
    · rw [fileAt?_eraseAt (by simp), if_pos List.prefix_rfl, fileAt?_of_directory hold]
    · cases heq

/-! ## Plans -/

/-- What some plans have done: files have changed below their copies only; what was patched stands;
what was not patched is gone if it stood before, and is to be given back. -/
structure Traced (base : Path) (t₀ : FileTree) (done : List Plan) (o : Outcome) (t : FileTree) :
    Prop where
  frame : Frame (fun l => ∃ plan ∈ done, base.location ++ [plan.call.name] <+: l) t₀ t
  other : ∀ l, (∀ plan ∈ done, base.location ++ [plan.call.name] <+: l →
    l = base.location ++ [plan.call.name]) → t.fileAt? l = t₀.fileAt? l
  named : ∀ name, name ∈ o.patched.map Prod.fst ∨ name ∈ o.failed.map Prod.fst →
    name ∈ done.map (·.call.name)
  patched : ∀ name ∈ o.patched.map Prod.fst, Stands base name t
  failed : ∀ name ∈ o.failed.map Prod.fst, Stands base name t₀ →
    name ∈ o.restore.map Prod.fst ∧ ∀ l, base.location ++ [name] <+: l → t.fileAt? l = none
  restored : ∀ name ∈ o.restore.map Prod.fst, name ∈ o.failed.map Prod.fst

theorem traced_nothing (ht : t.Sound) : Traced base t [] ⟨[], [], []⟩ t where
  frame := .refl _ ht
  other _ _ := rfl
  named _ h := h.elim nofun nofun
  patched _ h := nomatch h
  failed _ h := nomatch h
  restored _ h := nomatch h

/-- What changes in one copy is not in another one. -/
theorem not_prefix_of_ne {other : String} (hne : other ≠ name) {l : Location}
    (hl : base.location ++ [other] <+: l) : ¬base.location ++ [name] <+: l := fun h =>
  hne (eq_of_prefix_copy (List.prefix_of_prefix_length_le hl h (by simp)))

/-- Carrying out a plan leaves to other plans what they have done. -/
theorem Traced.carryOut {o o' : Outcome} (h : Traced base t₀ done o u) (hplan : Beside root base plan)
    (hpatches : plan.patches ≠ []) (hnew : plan.call.name ∉ done.map (·.call.name))
    (hdo : Does (carryOut root base o plan) u (.ok o') t') : Traced base t₀ (done ++ [plan]) o t' := by
  have hs := h.frame.sound
  have hframe := (confined_carryOut hs hplan.name (fun _ hl => hl) hdo).toFrame
  -- the copies of earlier plans have other names
  have hold : ∀ {name}, name ∈ o.patched.map Prod.fst ∨ name ∈ o.failed.map Prod.fst →
      name ≠ plan.call.name := by
    rintro name hname rfl
    exact hnew (h.named _ hname)
  refine ⟨(h.frame.mono fun l hl => ?_).trans (hframe.mono fun l hl => ?_), fun l hl => ?_,
    fun name hname => ?_, fun name hname => ?_, fun name hname hstands => ?_, h.restored⟩
  · obtain ⟨other, hother, hl⟩ := hl
    exact ⟨other, List.mem_append_left _ hother, hl⟩
  · exact ⟨plan, List.mem_append_right _ (List.mem_singleton_self _), hl⟩
  · rw [List.forall_mem_append, List.forall_mem_singleton] at hl
    rw [← h.other l hl.1]
    by_cases hcopy : base.location ++ [plan.call.name] <+: l
    · rw [hl.2 hcopy, fileAt?_copy_carryOut hs hplan hpatches hdo]
    · exact hframe.file l hcopy
  · rw [List.map_append, List.mem_append]
    exact .inl (h.named name hname)
  · exact (h.patched name hname).frame hframe hplan.way fun l hl =>
      not_prefix_of_ne (hold (.inl hname)) hl
  · obtain ⟨hrestore, hgone⟩ := h.failed name hname hstands
    refine ⟨hrestore, fun l hl => ?_⟩
    rw [hframe.file l (not_prefix_of_ne (hold (.inr hname)) hl), hgone l hl]

/-- A copy that stands is counted as patched. -/
theorem Traced.addPatched {o : Outcome} (h : Traced base t₀ done o t)
    (hname : name ∈ done.map (·.call.name)) (hstands : Stands base name t) (n : Nat) :
    Traced base t₀ done { o with patched := o.patched ++ [(name, n)] } t := by
  have hadded : ∀ other ∈ (o.patched ++ [(name, n)]).map Prod.fst,
      other ∈ o.patched.map Prod.fst ∨ other = name := by
    intro other hother
    rwa [List.map_append, List.mem_append, List.map_singleton, List.mem_singleton] at hother
  refine { h with named := fun other hother => ?_, patched := fun other hother => ?_ }
  · rcases hother with hother | hother
    · rcases hadded other hother with hold | rfl
      · exact h.named other (.inl hold)
      · exact hname
    · exact h.named other (.inr hother)
  · rcases hadded other hother with hold | rfl
    · exact h.patched other hold
    · exact hstands

/-- A module that was not patched is given back its directory if its copy was cleared, as a copy that
stood before must be. -/
theorem Traced.addFailed {o : Outcome} (h : Traced base t₀ done o t)
    (hname : name ∈ done.map (·.call.name)) {failure : Failure} {stale : Bool} {directory : String}
    (hcleared : Stands base name t₀ →
      stale = true ∧ ∀ l, base.location ++ [name] <+: l → t.fileAt? l = none) :
    Traced base t₀ done
      { o with
        failed := o.failed ++ [(name, failure)]
        restore := o.restore ++ if stale then [(name, directory)] else [] } t := by
  have hadded : ∀ other ∈ (o.failed ++ [(name, failure)]).map Prod.fst,
      other ∈ o.failed.map Prod.fst ∨ other = name := by
    intro other hother
    rwa [List.map_append, List.mem_append, List.map_singleton, List.mem_singleton] at hother
  refine { h with
    named := fun other hother => ?_, failed := fun other hother hstands => ?_,
    restored := fun other hother => ?_ }
  · rcases hother with hother | hother
    · exact h.named other (.inl hother)
    · rcases hadded other hother with hold | rfl
      · exact h.named other (.inr hold)
      · exact hname
  · rw [List.map_append, List.mem_append]
    rcases hadded other hother with hold | rfl
    · obtain ⟨hrestore, hgone⟩ := h.failed other hold hstands
      exact ⟨.inl hrestore, hgone⟩
    · obtain ⟨rfl, hgone⟩ := hcleared hstands
      exact ⟨.inr (List.mem_singleton_self _), hgone⟩
  · rw [List.map_append, List.mem_append] at hother ⊢
    rcases hother with hother | hother
    · exact .inl (h.restored other hother)
    · cases stale with
      | false => cases hother
      | true => exact .inr hother

/-- A copy that stands is there, so it is cleared. -/
theorem Stands.cleared (h : Stands base name t) (ht : t.Sound) (hname : IsName name) {stale : Bool}
    (hclear : Does (clearStale base name) t (.ok stale) t') :
    stale = true ∧ ∀ l, base.location ++ [name] <+: l → t'.fileAt? l = none := by
  rcases does_clearStale ht hname hclear with ⟨-, -, hgone⟩ | ⟨heq, rfl, -⟩ | ⟨e, heq, -⟩
  · rw [h.opens.there ht hname h.walkable (h.lookup? ht)] at hgone
    cases hgone
  · refine ⟨Except.ok.inj heq, fun l hl => ?_⟩
    rw [fileAt?_eraseAt (by simp), if_pos hl]
  · cases heq

/-- **One plan more.** -/
theorem traced_carryOut {o o' : Outcome} (hplan : Beside root base plan)
    (hpatches : plan.patches ≠ []) (hnew : plan.call.name ∉ done.map (·.call.name))
    (hdone : ∀ other ∈ done, Beside root base other)
    (h : Traced base t₀ done o u) (hdo : Does (carryOut root base o plan) u (.ok o') t') :
    Traced base t₀ (done ++ [plan]) o' t' := by
  have hs := h.frame.sound
  have hkept := h.carryOut hplan hpatches hnew hdo
  have hplanned : plan.call.name ∈ (done ++ [plan]).map (·.call.name) := by simp
  rcases does_carryOut_ok hdo with ⟨found, n, hread, hwrite, rfl⟩ | ⟨key, stale, -, hclear, rfl⟩
  · exact hkept.addPatched hplanned (stands_of_writeModule hs hplan hpatches hread hwrite) n
  · refine hkept.addFailed hplanned fun hstands => ?_
    -- earlier plans have left the copy as it was
    have hnow : Stands base plan.call.name u := hstands.frame h.frame
      (fun l hl ⟨other, hmem, hcopy⟩ => (hdone other hmem).way l hl hcopy)
      (fun l hl ⟨other, hmem, hcopy⟩ => not_prefix_of_ne
        (fun heq => hnew (List.mem_map.2 ⟨other, hmem, heq⟩)) hcopy hl)
    exact hnow.cleared hs hplan.name hclear

/-- **All plans.** -/
theorem traced_carryOuts {o : Outcome} (ht : t.Sound)
    (hplans : ∀ plan ∈ plans, Beside root base plan) (hpatches : ∀ plan ∈ plans, plan.patches ≠ [])
    (hnames : (plans.map (·.call.name)).Nodup)
    (hdo : Does (plans.foldlM (carryOut root base) ⟨[], [], []⟩) t (.ok o) u) :
    Traced base t plans o u := by
  refine does_carryOuts (P := Traced base t) (fun hinitial hdone hdo => ?_) (traced_nothing ht) hdo
  have hplan := hinitial.subset (List.mem_append_right _ (List.mem_singleton_self _))
  exact traced_carryOut (hplans _ hplan) (hpatches _ hplan)
    (name_not_mem_of_initial hnames hinitial)
    (fun _ hother => hplans _ (hinitial.subset (List.mem_append_left _ hother))) hdone hdo

/-! ## Whole builds -/

section Builds

variable {here : Path} {args : Arguments}

theorem location_manifestPath (root : Path) :
    (manifestPath root).location =
      root.location ++ [".terraform", "modules"] ++ [manifestName] := by
  have hcache : IsRelative ModuleCall.cacheDirectory := by decide
  have hsteps : (Path.mk ModuleCall.cacheDirectory).steps =
      [.name ".terraform", .name "modules"] := by
    decide +kernel
  rw [manifestPath, location_join_name _ (by decide), location_join root hcache, hsteps]
  simp [Component.walk]

/-- The plans of a build are for modules that the root configuration calls. -/
theorem call_of_mem_plansOf (h : plan ∈ plansOf here args t) :
    t.isDirectory (rootOf here args) = true ∧
      ∃ calls, reads (moduleCalls (rootOf here args)) t = .ok calls ∧ plan.call ∈ calls := by
  rw [plansOf] at h
  rcases hread : reads (schedule here args) t with e | found <;> rw [hread] at h
  · cases h
  obtain ⟨hdir, calls, files, hcalls, -, ⟨-, rfl⟩ | ⟨patches, -, rfl⟩⟩ := reads_schedule hread
  · cases h
  · exact ⟨hdir, calls, hcalls, List.mem_of_mem_filter (call_mem_reached h)⟩

/-- What a build that succeeds has done: its plans lead from one tree to another one, and then it
redirects the places of the manifest as they have ended. -/
structure Ran (here : Path) (args : Arguments) (t : FileTree) (report : Report) (o : Outcome)
    (u t' : FileTree) : Prop where
  traced : Traced (outputOf here args) t (plansOf here args t) o u
  tended : Tended (rootOf here args) (outputOf here args) (plansOf here args t) t o u
  apart : (o.patched.map Prod.fst ++ o.failed.map Prod.fst).Nodup
  patched : report.patched = o.patched
  failed : report.failed = o.failed
  frame : Frame (· = (manifestPath (rootOf here args)).location) u t'
  manifest : (o.changed = [] ∧ t' = u) ∨ ∃ m m', ManifestOf (rootOf here args) u m ∧
    Holds (rootOf here args) t' m' ∧ m'.places = ((o.redirection args.output).manifest m).places

/-- **A build that succeeds.** -/
theorem ran_of_does (ht : t.Sound) (hupdates : args.skipManifest = false)
    (hplans : ∀ plan ∈ plansOf here args t, Beside (rootOf here args) (outputOf here args) plan)
    {report : Report} (h : Does (run here args) t (.ok report) t') :
    ∃ o u, Ran here args t report o u t' := by
  rcases does_run h with ⟨rfl, hend⟩ | ⟨s, hs, hcarry⟩
  · -- without overlays there are no plans
    obtain ⟨hread, rfl⟩ := hend report rfl
    have hnone : plansOf here args t' = [] := by rw [plansOf, hread]; rfl
    refine ⟨⟨[], [], []⟩, t', ?_, tended_nothing ht, List.nodup_nil, rfl, rfl, .refl _ ht,
      .inl ⟨rfl, rfl⟩⟩
    rw [hnone]
    exact traced_nothing ht
  rcases does_carryAll hcarry with ⟨e, -, heq⟩ | ⟨o, u, hfold, hend⟩
  · cases heq
  have hnamed := named_of_schedule hs
  rw [plansOf_eq hs] at hplans
  have htraced : Traced (outputOf here args) t s.planList o u :=
    traced_carryOuts ht hplans hnamed.patches_ne_nil hnamed.nodup_planList hfold
  have htended : Tended (rootOf here args) (outputOf here args) s.planList t o u :=
    tended_carryOuts ht (fun plan hplan => (hplans plan hplan).name) hnamed.patches_ne_nil
      hnamed.nodup_planList hfold
  obtain ⟨hpatched, hfailed, hframe, hmanifest⟩ :=
    does_finish_ok htraced.frame.sound hupdates hend
  refine ⟨o, u, by rwa [plansOf_eq hs], by rwa [plansOf_eq hs], ?_, hpatched, hfailed, hframe,
    hmanifest⟩
  exact (perm_carryOuts hfold).nodup_iff.2 hnamed.nodup_planList

namespace Ran

variable {report : Report} {o : Outcome}
  (hplans : ∀ plan ∈ plansOf here args t, Beside (rootOf here args) (outputOf here args) plan)
  (h : Ran here args t report o u t')

include hplans h

/-- The plan of a module that was patched or failed. -/
theorem beside (hname : name ∈ o.patched.map Prod.fst ∨ name ∈ o.failed.map Prod.fst) :
    ∃ plan, plan.call.name = name ∧ Beside (rootOf here args) (outputOf here args) plan := by
  obtain ⟨plan, hplan, hplanned⟩ := List.mem_map.1 (h.traced.named name hname)
  exact ⟨plan, hplanned, hplans plan hplan⟩

/-- Only the end of a build changes the manifest. -/
theorem manifest_before : u.fileAt? (manifestPath (rootOf here args)).location =
    t.fileAt? (manifestPath (rootOf here args)).location :=
  h.traced.frame.file _ fun ⟨plan, hplan, hl⟩ => (hplans plan hplan).manifest hl

/-- Files directly in the root stay as they are. -/
theorem root_files (name : String) : t'.fileAt? ((rootOf here args).location ++ [name]) =
    t.fileAt? ((rootOf here args).location ++ [name]) := by
  have hmanifest := location_manifestPath (rootOf here args)
  rw [h.frame.file _ (by rw [hmanifest]; simp)]
  refine h.traced.other _ fun plan hplan hl => ?_
  -- a copy at or above the root would lie above the manifest
  rcases List.prefix_concat_iff.1 hl with heq | hroot
  · exact heq.symm
  · have hnot := (hplans plan hplan).manifest
    rw [hmanifest, List.append_assoc] at hnot
    exact absurd (hroot.trans (List.prefix_append _ _)) hnot

/-- **What was patched stands** at the end. -/
theorem stands (hname : name ∈ o.patched.map Prod.fst) :
    Stands (outputOf here args) name t' := by
  obtain ⟨plan, rfl, hplan⟩ := h.beside hplans (.inl hname)
  have hstands := h.traced.patched _ hname
  rcases h.manifest with ⟨-, rfl⟩ | ⟨m, -, ⟨bytes, -, hbytes, -⟩, -, -⟩
  · exact hstands
  · refine hstands.congr (fun l _ hl => h.frame.directory l (fun heq => ?_) hl) fun row last _ =>
      h.frame.file _ fun heq => hplan.manifest ?_
    · -- there is a file in the place of the manifest
      rw [← heq, fileAt?_of_directory hl] at hbytes
      cases hbytes
    · rw [← heq, List.append_assoc _ row]
      exact List.prefix_append _ _

/-- **What failed is gone** if it stood before, and is to be given back. -/
theorem gone (hname : name ∈ o.failed.map Prod.fst) (hstands : Stands (outputOf here args) name t) :
    name ∈ o.restore.map Prod.fst ∧
      ∀ l, (outputOf here args).location ++ [name] <+: l → t'.fileAt? l = none := by
  obtain ⟨plan, rfl, hplan⟩ := h.beside hplans (.inr hname)
  obtain ⟨hrestore, hgone⟩ := h.traced.failed _ hname hstands
  refine ⟨hrestore, fun l hl => ?_⟩
  have hne : l ≠ (manifestPath (rootOf here args)).location := by
    intro heq
    rw [heq] at hl
    exact hplan.manifest hl
  rw [h.frame.file l hne, hgone l hl]

/-- The manifest follows the outcome if anything has changed. -/
theorem redirected (hchanged : o.changed ≠ []) :
    ∃ m m', ManifestOf (rootOf here args) t m ∧ Holds (rootOf here args) t' m' ∧
      m'.places = ((o.redirection args.output).manifest m).places := by
  rcases h.manifest with ⟨hnone, -⟩ | ⟨m, m', hm, hheld, hplaces⟩
  · exact absurd hnone hchanged
  · exact ⟨m, m', hm.congr (h.manifest_before hplans).symm, hheld, hplaces⟩

end Ran

end Builds

/-! ## There and back -/

section Moves

variable {r : Manifest.Redirection} {key dir : String}

/-- What a redirection makes of one place. -/
def move (r : Manifest.Redirection) (place : String × String) : String × String :=
  (place.1, (r.target? ⟨place.1, "", place.2, []⟩).getD place.2)

theorem places_move (r : Manifest.Redirection) (m : Manifest) :
    (r.manifest m).places = m.places.map (move r) := by
  rw [places_manifest, Manifest.places, List.map_map]
  rfl

theorem move_of_patched (hkey : key ≠ "") (hpatched : key ∈ r.patched) :
    move r (key, dir) = (key, r.copyOf key) := by
  simp [move, Manifest.Redirection.target?, hkey, hpatched]

theorem move_of_restored (hkey : key ≠ "") (hpatched : key ∉ r.patched)
    (hrestored : r.restore.find? key = some dir) : move r (key, r.copyOf key) = (key, dir) := by
  simp [move, Manifest.Redirection.target?, hkey, hpatched, hrestored]

theorem move_of_other (hpatched : key ∉ r.patched) (hrestored : key ∉ r.restore.keys) :
    move r (key, dir) = (key, dir) := by
  rcases target?_cases r ⟨key, "", dir, []⟩ with ⟨hmem, -⟩ | ⟨found, hfound, -⟩ | ⟨hnone, -⟩
  · exact absurd hmem hpatched
  · exact absurd (List.mem_map_of_mem (Table.mem_of_find? hfound)) hrestored
  · rw [move, hnone]
    rfl

end Moves

/-- The modules a report tells of. -/
def Report.names (r : Report) : List String := r.patched.map Prod.fst ++ r.failed.map Prod.fst

/-- Places one for one with their keys; where the keys are of some kind, with their directories. -/
def Returned (kept : String → Prop) (places places' : List (String × String)) : Prop :=
  List.Forall₂ (fun place place' => place'.1 = place.1 ∧ (kept place.1 → place'.2 = place.2))
    places places'

section Both

variable {here : Path} {args : Arguments} {t₁ t₁' t₂ t₂' u₁ u₂ : FileTree} {o₁ o₂ : Outcome}
  {report₁ report₂ : Report} {calls : List ModuleCall}

/-- What a later build finds in the root configuration. -/
theorem calls_of_edited (ht₁ : t₁.Sound)
    (hplans₁ : ∀ plan ∈ plansOf here args t₁, Beside (rootOf here args) (outputOf here args) plan)
    (hran : Ran here args t₁ report₁ o₁ u₁ t₁')
    (hedit : OverlaysEdited (outputOf here args) t₁' t₂)
    (hcalls : reads (moduleCalls (rootOf here args)) t₁ = .ok calls)
    (hdir₁ : t₁.isDirectory (rootOf here args) = true)
    (hplan : plan ∈ plansOf here args t₂) : plan.call ∈ calls := by
  obtain ⟨hdir₂, calls₂, hcalls₂, hmem⟩ := call_of_mem_plansOf hplan
  -- calls are read from the module files of the root, and these are not overlays
  have hsame := agree_moduleCalls ht₁ hedit.sound hdir₁ hdir₂ fun name hname hkeep => by
    have hoverlay := not_isOverlay_of_hasModuleExtension hkeep
    rw [isOverlay_join_name _ hname] at hoverlay
    rw [hedit.files _ _ hoverlay, hran.root_files hplans₁]
  rw [hcalls, hcalls₂] at hsame
  rwa [Except.ok.inj (hsame trivial trivial)]

end Both

/-- **A failing build gives modules back.** Let every entry of a module have the directory of the
module, as the manifest writes it. If one build patches the module, then only overlays are edited,
and then the same build fails to patch it, its entries have their directory again and no file is left
in the place of its copy; and every entry of a module that neither build tells of is as it was. -/
theorem failing_run_gives_back {here : Path} {args : Arguments} {s₁ s₂ : Session}
    (hs : s₁.tree.Sound) (hupdates : args.skipManifest = false)
    (hplans₁ : ∀ plan ∈ plansOf here args s₁.tree,
      Beside (rootOf here args) (outputOf here args) plan)
    (hplans₂ : ∀ plan ∈ plansOf here args s₂.tree,
      Beside (rootOf here args) (outputOf here args) plan)
    {m : Manifest} (hm : ManifestOf (rootOf here args) s₁.tree m) {calls : List ModuleCall}
    (hcalls : reads (moduleCalls (rootOf here args)) s₁.tree = .ok calls) {name : String}
    (hdirs : ∀ call ∈ calls, call.name = name → ∀ dir, (name, dir) ∈ m.places →
      dir = manifestDirectory (rootOf here args) call.directory)
    {report₁ report₂ : Report} (h₁ : ((run here args).run s₁).1 = .ok report₁)
    (hpatched : name ∈ report₁.patched.map Prod.fst)
    (hedit : OverlaysEdited (outputOf here args) ((run here args).run s₁).2.tree s₂.tree)
    (h₂ : ((run here args).run s₂).1 = .ok report₂)
    (hfailed : name ∈ report₂.failed.map Prod.fst) :
    (∃ m', Holds (rootOf here args) ((run here args).run s₂).2.tree m' ∧
      Returned (fun key => key = name ∨ key ∉ report₁.names ++ report₂.names) m.places m'.places) ∧
    ∀ l, (outputOf here args).location ++ [name] <+: l →
      ((run here args).run s₂).2.tree.fileAt? l = none := by
  obtain ⟨o₁, u₁, hran₁⟩ := ran_of_does hs hupdates hplans₁ ⟨s₁, rfl, h₁, rfl⟩
  obtain ⟨o₂, u₂, hran₂⟩ := ran_of_does hedit.sound hupdates hplans₂ ⟨s₂, rfl, h₂, rfl⟩
  rw [Report.names, Report.names, hran₁.patched, hran₁.failed, hran₂.patched, hran₂.failed]
  rw [hran₁.patched] at hpatched
  rw [hran₂.failed] at hfailed
  -- the copy stands between the builds, so the second one finds it
  have hstands := (hran₁.stands hplans₁ hpatched).edited hedit
  obtain ⟨hrestore, hgone⟩ := hran₂.gone hplans₂ hfailed hstands
  refine ⟨?_, hgone⟩
  obtain ⟨m₁, m₁', hm₁, hheld, hplaces₁⟩ :=
    hran₁.redirected hplans₁ (List.ne_nil_of_mem (List.mem_append_left _ hpatched))
  obtain ⟨m₂, m₂', hm₂, hheld', hplaces₂⟩ :=
    hran₂.redirected hplans₂ (List.ne_nil_of_mem (List.mem_append_right _ hrestore))
  obtain rfl := hm₁.unique hm
  have hmanifest : s₂.tree.fileAt? (manifestPath (rootOf here args)).location =
      ((run here args).run s₁).2.tree.fileAt? (manifestPath (rootOf here args)).location := by
    rw [location_manifestPath, hedit.files _ _ (by decide)]
  refine ⟨m₂', hheld', ?_⟩
  rw [hplaces₂, places_move, hheld.places (hm₂.congr hmanifest.symm), hplaces₁, places_move,
    Returned, List.forall₂_map_right_iff, List.forall₂_map_right_iff, List.forall₂_same]
  rintro ⟨key, dir⟩ hmem
  refine ⟨rfl, fun hkept => ?_⟩
  dsimp only at hkept ⊢
  rcases hkept with rfl | hother
  · -- the second build finds what the first one wrote, and gives back the directory of the module
    obtain ⟨plan, rfl, hplan⟩ := hran₁.beside hplans₁ (.inl hpatched)
    have hne := hplan.name.ne_empty
    have hnot : plan.call.name ∉ o₂.patched.map Prod.fst := fun hmem =>
      List.disjoint_of_nodup_append hran₂.apart hmem hfailed
    have hwritten : move (o₁.redirection args.output) (plan.call.name, dir) =
        (plan.call.name, (o₂.redirection args.output).copyOf plan.call.name) :=
      move_of_patched hne hpatched
    cases hfind : Table.find? o₂.restore plan.call.name with
    | none => exact absurd hrestore (Table.not_mem_keys_of_find? hfind)
    | some found =>
      rw [hwritten, move_of_restored hne hnot hfind]
      obtain ⟨other, hother, hname, hfound⟩ := hran₂.tended.restore _ (Table.mem_of_find? hfind)
      dsimp only at hname hfound
      rw [← hfound]
      refine (hdirs other.call ?_ hname dir hmem).symm
      obtain ⟨first, hfirst, -⟩ := List.mem_map.1 (hran₁.traced.named _ (.inl hpatched))
      exact calls_of_edited hs hplans₁ hran₁ hedit hcalls (call_of_mem_plansOf hfirst).1 hother
  · simp only [List.mem_append, not_or] at hother
    obtain ⟨⟨hpatched₁, hfailed₁⟩, hpatched₂, hfailed₂⟩ := hother
    rw [move_of_other (r := o₁.redirection args.output) hpatched₁
      fun hmem => hfailed₁ (hran₁.traced.restored key hmem),
      move_of_other (r := o₂.redirection args.output) hpatched₂
      fun hmem => hfailed₂ (hran₂.traced.restored key hmem)]

/-- The overlay is edited so that its patch finds no resource: the module is given back, and the
entry of another module has stayed as it was. -/
theorem failing_run_gives_back_local :
    let file (text : String) : Node := .file text.toByteArray
    let t : FileTree := ⟨[(["r"], .directory),
      (["r", "main.tf"], file "module m \x7b\n  source = \"./m\"\n\x7d\n"),
      (["r", "m"], .directory), (["r", "m", "main.tf"], file "resource k w \x7b\n\x7d\n"),
      (["r", ".terraform"], .directory), (["r", ".terraform", "modules"], .directory),
      (["r", ".terraform", "modules", "modules.json"], file ("\x7b\"Modules\": [" ++
        "\x7b\"Key\": \"m\", \"Dir\": \"m\"\x7d, \x7b\"Key\": \"n\", \"Dir\": \"n\"\x7d]\x7d")),
      (["r", "o.kf.hcl"], file "patch k w \x7b\n  source = \"./m\"\n  b = 1\n\x7d\n")]⟩
    let args : Arguments := ⟨⟨"/r"⟩, ⟨"o.kf.hcl"⟩, ⟨"out"⟩, false⟩
    let between := ((run ⟨"/"⟩ args).run ⟨t, [], []⟩).2.tree
    let edited := between.put ["r", "o.kf.hcl"]
      (file "patch k v \x7b\n  source = \"./m\"\n  b = 1\n\x7d\n")
    let final := ((run ⟨"/"⟩ args).run ⟨edited, [], []⟩).2.tree
    (∃ m, ManifestOf ⟨"/r"⟩ between m ∧ m.places = [("m", "out/m"), ("n", "n")]) ∧
      (∃ m, Holds ⟨"/r"⟩ final m ∧ m.places = [("m", "m"), ("n", "n")]) ∧
      ∀ l, ["r", "out", "m"] <+: l → final.fileAt? l = none := by
  intro file t args between edited final
  have hs : t.Sound := by decide +kernel
  have hplanned : (plansOf ⟨"/"⟩ args t).map (·.call.name) = ["m"] := by decide +kernel
  -- both builds, run once for all that is needed of them
  obtain ⟨hran₁, hbetween, hwritten, hedited, hplanned', hran₂⟩ :
      (((run ⟨"/"⟩ args).run ⟨t, [], []⟩).1.toOption.map fun r =>
          (r.patched.map Prod.fst, r.failed.map Prod.fst)) = some (["m"], []) ∧
        between.Sound ∧
        ((between.readText (manifestPath ⟨"/r"⟩)).toOption.map fun text =>
          (Manifest.read? text).map Manifest.places) = some (some [("m", "out/m"), ("n", "n")]) ∧
        edited.Sound ∧ (plansOf ⟨"/"⟩ args edited).map (·.call.name) = ["m"] ∧
        (((run ⟨"/"⟩ args).run ⟨edited, [], []⟩).1.toOption.map fun r =>
          (r.patched.map Prod.fst, r.failed.map Prod.fst)) = some ([], ["m"]) := by
    decide +kernel
  obtain ⟨report₁, h₁, hreport₁⟩ := exists_ok hran₁
  obtain ⟨report₂, h₂, hreport₂⟩ := exists_ok hran₂
  obtain ⟨hpatched₁, hfailed₁⟩ := Prod.mk.inj hreport₁
  obtain ⟨hpatched₂, hfailed₂⟩ := Prod.mk.inj hreport₂
  obtain ⟨text', htext', hplaces'⟩ := exists_ok hwritten
  obtain ⟨m', hm', hplaces'⟩ := Option.map_eq_some_iff.1 hplaces'
  obtain ⟨text, htext, hplaces⟩ : ∃ text, t.readText (manifestPath (rootOf ⟨"/"⟩ args)) = .ok text ∧
      (Manifest.read? text).map Manifest.places = some [("m", "m"), ("n", "n")] :=
    exists_ok (by decide +kernel)
  obtain ⟨m, hm, hplaces⟩ := Option.map_eq_some_iff.1 hplaces
  obtain ⟨calls, hcalls, hcalled⟩ : ∃ calls, reads (moduleCalls (rootOf ⟨"/"⟩ args)) t = .ok calls ∧
      calls.map (fun call => manifestDirectory (rootOf ⟨"/"⟩ args) call.directory) = ["m"] :=
    exists_ok (by decide +kernel)
  have hroot : (rootOf ⟨"/"⟩ args).text = "/r" := by decide +kernel
  have hrooted : rootOf ⟨"/"⟩ args = ⟨"/r"⟩ := congrArg Path.mk hroot
  have hbase : (outputOf ⟨"/"⟩ args).location = ["r", "out"] := by decide +kernel
  have hway : (outputOf ⟨"/"⟩ args).way = [[], ["r"], ["r", "out"]] := by decide +kernel
  have hmanifest : (manifestPath (rootOf ⟨"/"⟩ args)).location =
      ["r", ".terraform", "modules", "modules.json"] := by decide +kernel
  have hbeside : ∀ {t : FileTree}, (plansOf ⟨"/"⟩ args t).map (·.call.name) = ["m"] →
      ∀ plan ∈ plansOf ⟨"/"⟩ args t, Beside (rootOf ⟨"/"⟩ args) (outputOf ⟨"/"⟩ args) plan := by
    intro t hnames plan hplan
    have hname := List.mem_map_of_mem (f := fun plan : Plan => plan.call.name) hplan
    rw [hnames, List.mem_singleton] at hname
    refine ⟨?_, ?_, ?_⟩ <;> rw [hname]
    · decide
    · rw [hbase, hway]
      decide
    · rw [hbase, hmanifest]
      decide
  have hedit : OverlaysEdited (outputOf ⟨"/"⟩ args) between edited := by
    refine ⟨hedited, fun l name hname => ?_, fun l hl hdir => ?_⟩
    · rw [fileAt?_put_file (by simp), if_neg]
      intro heq
      have hlast := congrArg List.getLast? heq
      rw [List.getLast?_concat] at hlast
      rw [Option.some.inj hlast] at hname
      revert hname
      decide
    · rw [lookup?_put (by simp), if_neg, hdir]
      rintro rfl
      rw [hway] at hl
      revert hl
      decide
  have hdirs : ∀ call ∈ calls, call.name = "m" → ∀ dir, ("m", dir) ∈ m.places →
      dir = manifestDirectory (rootOf ⟨"/"⟩ args) call.directory := by
    intro call hcall _ dir hdir
    have hmem := List.mem_map_of_mem
      (f := fun call : ModuleCall => manifestDirectory (rootOf ⟨"/"⟩ args) call.directory) hcall
    rw [hcalled, List.mem_singleton] at hmem
    rw [hplaces] at hdir
    rw [hmem]
    simpa using hdir
  obtain ⟨⟨back, hheld, hreturned⟩, hgone⟩ := @failing_run_gives_back ⟨"/"⟩ args ⟨t, [], []⟩
    ⟨edited, [], []⟩ hs rfl (hbeside hplanned) (hbeside hplanned') m (.of_readText hs htext hm) calls
    hcalls "m" hdirs report₁ report₂ h₁ (by rw [hpatched₁]; simp) hedit h₂ (by rw [hfailed₂]; simp)
  rw [hrooted] at hheld
  rw [hbase] at hgone
  refine ⟨⟨m', .of_readText hbetween htext' hm', hplaces'⟩, ⟨back, hheld, ?_⟩, hgone⟩
  rw [hplaces, Report.names, Report.names, hpatched₁, hfailed₁, hpatched₂, hfailed₂] at hreturned
  obtain ⟨first, rest, ⟨hkey, hdir⟩, hrest, heq⟩ := List.forall₂_cons_left_iff.1 hreturned
  obtain ⟨second, none, ⟨hkey', hdir'⟩, hnone, rfl⟩ := List.forall₂_cons_left_iff.1 hrest
  obtain rfl := List.forall₂_nil_left_iff.1 hnone
  rw [heq, ← Prod.eta first, ← Prod.eta second, hkey, hkey', hdir (.inl rfl),
    hdir' (.inr (by decide))]

end Build

end HclOverlay
