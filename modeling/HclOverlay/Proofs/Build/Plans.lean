import HclOverlay.Proofs.Build.Agreement

/-!
# Plans

A schedule has one plan for each module that a patch reaches, under the name of the module.

* `reads_schedule` — what a look for a schedule has seen.
* `Named`, `named_of_schedule` — every plan has a name of its own and at least one patch.
* `files_ne_nil` — a patch that finds its resource has found a file.
* `does_carryOut_ok` — how a plan goes that does not end the build; `does_carryOuts` — the induction
  along plans.
-/

namespace HclOverlay.Build

open Work FileTree

variable {t t' : FileTree} {plans : Table String Plan}

/-- Plans under the names of their modules, each with a patch. -/
structure Named (plans : Table String Plan) : Prop where
  nodup : plans.keys.Nodup
  name : ∀ e ∈ plans, e.2.call.name = e.1
  patches : ∀ e ∈ plans, e.2.patches ≠ []

namespace Named

/-- A patch is given to one more module. -/
theorem give (h : Named plans) (patch : Patch) (call : ModuleCall) :
    Named (Schedule.give patch plans call) := by
  refine ⟨Table.nodup_keys_insert h.nodup, fun e he => ?_, fun e he => ?_⟩
  · rcases Table.mem_insert he with rfl | he
    · cases hfound : plans.find? call.name with
      | none => rfl
      | some plan => exact h.name (call.name, plan) (Table.mem_of_find? hfound)
    · exact h.name e he
  · rcases Table.mem_insert he with rfl | he
    · simp
    · exact h.patches e he

theorem foldl_give (h : Named plans) (patch : Patch) (calls : List ModuleCall) :
    Named (calls.foldl (Schedule.give patch) plans) := by
  induction calls generalizing plans with
  | nil => exact h
  | cons call rest ih => exact ih (h.give patch call)

end Named

theorem named_add {registries : Registries} {calls : List ModuleCall} {s : Schedule} (patch : Patch)
    (h : Named s.plans) : Named (s.add registries calls patch).plans := by
  unfold Schedule.add
  split
  · exact h
  · split
    · exact h
    · exact h.foldl_give patch _

theorem named_ofPatches (registries : Registries) (calls : List ModuleCall) (patches : List Patch) :
    Named (Schedule.ofPatches registries calls patches).plans := by
  suffices h : ∀ s : Schedule, Named s.plans →
      Named (patches.foldl (Schedule.add registries calls) s).plans from
    h .empty ⟨List.nodup_nil, by simp [Schedule.empty], by simp [Schedule.empty]⟩
  induction patches with
  | nil => exact fun s hs => hs
  | cons patch rest ih => exact fun s hs => ih _ (named_add patch hs)

section Schedules

variable {here : Path} {args : Arguments}

theorem reads_announce {root output : Path} {calls : List ModuleCall}
    (h : reads (announce root output) t = .ok calls) : reads (moduleCalls root) t = .ok calls := by
  rw [announce] at h
  obtain ⟨u, -, h⟩ := reads_bind_eq_ok h
  obtain ⟨u, -, h⟩ := reads_bind_eq_ok h
  obtain ⟨found, hfound, h⟩ := reads_bind_eq_ok h
  obtain ⟨u, -, h⟩ := reads_bind_eq_ok h
  obtain ⟨u, -, h⟩ := reads_bind_eq_ok h
  cases h
  exact hfound

/-- What a look for a schedule has seen: the root, the calls of its configuration, and the overlays
with their patches, if there are any. -/
theorem reads_schedule {found : Option Schedule} (h : reads (schedule here args) t = .ok found) :
    t.isDirectory (rootOf here args) = true ∧
      ∃ calls files, reads (moduleCalls (rootOf here args)) t = .ok calls ∧
        reads (overlayFiles ((rootOf here args).join args.overlay.text)) t = .ok files ∧
        ((files = [] ∧ found = none) ∨ ∃ patches, reads (patchesIn files) t = .ok patches ∧
          found = some (Schedule.ofPatches Registries.default calls patches)) := by
  rw [schedule, reads_tree_bind] at h
  split at h
  · cases h
  next hdir =>
  obtain ⟨calls, hcalls, h⟩ := reads_bind_eq_ok h
  obtain ⟨files, hfiles, h⟩ := reads_bind_eq_ok h
  refine ⟨by simpa using hdir, calls, files, reads_announce hcalls, hfiles, ?_⟩
  split at h
  · next hempty =>
    obtain ⟨u, -, h⟩ := reads_bind_eq_ok h
    cases h
    exact .inl ⟨List.isEmpty_iff.1 hempty, rfl⟩
  · obtain ⟨patches, hpatches, h⟩ := reads_bind_eq_ok h
    obtain ⟨u, -, h⟩ := reads_bind_eq_ok h
    cases h
    rw [loadPatches] at hpatches
    obtain ⟨u, -, hpatches⟩ := reads_bind_eq_ok hpatches
    exact .inr ⟨patches, hpatches, rfl⟩

/-- **The plans of a build** have names of their own. -/
theorem named_of_schedule {s : Schedule} (h : reads (schedule here args) t = .ok (some s)) :
    Named s.plans := by
  obtain ⟨-, calls, files, -, -, ⟨-, heq⟩ | ⟨patches, -, heq⟩⟩ := reads_schedule h
  · cases heq
  · cases heq
    exact named_ofPatches _ _ _

end Schedules

theorem Named.nodup_planList {s : Schedule} (h : Named s.plans) :
    (s.planList.map (·.call.name)).Nodup := by
  have hnames : s.planList.map (·.call.name) = s.plans.keys := by
    rw [Schedule.planList, List.map_map, Table.keys]
    exact List.map_congr_left fun e he => h.name e he
  rw [hnames]
  exact h.nodup

/-- The plans of a build are for different modules. -/
theorem nodup_plansOf {here : Path} {args : Arguments} :
    ((plansOf here args t).map (·.call.name)).Nodup := by
  rw [plansOf]
  rcases h : reads (schedule here args) t with e | _ | s
  · exact List.nodup_nil
  · exact List.nodup_nil
  · exact (named_of_schedule h).nodup_planList

theorem Named.patches_ne_nil {s : Schedule} (h : Named s.plans) :
    ∀ plan ∈ s.planList, plan.patches ≠ [] := by
  intro plan hplan
  obtain ⟨e, he, rfl⟩ := List.mem_map.1 hplan
  exact h.patches e he

/-- A patch that finds its resource has found a file. -/
theorem files_ne_nil {outputBase : Path} {plan : Plan} {found : ModuleFiles × List Path}
    (h : reads (readModule outputBase plan) t = .ok found) (hpatches : plan.patches ≠ []) :
    found.1 ≠ [] := by
  obtain ⟨now, -, h⟩ := reads_bind_eq_ok h
  split at h
  · cases h
  obtain ⟨contents, -, h⟩ := reads_bind_eq_ok h
  obtain ⟨loaded, -, h⟩ := reads_bind_eq_ok h
  obtain ⟨patched, hpatched, h⟩ := reads_bind_eq_ok h
  cases h
  have hall := reads_patchFiles hpatched
  intro hnil
  have hkeys := Patching.keys_patchAll loaded plan.patches
  rw [hall] at hkeys
  have hloaded : loaded = [] := by
    change patched = [] at hnil
    rw [hnil] at hkeys
    exact List.map_eq_nil_iff.1 hkeys.symm
  cases hps : plan.patches with
  | nil => exact hpatches hps
  | cons p rest =>
    rw [hloaded, hps, Patching.patchAll] at hall
    cases hall

/-! ## How plans end -/

instance firm_createParent (p : Path) : Firm (createParent p) := by
  unfold createParent
  split <;> infer_instance

instance firm_clearOld (out : Path) : Firm (clearOld out) := by
  unfold clearOld
  infer_instance

instance firm_copyTarget (dir out p : Path) : Firm (copyTarget dir out p) := by
  unfold copyTarget
  split
  · infer_instance
  · exact .throw fun h => h

instance firm_writePatched (dir out : Path) (entry : Path × ModuleFile) :
    Firm (writePatched dir out entry) := by
  unfold writePatched
  infer_instance

instance firm_copySupport (dir out p : Path) : Firm (copySupport dir out p) := by
  unfold copySupport
  infer_instance

/-- Writing a copy either works or ends the build. -/
instance firm_writeModule (base : Path) (plan : Plan) (found : ModuleFiles × List Path) :
    Firm (writeModule base plan found) := by
  unfold writeModule writeCopy
  infer_instance

/-- How a plan goes that does not end the build. -/
theorem does_carryOut_ok {root base : Path} {plan : Plan} {o o' : Outcome}
    (h : Does (carryOut root base o plan) t (.ok o') t') :
    (∃ found n, reads (readModule base plan) t = .ok found ∧
        Does (writeModule base plan found) t (.ok n) t' ∧
        o' = { o with patched := o.patched ++ [(plan.call.name, n)] }) ∨
      ∃ key stale, reads (readModule base plan) t = .error (.resourceNotFound key) ∧
        Does (clearStale base plan.call.name) t (.ok stale) t' ∧
        o' = { o with
          failed := o.failed ++ [(plan.call.name, .resourceNotFound key)]
          restore := o.restore ++ if stale then
            [(plan.call.name, manifestDirectory root plan.call.directory)] else [] } := by
  rcases does_carryOut h with ⟨n, hpatch, heq⟩ | ⟨key, u, hpatch, hclear⟩ | ⟨e, -, heq⟩
  · rcases does_patchModule hpatch with ⟨e, -, heq, -⟩ | ⟨found, hread, hwrite⟩
    · cases heq
    · exact .inl ⟨found, n, hread, hwrite, Except.ok.inj heq⟩
  · rcases does_patchModule hpatch with ⟨e, hread, heq, rfl⟩ | ⟨found, -, hwrite⟩
    · cases heq
      rcases hclear with ⟨e, -, heq⟩ | ⟨stale, hclear, heq⟩
      · cases heq
      · exact .inr ⟨key, stale, hread, hclear, Except.ok.inj heq⟩
    · obtain ⟨n, hn⟩ := Firm.worked hwrite trivial
      cases hn
  · cases heq

/-- **Plans in order**: what one plan hands on to the next one holds after all of them. -/
theorem does_carryOuts {root base : Path} {P : List Plan → Outcome → FileTree → Prop}
    {plans : List Plan} {start o' : Outcome}
    (hstep : ∀ {done plan o o' u u'}, done ++ [plan] <+: plans → P done o u →
      Does (carryOut root base o plan) u (.ok o') u' → P (done ++ [plan]) o' u')
    (h : P [] start t) (hdo : Does (plans.foldlM (carryOut root base) start) t (.ok o') t') :
    P plans o' t' := by
  -- from the end, so that `hstep` is used for the last plan and sees all plans before it
  induction plans using List.reverseRecOn generalizing o' t' with
  | nil =>
    obtain ⟨heq, rfl⟩ := does_pure hdo
    cases heq
    exact h
  | append_singleton done plan ih =>
    rw [List.foldlM_append] at hdo
    obtain ⟨o₁, u, hdone, hlast⟩ := does_bind_ok hdo
    obtain ⟨o₂, v, hlast, hend⟩ := does_bind_ok hlast
    obtain ⟨heq, rfl⟩ := does_pure hend
    cases heq
    exact hstep List.prefix_rfl
      (ih (fun hinitial => hstep (hinitial.trans (List.prefix_append _ _))) hdone) hlast

/-- Each plan has another name than those before it. -/
theorem name_not_mem_of_initial {done plans : List Plan} {plan : Plan}
    (hnames : (plans.map (·.call.name)).Nodup) (h : done ++ [plan] <+: plans) :
    plan.call.name ∉ done.map (·.call.name) := by
  have hnodup := hnames.sublist (h.sublist.map _)
  rw [List.map_append, List.nodup_append] at hnodup
  exact fun hmem => hnodup.2.2 _ hmem _ (List.mem_singleton_self _) rfl

end HclOverlay.Build
