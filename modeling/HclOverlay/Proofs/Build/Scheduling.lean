import HclOverlay.Proofs.Build.Plans

/-!
# Which patches go where

A schedule is made in one pass over the patches. Every patch is delivered to the calls its source
filter selects, and the plan of a name collects what is delivered to the calls of that name; filters
that select nothing are counted under their text.

* `selected`, `deliveries`, `missed` — what patches select, from the patches alone.
* `Planned`, `planned_ofPatches` — what becomes of every patch, and in which order.
* `reached`, `follows_filters_iff` — a plan keeps to the filters of its patches if and only if they
  reach a single call of its name.
* `planning_is_exact` — **planning is exact**, with the plans and the report of a build.
-/

namespace HclOverlay

namespace Build

open Work FileTree HclOverlay.Path

section Schedules

variable (registries : Registries) (calls : List ModuleCall)

/-! ## Selecting -/

/-- Whether a patch selects a module call. -/
def selects (patch : Patch) (call : ModuleCall) : Bool :=
  patch.source.any (registries.same call.source)

/-- The calls a patch selects, in order. -/
def selected (patch : Patch) : List ModuleCall := calls.filter (selects registries patch)

variable {registries calls} in
theorem selected_of_none {patch : Patch} (h : patch.source = none) :
    selected registries calls patch = [] :=
  List.filter_eq_nil_iff.2 fun call _ => by simp [selects, h]

variable {registries calls} in
theorem selected_of_some {patch : Patch} {f : String} (h : patch.source = some f) :
    selected registries calls patch = registries.callsOf calls f :=
  List.filter_congr fun call _ => by simp [selects, h]

/-- Patches with the calls they are delivered to, in order. -/
def deliveries (patches : List Patch) : List (Patch × ModuleCall) :=
  patches.flatMap fun patch => (selected registries calls patch).map (patch, ·)

/-- The source filters that select no call, in order. -/
def missed (patches : List Patch) : List String :=
  (patches.filterMap (·.source)).filter fun f => (registries.callsOf calls f).isEmpty

/-! ## Making a schedule -/

/-- One patch makes its deliveries, and is counted where it makes none. -/
theorem add_eq (s : Schedule) (patch : Patch) :
    s.add registries calls patch =
      ⟨(deliveries registries calls [patch]).foldl (fun t d => Schedule.give d.1 t d.2) s.plans,
        (missed registries calls [patch]).foldl (fun t f => t.modify f 0 (· + 1)) s.unresolved,
        s.skipped + [patch].countP (·.source.isNone)⟩ := by
  have hdeliveries : (deliveries registries calls [patch]).foldl
      (fun t d => Schedule.give d.1 t d.2) s.plans =
      (selected registries calls patch).foldl (Schedule.give patch) s.plans := by
    rw [deliveries, List.flatMap_singleton, List.foldl_map]
  rw [hdeliveries, Schedule.add]
  cases hsource : patch.source with
  | none => simp [selected_of_none hsource, missed, hsource]
  | some f =>
    rw [selected_of_some hsource]
    cases hcalls : registries.callsOf calls f with
    | nil => simp [missed, hsource, hcalls]
    | cons call more => simp [missed, hsource, hcalls]

/-- **A schedule gathers** what its patches deliver and miss. -/
theorem ofPatches_eq (patches : List Patch) :
    Schedule.ofPatches registries calls patches =
      ⟨Table.gather (·.2.name) (fun d => ⟨d.2, []⟩)
          (fun d plan => { plan with patches := plan.patches ++ [d.1] })
          (deliveries registries calls patches),
        Table.gather id (fun _ => 0) (fun _ n => n + 1) (missed registries calls patches),
        patches.countP (·.source.isNone)⟩ := by
  suffices h : ∀ s : Schedule, patches.foldl (Schedule.add registries calls) s =
      ⟨(deliveries registries calls patches).foldl (fun t d => Schedule.give d.1 t d.2) s.plans,
        (missed registries calls patches).foldl (fun t f => t.modify f 0 (· + 1)) s.unresolved,
        s.skipped + patches.countP (·.source.isNone)⟩ by
    rw [Schedule.ofPatches, h, Schedule.empty, Nat.zero_add]
    rfl
  induction patches with
  | nil => exact fun s => rfl
  | cons patch rest ih =>
    intro s
    have hdeliveries : deliveries registries calls (patch :: rest) =
        deliveries registries calls [patch] ++ deliveries registries calls rest := by
      simp [deliveries]
    have hmissed : missed registries calls (patch :: rest) =
        missed registries calls [patch] ++ missed registries calls rest := by
      rw [missed, missed, missed, ← List.filter_append, ← List.filterMap_append]
      rfl
    rw [List.foldl_cons, ih, add_eq, hdeliveries, hmissed, List.foldl_append, List.foldl_append,
      Nat.add_assoc, ← List.countP_append]
    rfl

/-! ## What becomes of patches -/

/-- What becomes of patches, exactly: how many are skipped, which filters select nothing, and which
plans there are with which patches. -/
structure Planned (patches : List Patch) (skipped : Nat) (unresolved : List String)
    (plans : List Plan) : Prop where
  /-- patches without a filter are skipped -/
  skips : skipped = patches.countP (·.source.isNone)
  /-- filters that select nothing, in order of first appearance -/
  misses : unresolved = (missed registries calls patches).eraseDups
  /-- plans, in the order of the first patch that reaches them, then of the calls -/
  names : plans.map (·.call.name) =
    ((patches.flatMap (selected registries calls)).map (·.name)).eraseDups
  /-- the patches of a plan in order, each as often as it selects a call of that name -/
  gives : ∀ plan ∈ plans, plan.patches = patches.flatMap fun patch =>
    List.replicate ((selected registries calls patch).countP (·.name == plan.call.name)) patch
  /-- no patch is lost -/
  kept : ∀ patch ∈ patches, patch.source = none ∨
    (∃ f, patch.source = some f ∧ f ∈ unresolved) ∨ ∃ plan ∈ plans, patch ∈ plan.patches

/-- The deliveries of a name hold each patch as often as it selects a call of that name. -/
theorem deliveries_filter (patches : List Patch) (name : String) :
    ((deliveries registries calls patches).filter (·.2.name == name)).map Prod.fst =
      patches.flatMap fun patch =>
        List.replicate ((selected registries calls patch).countP (·.name == name)) patch := by
  rw [deliveries, List.filter_flatMap, List.map_flatMap]
  refine List.flatMap_congr fun patch _ => ?_
  rw [List.filter_map, List.map_map, List.countP_eq_length_filter]
  exact List.map_const'

/-- A plan is for the call of its name that is delivered to first. -/
theorem plan_ofPatches {patches : List Patch} {plan : Plan}
    (h : plan ∈ (Schedule.ofPatches registries calls patches).planList) :
    ∃ first, (deliveries registries calls patches).find? (·.2.name == plan.call.name) =
        some first ∧ plan.call = first.2 ∧
      plan.patches = ((deliveries registries calls patches).filter
        (·.2.name == plan.call.name)).map Prod.fst := by
  have hnamed := named_ofPatches registries calls patches
  obtain ⟨⟨name, plan⟩, he, rfl⟩ := List.mem_map.1 h
  obtain rfl : plan.call.name = name := hnamed.name _ he
  have hfind := Table.find?_of_mem hnamed.nodup he
  rw [ofPatches_eq, Table.find?_gather, Option.map_eq_some_iff] at hfind
  obtain ⟨first, hfirst, hplan⟩ := hfind
  -- a plan grows by its patches and keeps its call
  have hgrow : ∀ (ds : List (Patch × ModuleCall)) (plan : Plan),
      ds.foldl (fun (plan : Plan) d => { plan with patches := plan.patches ++ [d.1] }) plan =
        ⟨plan.call, plan.patches ++ ds.map Prod.fst⟩ := by
    intro ds
    induction ds with
    | nil => exact fun plan => by simp
    | cons d rest ih => exact fun plan => by simp [ih]
  rw [hgrow, List.nil_append] at hplan
  exact ⟨first, hfirst, (congrArg Plan.call hplan).symm, (congrArg Plan.patches hplan).symm⟩

/-- **Planning is exact**: every patch is skipped, counted or delivered as its filter says, and the
orders of the patches and of the calls are kept. -/
theorem planned_ofPatches (patches : List Patch) :
    Planned registries calls patches (Schedule.ofPatches registries calls patches).skipped
      (Schedule.ofPatches registries calls patches).unresolved.keys
      (Schedule.ofPatches registries calls patches).planList := by
  have hnames : (Schedule.ofPatches registries calls patches).planList.map (·.call.name) =
      ((patches.flatMap (selected registries calls)).map (·.name)).eraseDups := by
    have hkeys : (Schedule.ofPatches registries calls patches).planList.map (·.call.name) =
        (Schedule.ofPatches registries calls patches).plans.keys := by
      rw [Schedule.planList, List.map_map, Table.keys]
      exact List.map_congr_left fun e he =>
        (named_ofPatches registries calls patches).name e he
    rw [hkeys, ofPatches_eq, Table.keys_gather, deliveries, List.map_flatMap, List.map_flatMap]
    simp only [List.map_map, Function.comp_def]
  have hunresolved : (Schedule.ofPatches registries calls patches).unresolved.keys =
      (missed registries calls patches).eraseDups := by
    rw [ofPatches_eq, Table.keys_gather, List.map_id]
  refine ⟨by rw [ofPatches_eq], hunresolved, hnames, fun plan hplan => ?_, fun patch hpatch => ?_⟩
  · obtain ⟨first, -, -, heq⟩ := plan_ofPatches registries calls hplan
    rw [heq, deliveries_filter]
  · cases hsource : patch.source with
    | none => exact .inl rfl
    | some f =>
      right
      cases hcalls : registries.callsOf calls f with
      | nil =>
        refine .inl ⟨f, rfl, ?_⟩
        rw [hunresolved, List.mem_eraseDups, missed, List.mem_filter, hcalls]
        exact ⟨List.mem_filterMap.2 ⟨patch, hpatch, hsource⟩, rfl⟩
      | cons call more =>
        -- the plan of the first call it selects has the patch
        have hcall : call ∈ selected registries calls patch := by
          rw [selected_of_some hsource, hcalls]
          exact List.mem_cons_self
        have hname : call.name ∈
            (Schedule.ofPatches registries calls patches).planList.map (·.call.name) := by
          rw [hnames, List.mem_eraseDups]
          exact List.mem_map_of_mem (List.mem_flatMap.2 ⟨patch, hpatch, hcall⟩)
        obtain ⟨plan, hplan, hcalled⟩ := List.mem_map.1 hname
        obtain ⟨first, -, -, heq⟩ := plan_ofPatches registries calls hplan
        refine .inr ⟨plan, hplan, ?_⟩
        rw [heq, deliveries_filter, List.mem_flatMap]
        refine ⟨patch, hpatch, List.mem_replicate.2 ⟨?_, rfl⟩⟩
        refine (List.countP_pos_iff.2 ⟨call, hcall, ?_⟩).ne'
        rw [hcalled]
        exact beq_self_eq_true _

/-! ## Calls of one name -/

theorem same_iff {a b : String} :
    registries.same a b = true ↔ registries.normalize a = registries.normalize b := by
  rw [Registries.same, Bool.or_eq_true, beq_iff_eq, beq_iff_eq]
  exact or_iff_right_of_imp fun h => congrArg _ h

theorem selects_iff {patch : Patch} {call : ModuleCall} :
    selects registries patch call = true ↔ ∃ f, patch.source = some f ∧
      registries.normalize call.source = registries.normalize f := by
  rw [selects, Option.any_eq_true]
  simp only [same_iff]

/-- The calls of a name that patches select. -/
def reached (patches : List Patch) (name : String) : List ModuleCall :=
  calls.filter fun call => call.name == name && patches.any (selects registries · call)

variable {registries calls} {patches : List Patch}

theorem mem_reached {name : String} {call : ModuleCall} :
    call ∈ reached registries calls patches name ↔
      call.name = name ∧ ∃ patch ∈ patches, call ∈ selected registries calls patch := by
  simp only [reached, selected, List.mem_filter, Bool.and_eq_true, beq_iff_eq, List.any_eq_true]
  constructor
  · rintro ⟨hcall, hname, patch, hpatch, hselects⟩
    exact ⟨hname, patch, hpatch, hcall, hselects⟩
  · rintro ⟨hname, patch, hpatch, hcall, hselects⟩
    exact ⟨hcall, hname, patch, hpatch, hselects⟩

/-- A patch of a plan selects one of the calls that its name stands for. -/
theorem mem_plan_patches {plan : Plan}
    (h : plan ∈ (Schedule.ofPatches registries calls patches).planList) {patch : Patch} :
    patch ∈ plan.patches ↔ patch ∈ patches ∧
      ∃ call ∈ selected registries calls patch, call.name = plan.call.name := by
  rw [(planned_ofPatches registries calls patches).gives plan h, List.mem_flatMap]
  have hpositive : ∀ p : Patch, (selected registries calls p).countP
      (·.name == plan.call.name) ≠ 0 ↔
      ∃ call ∈ selected registries calls p, call.name = plan.call.name := by
    intro p
    rw [← Nat.pos_iff_ne_zero, List.countP_pos_iff]
    simp only [beq_iff_eq]
  constructor
  · rintro ⟨p, hp, hmem⟩
    obtain ⟨hcount, rfl⟩ := List.mem_replicate.1 hmem
    exact ⟨hp, (hpositive patch).1 hcount⟩
  · rintro ⟨hpatch, hcall⟩
    exact ⟨patch, hpatch, List.mem_replicate.2 ⟨(hpositive patch).2 hcall, rfl⟩⟩

/-- The call of a plan is reached. -/
theorem call_mem_reached {plan : Plan}
    (h : plan ∈ (Schedule.ofPatches registries calls patches).planList) :
    plan.call ∈ reached registries calls patches plan.call.name := by
  obtain ⟨first, hfirst, hcall, -⟩ := plan_ofPatches registries calls h
  have hmem := List.mem_of_find?_eq_some hfirst
  rw [deliveries, List.mem_flatMap] at hmem
  obtain ⟨patch, hpatch, hmem⟩ := hmem
  obtain ⟨call, hselected, rfl⟩ := List.mem_map.1 hmem
  exact mem_reached.2 ⟨rfl, patch, hpatch, hcall ▸ hselected⟩

section Repeated

variable {α : Type} {l : List α} {n : α → ℕ}

theorem sublist_repeated (h : ∀ a ∈ l, n a ≤ 1) :
    (l.flatMap fun a => List.replicate (n a) a).Sublist l := by
  induction l with
  | nil => exact .slnil
  | cons a rest ih =>
    rw [List.forall_mem_cons] at h
    rw [List.flatMap_cons]
    exact List.Sublist.append ((List.replicate_sublist_replicate a).2 h.1) (ih h.2)

theorem repeated_le_one (h : (l.flatMap fun a => List.replicate (n a) a).Sublist l) {a : α}
    (ha : a ∈ l) : n a ≤ 1 := by
  classical
  -- repeating multiplies the occurrences of `a` by `n a`, and a sublist has no more of them
  have hcount : ∀ l : List α,
      (l.flatMap fun a => List.replicate (n a) a).count a = l.count a * n a := by
    intro l
    induction l with
    | nil => simp
    | cons b rest ih =>
      rw [List.flatMap_cons, List.count_append, ih, List.count_replicate, List.count_cons]
      by_cases hb : b = a
      · subst hb
        simp [Nat.add_mul, Nat.add_comm]
      · simp [hb]
  have hle := h.count_le a
  rw [hcount] at hle
  exact Nat.le_of_mul_le_mul_left (by rwa [Nat.mul_one]) (List.count_pos_iff.2 ha)

end Repeated

/-- Each patch of a plan is one of the given patches, in its place, and selects the module that the
plan is for. -/
def FollowsFilters (registries : Registries) (patches : List Patch) (plan : Plan) : Prop :=
  plan.patches.Sublist patches ∧ ∀ patch ∈ plan.patches, selects registries patch plan.call = true

/-- A plan follows its filters if patches reach no other call of its name. -/
theorem followsFilters_of_reached {plan : Plan}
    (h : plan ∈ (Schedule.ofPatches registries calls patches).planList)
    (hreached : reached registries calls patches plan.call.name = [plan.call]) :
    FollowsFilters registries patches plan := by
  have honly : ∀ patch ∈ patches, ∀ call ∈ selected registries calls patch,
      call.name = plan.call.name → call = plan.call := by
    intro patch hpatch call hcall hname
    have hmem := mem_reached.2 ⟨hname, patch, hpatch, hcall⟩
    rw [hreached] at hmem
    exact List.mem_singleton.1 hmem
  constructor
  · rw [(planned_ofPatches registries calls patches).gives plan h]
    refine sublist_repeated fun patch hpatch => ?_
    -- what a patch selects of this name is among what is reached
    have hsub : ((selected registries calls patch).filter (·.name == plan.call.name)).Sublist
        (reached registries calls patches plan.call.name) := by
      rw [selected, List.filter_filter, reached]
      refine List.monotone_filter_right _ fun call hcall => ?_
      rw [Bool.and_eq_true] at hcall ⊢
      exact ⟨hcall.1, List.any_eq_true.2 ⟨patch, hpatch, hcall.2⟩⟩
    rw [List.countP_eq_length_filter]
    simpa [hreached] using hsub.length_le
  · intro patch hmem
    obtain ⟨hpatch, call, hcall, hname⟩ := (mem_plan_patches h).1 hmem
    rw [← honly patch hpatch call hcall hname]
    exact (List.mem_filter.1 hcall).2

/-- If a plan follows its filters, patches reach no other call of its name. -/
theorem reached_of_followsFilters {plan : Plan}
    (h : plan ∈ (Schedule.ofPatches registries calls patches).planList)
    (hfollows : FollowsFilters registries patches plan) :
    reached registries calls patches plan.call.name = [plan.call] := by
  have hself := call_mem_reached h
  obtain ⟨-, p, hp, hpself⟩ := mem_reached.1 hself
  -- all that is reached has one source, so the patch that reaches the call of the plan reaches all
  have hall : reached registries calls patches plan.call.name =
      (selected registries calls p).filter (·.name == plan.call.name) := by
    rw [reached, selected, List.filter_filter]
    refine List.filter_congr fun call hcall => ?_
    rw [Bool.eq_iff_iff, Bool.and_eq_true, Bool.and_eq_true, List.any_eq_true, beq_iff_eq]
    refine and_congr_right fun hname => ⟨?_, fun hselects => ⟨p, hp, hselects⟩⟩
    rintro ⟨q, hq, hselects⟩
    have hmem : q ∈ plan.patches :=
      (mem_plan_patches h).2 ⟨hq, call, List.mem_filter.2 ⟨hcall, hselects⟩, hname⟩
    obtain ⟨f, hf, hcallf⟩ := (selects_iff registries).1 hselects
    obtain ⟨f', hf', hplanf⟩ := (selects_iff registries).1 (hfollows.2 q hmem)
    obtain ⟨g, hg, hplang⟩ := (selects_iff registries).1 (List.mem_filter.1 hpself).2
    cases hf.symm.trans hf'
    exact (selects_iff registries).2 ⟨g, hg, hcallf.trans (hplanf.symm.trans hplang)⟩
  have honce : (reached registries calls patches plan.call.name).length ≤ 1 := by
    rw [hall, ← List.countP_eq_length_filter]
    have hsub := hfollows.1
    rw [(planned_ofPatches registries calls patches).gives plan h] at hsub
    exact repeated_le_one hsub hp
  obtain ⟨call, hcall⟩ := List.length_eq_one_iff.1
    (le_antisymm honce (List.length_pos_of_mem hself))
  rw [hcall] at hself ⊢
  rw [List.mem_singleton.1 hself]

/-- Calls with names of their own are reached alone. -/
theorem reached_of_nodup {plan : Plan}
    (h : plan ∈ (Schedule.ofPatches registries calls patches).planList)
    (hnodup : (calls.map (·.name)).Nodup) :
    reached registries calls patches plan.call.name = [plan.call] := by
  have hself := call_mem_reached h
  have hlength : (reached registries calls patches plan.call.name).length ≤ 1 := by
    have hcount := List.nodup_iff_count_le_one.1 hnodup plan.call.name
    rw [List.count_eq_countP, List.countP_map, List.countP_eq_length_filter] at hcount
    refine le_trans (List.Sublist.length_le ?_) hcount
    exact List.monotone_filter_right _ fun call hcall => (Bool.and_eq_true_iff.1 hcall).1
  obtain ⟨call, hcall⟩ := List.length_eq_one_iff.1
    (le_antisymm hlength (List.length_pos_of_mem hself))
  rw [hcall] at hself ⊢
  rw [List.mem_singleton.1 hself]

/-- **A plan keeps to the filters of its patches** if and only if these reach a single call of its
name: then each of its patches selects its module and occurs in it once. Calls with names of their
own are reached alone. Of several calls of one name that are reached, the first one to get a patch
gets the patches of all. -/
theorem follows_filters_iff (registries : Registries) (calls : List ModuleCall)
    (patches : List Patch) :
    ∀ plan ∈ (Schedule.ofPatches registries calls patches).planList,
      (FollowsFilters registries patches plan ↔
        reached registries calls patches plan.call.name = [plan.call]) ∧
      ((calls.map (·.name)).Nodup → FollowsFilters registries patches plan) := by
  intro plan hplan
  refine ⟨⟨reached_of_followsFilters hplan, followsFilters_of_reached hplan⟩, fun hnodup => ?_⟩
  exact followsFilters_of_reached hplan (reached_of_nodup hplan hnodup)

/-- The host of a registry makes no difference to what is selected. -/
theorem follows_filters_registry :
    let calls : List ModuleCall := [⟨"a", "x/y/z", ⟨"/a"⟩⟩, ⟨"b", "./b", ⟨"/b"⟩⟩]
    let patches : List Patch := [⟨"k", "w", some "registry.terraform.io/x/y/z", []⟩]
    let plan : Plan := ⟨⟨"a", "x/y/z", ⟨"/a"⟩⟩, patches⟩
    plan ∈ (Schedule.ofPatches Registries.default calls patches).planList ∧
      FollowsFilters Registries.default patches plan := by
  intro calls patches plan
  have hplan : (Schedule.ofPatches Registries.default calls patches).planList = [plan] := by
    rfl
  have hmem : plan ∈ (Schedule.ofPatches Registries.default calls patches).planList := by
    rw [hplan]
    exact List.mem_singleton_self plan
  refine ⟨hmem, (follows_filters_iff Registries.default calls patches plan hmem).1.2 ?_⟩
  rfl

end Schedules

/-! ## The schedule of a build -/

variable {t t' : FileTree} {here root outputBase : Path} {args : Arguments}

/-- The overlays at or below a path, in the order of paths. -/
structure OverlaysOf (t : FileTree) (base : Path) (files : List Path) : Prop where
  sorted : files.Pairwise fun p q => p.lt q = true
  mem : ∀ p, p ∈ files ↔ p.isOverlay = true ∧ ∃ row, (∀ name ∈ row, IsName name) ∧
    p = base.below row ∧ ∃ bytes, t.fileAt? (base.location ++ row) = some bytes

/-- The patches in files, one file after the other. -/
def PatchesOf (t : FileTree) (files : List Path) (patches : List Patch) : Prop :=
  ∃ parts, List.Forall₂ (fun p part => ∃ text, t.readText p = .ok text ∧
    (Overlay.read text p).run.1 = .ok part) files parts ∧ patches = parts.flatten

theorem overlaysOf_file (ht : t.Sound) {p : Path} (hfile : t.isFile p = true)
    (hoverlay : p.isOverlay = true) : OverlaysOf t p [p] := by
  obtain ⟨-, bytes, hbytes⟩ := (isFile_iff ht).1 hfile
  refine ⟨List.pairwise_singleton _ _, fun q => ?_⟩
  rw [List.mem_singleton]
  constructor
  · rintro rfl
    exact ⟨hoverlay, [], by simp, rfl, bytes, by rwa [List.append_nil]⟩
  · rintro ⟨-, row, hrow, rfl, bytes', hbytes'⟩
    -- nothing lies below a file
    cases row with
    | nil => rfl
    | cons name rest =>
      have hdir := ht.lookup?_append (fileAt?_eq_some.1 hbytes') (List.cons_ne_nil name rest)
      rw [fileAt?_of_directory hdir] at hbytes
      cases hbytes

theorem overlaysOf_directory (ht : t.Sound) {p : Path} {files : List Path}
    (hdir : t.isDirectory p = true) (hwalk : t.walk p = .ok files) :
    OverlaysOf t p (files.filter Path.isOverlay) := by
  have hlisted := (listed_walk ht hdir hwalk).filter Path.isOverlay
  refine ⟨?_, fun q => ?_⟩
  · refine (hlisted.sorted.and hlisted.nodup).imp_of_mem fun {a b} ha hb h => ?_
    obtain ⟨row, hrow, rfl⟩ := hlisted.below a ha
    obtain ⟨row', hrow', rfl⟩ := hlisted.below b hb
    refine (lt_iff _ _).2 (lt_of_le_of_ne h.1 fun heq => h.2 ?_)
    rw [below_injective hrow hrow' (components_eq_of_key heq)]
  · rw [List.mem_filter, mem_walk ht hdir hwalk, and_comm]

/-- A look for overlays finds those at or below the path. -/
theorem overlaysOf_reads (ht : t.Sound) {p : Path} {files : List Path}
    (h : reads (overlayFiles p) t = .ok files) : OverlaysOf t p files := by
  have hr : Recoverable (reads (overlayFiles p) t) := by
    rw [h]
    trivial
  rcases reads_overlayFiles ht hr with ⟨hfile, hoverlay, heq⟩ | ⟨found, hdir, hwalk, heq⟩
  · cases h.symm.trans heq
    exact overlaysOf_file ht hfile hoverlay
  · cases h.symm.trans heq
    exact overlaysOf_directory ht hdir hwalk

theorem patchesOf_reads {files : List Path} {patches : List Patch}
    (h : reads (patchesIn files) t = .ok patches) : PatchesOf t files patches := by
  induction files generalizing patches with
  | nil =>
    cases h
    exact ⟨[], .nil, rfl⟩
  | cons p rest ih =>
    obtain ⟨text, htext, h⟩ := reads_bind_eq_ok h
    obtain ⟨part, hpart, h⟩ := reads_bind_eq_ok h
    obtain ⟨u, -, h⟩ := reads_bind_eq_ok h
    obtain ⟨more, hmore, h⟩ := reads_bind_eq_ok h
    cases h
    obtain ⟨parts, hparts, rfl⟩ := ih hmore
    rw [reads_lift] at hpart
    exact ⟨part :: parts, .cons ⟨text, reads_look_eq_ok htext, hpart⟩ hparts, rfl⟩

/-- Every plan ends among those patched or among those failed. -/
theorem perm_carryOuts {plans : List Plan} {o : Outcome}
    (h : Does (plans.foldlM (carryOut root outputBase) ⟨[], [], []⟩) t (.ok o) t') :
    (o.patched.map Prod.fst ++ o.failed.map Prod.fst).Perm (plans.map (·.call.name)) := by
  refine does_carryOuts (P := fun done o _ => (o.patched.map Prod.fst ++
    o.failed.map Prod.fst).Perm (done.map (·.call.name))) (fun _ hperm hdo => ?_) .rfl h
  rw [List.map_append]
  refine .trans ?_ (hperm.append_right _)
  rcases does_carryOut_ok hdo with ⟨found, n, -, -, rfl⟩ | ⟨key, stale, -, -, rfl⟩
  · simp only [List.map_append, List.map_cons, List.map_nil, List.append_assoc]
    exact List.perm_append_comm.append_left _
  · simp only [List.map_append, List.map_cons, List.map_nil, List.append_assoc]
    exact .rfl

/-- **Planning is exact.** For whatever patches and calls, also of one name, every patch is skipped,
counted or delivered as its filter says, in order. A build that ends well has planned so with the
patches of all overlays in the order of paths, tells what it has skipped and not resolved, and has
patched or failed each of its plans. -/
theorem planning_is_exact :
    (∀ (registries : Registries) (calls : List ModuleCall) (patches : List Patch),
      Planned registries calls patches (Schedule.ofPatches registries calls patches).skipped
        (Schedule.ofPatches registries calls patches).unresolved.keys
        (Schedule.ofPatches registries calls patches).planList) ∧
    ∀ (here : Path) (args : Arguments) (s : Session) (report : Report), s.tree.Sound →
      ((run here args).run s).1 = .ok report →
      ∃ calls files patches, reads (moduleCalls (rootOf here args)) s.tree = .ok calls ∧
        OverlaysOf s.tree ((rootOf here args).join args.overlay.text) files ∧
        PatchesOf s.tree files patches ∧
        Planned Registries.default calls patches report.skipped report.unresolved
          (plansOf here args s.tree) ∧
        (report.patched.map Prod.fst ++ report.failed.map Prod.fst).Perm
          ((plansOf here args s.tree).map (·.call.name)) := by
  -- the first part is about schedules alone; the rest follows a build to where it makes its own
  refine ⟨planned_ofPatches, fun here args s report hs h => ?_⟩
  have hrun : Does (run here args) s.tree (.ok report) ((run here args).run s).2.tree :=
    ⟨s, rfl, h, rfl⟩
  rcases does_run hrun with ⟨-, hend⟩ | ⟨found, hread, hcarry⟩
  · -- without overlays there are no patches and no plans
    obtain ⟨hread, rfl⟩ := hend report rfl
    obtain ⟨-, calls, files, hcalls, hfiles, ⟨rfl, -⟩ | ⟨patches, -, heq⟩⟩ := reads_schedule hread
    · have hplans : plansOf here args s.tree = [] := congrArg plansIn hread
      refine ⟨calls, [], [], hcalls, overlaysOf_reads hs hfiles, ⟨[], .nil, rfl⟩, ?_, ?_⟩
      · rw [hplans]
        exact planned_ofPatches Registries.default calls []
      · rw [hplans]
        exact .rfl
    · cases heq
  obtain ⟨-, calls, files, hcalls, hfiles, ⟨-, heq⟩ | ⟨patches, hpatches, heq⟩⟩ :=
    reads_schedule hread
  · cases heq
  cases heq
  rw [plansOf_eq hread]
  rcases does_carryAll hcarry with ⟨e, -, heq⟩ | ⟨o, t₁, hfold, hfinish⟩
  · cases heq
  have hperm := perm_carryOuts hfold
  have hplanned := planned_ofPatches Registries.default calls patches
  refine ⟨calls, files, patches, hcalls, overlaysOf_reads hs hfiles, patchesOf_reads hpatches, ?_⟩
  rcases does_finish hfinish with ⟨-, -, heq⟩ | ⟨-, count, -, heq⟩
  · cases heq
    exact ⟨hplanned, hperm⟩
  · cases count with
    | error e => cases heq
    | ok n =>
      cases heq
      exact ⟨hplanned, hperm⟩

/-- Two calls of one module get the patch of an overlay in a directory, whose name comes before that
of the other overlay; there is also a filter that selects nothing, and a patch without a filter. -/
theorem planning_is_exact_nested :
    let file (text : String) : Node := .file text.toByteArray
    let t : FileTree := ⟨[(["r"], .directory), (["r", "main.tf"], file
        "module m \x7b\n  source = \"./m\"\n\x7d\nmodule n \x7b\n  source = \"./m\"\n\x7d\n"),
      (["r", "m"], .directory), (["r", "m", "main.tf"], file "resource k w \x7b\n\x7d\n"),
      (["r", "o"], .directory), (["r", "o", "b.kf.hcl"], file
        "patch k w \x7b\n  source = \"./x\"\n\x7d\npatch k w \x7b\n\x7d\n"),
      (["r", "o", "a"], .directory), (["r", "o", "a", "z.kf.hcl"], file
        "patch k w \x7b\n  source = \"./m\"\n  b = 1\n\x7d\n")]⟩
    let args : Arguments := ⟨⟨"/r"⟩, ⟨"o"⟩, ⟨"out"⟩, true⟩
    (plansOf ⟨"/"⟩ args t).map (·.call.name) = ["m", "n"] ∧
      ∃ calls files patches, OverlaysOf t ⟨"/r/o"⟩ files ∧ PatchesOf t files patches ∧
        Planned Registries.default calls patches 1 ["./x"] (plansOf ⟨"/"⟩ args t) := by
  intro file t args
  obtain ⟨hran, hnames⟩ :
      ((run ⟨"/"⟩ args).run ⟨t, [], []⟩).1.toOption.map (fun r => (r.skipped, r.unresolved)) =
        some (1, ["./x"]) ∧
      (plansOf ⟨"/"⟩ args t).map (·.call.name) = ["m", "n"] := by
    decide +kernel
  obtain ⟨report, hrun, hreport⟩ := exists_ok hran
  obtain ⟨calls, files, patches, -, hfiles, hpatches, hplanned, -⟩ :=
    planning_is_exact.2 ⟨"/"⟩ args ⟨t, [], []⟩ report (by decide +kernel) hrun
  rw [(Prod.mk.inj hreport).1, (Prod.mk.inj hreport).2] at hplanned
  have hbase : ((rootOf ⟨"/"⟩ args).join args.overlay.text).text = "/r/o" := by decide +kernel
  have hoverlay : (rootOf ⟨"/"⟩ args).join args.overlay.text = ⟨"/r/o"⟩ := congrArg Path.mk hbase
  rw [hoverlay] at hfiles
  exact ⟨hnames, calls, files, patches, hfiles, hpatches, hplanned⟩

end Build

end HclOverlay
