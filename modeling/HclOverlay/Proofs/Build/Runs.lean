import HclOverlay.Build.Run
import HclOverlay.Proofs.Build.Copy

/-!
# What a build changes

A build first looks at the root configuration and the overlays to see which modules get which
patches. Then it carries out the plans one after the other, and at the end it updates the manifest.

* `schedule`, `carryAll`, `run_eq` — the two phases of a build; `plansOf` — the plans of a build.
* `does_carryOut`, `does_updateManifest`, `does_run` — what the steps of a build can do.
* `confined_run` — **a build changes only the directories of its copies and the manifest**, whether it
  succeeds or fails.
-/

namespace HclOverlay.Build

open Work FileTree HclOverlay.Path

variable {t t' : FileTree} {root outputBase : Path} {zone : Location → Prop}

/-! ## The phases -/

/-- The root of a build. -/
def rootOf (here : Path) (args : Arguments) : Path := Path.absoluteFrom here args.root

/-- Which modules get which patches; nothing if there are no overlays. -/
def schedule (here : Path) (args : Arguments) : Work (Option Schedule) := do
  let root := rootOf here args
  if !(← tree).isDirectory root then throw (.rootMissing root)
  else
    let calls ← announce root args.output
    let files ← overlayFiles (root.join args.overlay.text)
    if files.isEmpty then
      say ("No overlay files found in " ++ args.overlay.text)
      return none
    else
      let patches ← loadPatches files
      let schedule := Schedule.ofPatches Registries.default calls patches
      warnAll (schedule.notices patches)
      return some schedule

/-- The plans of a schedule, in order. -/
def Schedule.planList (s : Schedule) : List Plan := s.plans.map Prod.snd

/-- Carries out plans and updates the manifest. -/
def carryAll (root : Path) (args : Arguments) (schedule : Schedule) : Work Report := do
  let o ← schedule.planList.foldlM (carryOut root (root.join args.output.text)) ⟨[], [], []⟩
  let redirected ←
    if args.skipManifest || (o.patched.isEmpty && o.restore.isEmpty) then pure 0
    else updateManifest root ⟨args.output, o.patched.map Prod.fst, o.restore⟩
  return ⟨o.patched, o.failed, schedule.unresolved.keys, schedule.skipped, redirected⟩

/-- What is left to do after the plans: the manifest follows them unless it is to stay. -/
def finish (root : Path) (args : Arguments) (schedule : Schedule) (o : Outcome) : Work Report := do
  let redirected ←
    if args.skipManifest || (o.patched.isEmpty && o.restore.isEmpty) then pure 0
    else updateManifest root ⟨args.output, o.patched.map Prod.fst, o.restore⟩
  return ⟨o.patched, o.failed, schedule.unresolved.keys, schedule.skipped, redirected⟩

theorem carryAll_eq (root : Path) (args : Arguments) (schedule : Schedule) :
    carryAll root args schedule =
      schedule.planList.foldlM (carryOut root (root.join args.output.text)) ⟨[], [], []⟩ >>=
        finish root args schedule := rfl

theorem run_eq (here : Path) (args : Arguments) :
    run here args = schedule here args >>= fun s =>
      match s with
      | none => pure .empty
      | some s => carryAll (rootOf here args) args s := by
  unfold run schedule
  rw [bind_assoc]
  refine bind_congr fun t => ?_
  change (if !t.isDirectory (rootOf here args) then _ else _) = _
  split
  · rfl
  · simp only [bind_assoc]
    refine bind_congr fun calls => bind_congr fun files => ?_
    split
    · simp only [bind_assoc, pure_bind]
    · simp only [bind_assoc, pure_bind, applyOverlays]
      rfl

/-! ## Looking for plans -/

instance looks_rootFiles (root : Path) : Looks (rootFiles root) := by
  unfold rootFiles
  infer_instance

instance looks_callsIn (root : Path) (files : List Path) : Looks (callsIn root files) := by
  induction files with
  | nil => exact Looks.pure []
  | cons p rest ih =>
    unfold callsIn
    infer_instance

instance looks_moduleCalls (root : Path) : Looks (moduleCalls root) := by
  unfold moduleCalls
  infer_instance

instance looks_announce (root output : Path) : Looks (announce root output) := by
  unfold announce
  infer_instance

instance looks_overlayFiles (p : Path) : Looks (overlayFiles p) := by
  unfold overlayFiles
  infer_instance

instance looks_patchesIn (files : List Path) : Looks (patchesIn files) := by
  induction files with
  | nil => exact Looks.pure []
  | cons p rest ih =>
    unfold patchesIn
    infer_instance

instance looks_loadPatches (files : List Path) : Looks (loadPatches files) := by
  unfold loadPatches
  infer_instance

instance looks_schedule (here : Path) (args : Arguments) : Looks (schedule here args) := by
  unfold schedule
  infer_instance

/-- The plans that a look for them has found. -/
def plansIn : Except Failure (Option Schedule) → List Plan
  | .ok (some s) => s.planList
  | _ => []

/-- The plans of a build that starts with a tree. -/
def plansOf (here : Path) (args : Arguments) (t : FileTree) : List Plan :=
  plansIn (reads (schedule here args) t)

theorem plansOf_eq {here : Path} {args : Arguments} {s : Schedule}
    (h : reads (schedule here args) t = .ok (some s)) : plansOf here args t = s.planList :=
  congrArg plansIn h

/-- Where a build puts its copies. -/
def outputOf (here : Path) (args : Arguments) : Path := (rootOf here args).join args.output.text

/-! ## One plan -/

theorem does_patchModule {plan : Plan} {r : Except Failure Nat}
    (h : Does (patchModule outputBase plan) t r t') :
    (∃ e, reads (readModule outputBase plan) t = .error e ∧ r = .error e ∧ t' = t) ∨
      ∃ found, reads (readModule outputBase plan) t = .ok found ∧
        Does (writeModule outputBase plan found) t r t' := by
  rw [patchModule_eq] at h
  rcases does_bind h with ⟨e, hread, rfl⟩ | ⟨found, t₁, hread, hwrite⟩
  · obtain ⟨rfl, hr⟩ := Looks.does hread
    exact .inl ⟨e, hr.symm, rfl, rfl⟩
  · obtain ⟨rfl, hr⟩ := Looks.does hread
    exact .inr ⟨found, hr.symm, hwrite⟩

/-- What removing a stale copy can do. -/
theorem does_clearStale (ht : t.Sound) {name : String} (hname : IsName name)
    {r : Except Failure Bool} (h : Does (clearStale outputBase name) t r t') :
    (r = .ok false ∧ t' = t ∧ t.there (outputBase.join name) = false) ∨
      (r = .ok true ∧ t' = t.eraseAt (outputBase.location ++ [name]) ∧
        t.lookup? (outputBase.location ++ [name]) = some .directory) ∨
      (∃ e, r = .error e ∧ t' = t) := by
  rcases does_bind h with ⟨e, htree, -⟩ | ⟨found, t₁, htree, hclear⟩
  · cases (does_tree htree).1
  · obtain ⟨heq, rfl⟩ := does_tree htree
    cases heq
    split at hclear
    · rcases does_bind hclear with ⟨e, hwarn, -⟩ | ⟨u, t₁, hwarn, hremove⟩
      · cases (does_warn hwarn).1
      · obtain ⟨-, rfl⟩ := does_warn hwarn
        rcases does_bind hremove with ⟨e, hfail, rfl⟩ | ⟨u, t₁, hremoved, hdone⟩
        · obtain ⟨hr, rfl⟩ := does_onFile hfail
          rcases removeDirectory_cases ht outputBase hname with ⟨e, hfail⟩ | ⟨hok, -⟩
          · exact .inr (.inr ⟨_, rfl, by rw [hfail]⟩)
          · rw [hok] at hr
            cases hr
        · obtain ⟨rfl, rfl⟩ := does_pure hdone
          obtain ⟨hr, rfl⟩ := does_onFile hremoved
          rcases removeDirectory_cases ht outputBase hname with ⟨e, hfail⟩ | ⟨hok, hdir⟩
          · rw [hfail] at hr
            cases hr
          · exact .inr (.inl ⟨rfl, by rw [hok], hdir⟩)
    · next hthere =>
      obtain ⟨rfl, rfl⟩ := does_pure hclear
      exact .inl ⟨rfl, rfl, by simpa using hthere⟩

/-- What carrying out a plan can do: the copy is written; or a patch finds no resource and a stale
copy goes; or the build fails. -/
theorem does_carryOut {o : Outcome} {plan : Plan} {r : Except Failure Outcome}
    (h : Does (carryOut root outputBase o plan) t r t') :
    (∃ n, Does (patchModule outputBase plan) t (.ok n) t' ∧
        r = .ok { o with patched := o.patched ++ [(plan.call.name, n)] }) ∨
      (∃ key t₁, Does (patchModule outputBase plan) t (.error (.resourceNotFound key)) t₁ ∧
        ((∃ e, Does (clearStale outputBase plan.call.name) t₁ (.error e) t' ∧ r = .error e) ∨
          ∃ stale, Does (clearStale outputBase plan.call.name) t₁ (.ok stale) t' ∧
            r = .ok { o with
              failed := o.failed ++ [(plan.call.name, .resourceNotFound key)]
              restore := o.restore ++ if stale then
                [(plan.call.name, manifestDirectory root plan.call.directory)] else [] })) ∨
      ∃ e, Does (patchModule outputBase plan) t (.error e) t' ∧ r = .error e := by
  rcases does_bind h with ⟨e, hsay, -⟩ | ⟨u, t₁, hsay, hrun⟩
  · cases (does_say hsay).1
  obtain ⟨-, rfl⟩ := does_say hsay
  rcases does_bind hrun with ⟨e, hattempt, -⟩ | ⟨result, t₂, hattempt, hend⟩
  · obtain ⟨result, heq, -⟩ := does_attempt hattempt
    cases heq
  obtain ⟨result', heq, hpatch⟩ := does_attempt hattempt
  cases heq
  split at hend
  · obtain ⟨rfl, rfl⟩ := does_pure hend
    exact .inl ⟨_, hpatch, rfl⟩
  · next key =>
    rcases does_bind hend with ⟨e, hwarn, -⟩ | ⟨u, t₃, hwarn, hfailed⟩
    · cases (does_warn hwarn).1
    obtain ⟨-, rfl⟩ := does_warn hwarn
    refine .inr (.inl ⟨key, _, hpatch, ?_⟩)
    rcases does_bind hfailed with ⟨e, hclear, rfl⟩ | ⟨stale, t₄, hclear, hdone⟩
    · exact .inl ⟨e, hclear, rfl⟩
    · obtain ⟨rfl, rfl⟩ := does_pure hdone
      exact .inr ⟨stale, hclear, rfl⟩
  · obtain ⟨rfl, rfl⟩ := does_throw hend
    exact .inr (.inr ⟨_, hpatch, rfl⟩)

section Frames

variable {plan : Plan}

theorem confined_patchModule (ht : t.Sound) (hname : IsName plan.call.name)
    (hzone : ∀ l, outputBase.location ++ [plan.call.name] <+: l → zone l)
    {r : Except Failure Nat} (h : Does (patchModule outputBase plan) t r t') :
    Confined zone (· ∈ outputBase.way) t t' := by
  rcases does_patchModule h with ⟨e, -, -, rfl⟩ | ⟨found, hread, hwrite⟩
  · exact .refl _ _ ht
  · exact confined_writeModule ht hname (allBelow_readModule ht hread) hzone hwrite

theorem confined_clearStale (ht : t.Sound) {name : String} (hname : IsName name)
    (hzone : ∀ l, outputBase.location ++ [name] <+: l → zone l) {r : Except Failure Bool}
    (h : Does (clearStale outputBase name) t r t') : Confined zone (fun _ => False) t t' := by
  rcases does_clearStale ht hname h with ⟨-, rfl, -⟩ | ⟨-, rfl, -⟩ | ⟨e, -, rfl⟩
  · exact .refl _ _ ht
  · exact .eraseAt ht (by simp) hzone
  · exact .refl _ _ ht

/-- **One plan** changes only the directory of its copy. -/
theorem confined_carryOut (ht : t.Sound) (hname : IsName plan.call.name)
    (hzone : ∀ l, outputBase.location ++ [plan.call.name] <+: l → zone l) {o : Outcome}
    {r : Except Failure Outcome} (h : Does (carryOut root outputBase o plan) t r t') :
    Confined zone (· ∈ outputBase.way) t t' := by
  rcases does_carryOut h with ⟨n, hpatch, -⟩ | ⟨key, t₁, hpatch, hclear⟩ | ⟨e, hpatch, -⟩
  · exact confined_patchModule ht hname hzone hpatch
  · have hframe := confined_patchModule ht hname hzone hpatch
    rcases hclear with ⟨e, hclear, -⟩ | ⟨stale, hclear, -⟩
    · exact hframe.trans (confined_clearStale hframe.sound hname hzone hclear).weaken
    · exact hframe.trans (confined_clearStale hframe.sound hname hzone hclear).weaken
  · exact confined_patchModule ht hname hzone hpatch

/-- **Plans in order** change only the directories of their copies. -/
theorem confined_carryOuts (ht : t.Sound) {plans : List Plan}
    (hplans : ∀ plan ∈ plans, IsName plan.call.name ∧
      ∀ l, outputBase.location ++ [plan.call.name] <+: l → zone l) {o : Outcome}
    {r : Except Failure Outcome} (h : Does (plans.foldlM (carryOut root outputBase) o) t r t') :
    Confined zone (· ∈ outputBase.way) t t' := by
  induction plans generalizing o t with
  | nil =>
    obtain ⟨-, rfl⟩ := does_pure h
    exact .refl _ _ ht
  | cons plan rest ih =>
    obtain ⟨⟨hname, hzone⟩, hrest⟩ := List.forall_mem_cons.1 hplans
    rw [List.foldlM_cons] at h
    rcases does_bind h with ⟨e, hfirst, -⟩ | ⟨o', t₁, hfirst, hmore⟩
    · exact confined_carryOut ht hname hzone hfirst
    · have hframe := confined_carryOut ht hname hzone hfirst
      exact hframe.trans (ih hframe.sound hrest hmore)

end Frames

/-! ## The manifest -/

/-- What updating the manifest can do: nothing, or write the redirected manifest in its place. -/
theorem does_updateManifest {redirection : Manifest.Redirection} {r : Except Failure Nat}
    (h : Does (updateManifest root redirection) t r t') :
    (t' = t ∧ ∀ n, r = .ok n → ∃ text m, t.readText (manifestPath root) = .ok text ∧
        Manifest.read? text = some m ∧ redirection.count m = 0) ∨
      ∃ text m write, t.readText (manifestPath root) = .ok text ∧ Manifest.read? text = some m ∧
        Does (onFile (manifestPath root) (writeFile (manifestPath root)
          (redirection.manifest m).print.toByteArray)) t write t' ∧
        r = write.map fun _ => redirection.count m := by
  rcases does_bind h with ⟨e, htree, -⟩ | ⟨found, t₁, htree, hupdate⟩
  · cases (does_tree htree).1
  obtain ⟨heq, rfl⟩ := does_tree htree
  cases heq
  split at hupdate
  · obtain ⟨rfl, rfl⟩ := does_throw hupdate
    exact .inl ⟨rfl, nofun⟩
  rcases does_bind hupdate with ⟨e, htext, rfl⟩ | ⟨text, t₂, htext, hread⟩
  · exact .inl ⟨(does_look htext).2, nofun⟩
  obtain ⟨htext, rfl⟩ := does_look_ok htext
  split at hread
  · obtain ⟨rfl, rfl⟩ := does_throw hread
    exact .inl ⟨rfl, nofun⟩
  next m hm =>
  dsimp only at hread
  split at hread
  · rcases does_bind hread with ⟨e, hwrite, rfl⟩ | ⟨u, t₃, hwrite, hdone⟩
    · exact .inr ⟨text, m, _, htext, hm, hwrite, rfl⟩
    · obtain ⟨rfl, rfl⟩ := does_pure hdone
      exact .inr ⟨text, m, _, htext, hm, hwrite, rfl⟩
  · next hcount =>
    obtain ⟨rfl, rfl⟩ := does_pure hread
    exact .inl ⟨rfl, fun _ _ => ⟨text, m, htext, hm, by simpa using hcount⟩⟩

theorem confined_updateManifest (ht : t.Sound) (hzone : zone (manifestPath root).location)
    {redirection : Manifest.Redirection} {r : Except Failure Nat}
    (h : Does (updateManifest root redirection) t r t') : Confined zone (fun _ => False) t t' := by
  rcases does_updateManifest h with ⟨rfl, -⟩ | ⟨text, m, write, -, -, hwrite, -⟩
  · exact .refl _ _ ht
  · exact (does_writeFile ht hwrite hzone).1

/-! ## Builds -/

/-- What a build can do: it fails or ends while it looks, or it carries out the plans that it has
seen. -/
theorem does_run {here : Path} {args : Arguments} {r : Except Failure Report}
    (h : Does (run here args) t r t') :
    (t' = t ∧ ∀ report, r = .ok report → reads (schedule here args) t = .ok none ∧
        report = .empty) ∨
      ∃ s, reads (schedule here args) t = .ok (some s) ∧
        Does (carryAll (rootOf here args) args s) t r t' := by
  rw [run_eq] at h
  rcases does_bind h with ⟨e, hread, rfl⟩ | ⟨found, t₁, hread, hcarry⟩
  · exact .inl ⟨(Looks.does hread).1, nofun⟩
  obtain ⟨rfl, hr⟩ := Looks.does hread
  cases found with
  | none =>
    obtain ⟨rfl, rfl⟩ := does_pure hcarry
    exact .inl ⟨rfl, fun report heq => ⟨hr.symm, (Except.ok.inj heq).symm⟩⟩
  | some s => exact .inr ⟨s, hr.symm, hcarry⟩

/-- Finishing leaves the tree as it is or updates the manifest. -/
theorem does_finish {args : Arguments} {s : Schedule} {o : Outcome} {r : Except Failure Report}
    (h : Does (finish root args s o) t r t') :
    ((args.skipManifest || (o.patched.isEmpty && o.restore.isEmpty)) = true ∧ t' = t ∧
        r = .ok ⟨o.patched, o.failed, s.unresolved.keys, s.skipped, 0⟩) ∨
      ((args.skipManifest || (o.patched.isEmpty && o.restore.isEmpty)) = false ∧
        ∃ count, Does (updateManifest root ⟨args.output, o.patched.map Prod.fst, o.restore⟩) t
            count t' ∧
          r = count.map fun n => ⟨o.patched, o.failed, s.unresolved.keys, s.skipped, n⟩) := by
  rw [finish] at h
  split at h
  · next hskip =>
    rw [pure_bind] at h
    obtain ⟨rfl, rfl⟩ := does_pure h
    exact .inl ⟨hskip, rfl, rfl⟩
  · next hnot =>
    refine .inr ⟨by simpa using hnot, ?_⟩
    rcases does_bind h with ⟨e, hcount, rfl⟩ | ⟨count, t₁, hcount, hdone⟩
    · exact ⟨.error e, hcount, rfl⟩
    · obtain ⟨rfl, rfl⟩ := does_pure hdone
      exact ⟨.ok count, hcount, rfl⟩

/-- **Finishing** changes the manifest at most. -/
theorem confined_finish (ht : t.Sound) {args : Arguments} {s : Schedule} {o : Outcome}
    (hzone : args.skipManifest = false → zone (manifestPath root).location)
    {r : Except Failure Report} (h : Does (finish root args s o) t r t') :
    Confined zone (fun _ => False) t t' := by
  rcases does_finish h with ⟨-, rfl, -⟩ | ⟨hnot, count, hupdate, -⟩
  · exact .refl _ _ ht
  · exact confined_updateManifest ht (hzone (Bool.or_eq_false_iff.1 hnot).1) hupdate

/-- Carrying out a schedule: all plans, and then the manifest unless it is to stay. -/
theorem does_carryAll {args : Arguments} {s : Schedule} {r : Except Failure Report}
    (h : Does (carryAll root args s) t r t') :
    (∃ e, Does (s.planList.foldlM (carryOut root (root.join args.output.text)) ⟨[], [], []⟩) t
        (.error e) t' ∧ r = .error e) ∨
      ∃ o t₁, Does (s.planList.foldlM (carryOut root (root.join args.output.text)) ⟨[], [], []⟩) t
          (.ok o) t₁ ∧ Does (finish root args s o) t₁ r t' := by
  rw [carryAll_eq] at h
  rcases does_bind h with ⟨e, hplans, rfl⟩ | ⟨o, t₁, hplans, hfinish⟩
  · exact .inl ⟨e, hplans, rfl⟩
  · exact .inr ⟨o, t₁, hplans, hfinish⟩

/-- Where a build changes files: below the directory of a copy, and at the manifest unless it is to
stay. -/
def Touched (here : Path) (args : Arguments) (plans : List Plan) (l : Location) : Prop :=
  (∃ plan ∈ plans, (outputOf here args).location ++ [plan.call.name] <+: l) ∨
    (args.skipManifest = false ∧ l = (manifestPath (rootOf here args)).location)

/-- **A build changes only the directories of its copies and the manifest.** -/
theorem confined_run (ht : t.Sound) {here : Path} {args : Arguments}
    (hplans : ∀ plan ∈ plansOf here args t, IsName plan.call.name) {r : Except Failure Report}
    (h : Does (run here args) t r t') :
    Confined (Touched here args (plansOf here args t)) (· ∈ (outputOf here args).way) t t' := by
  rcases does_run h with ⟨rfl, -⟩ | ⟨s, hs, hcarry⟩
  · exact .refl _ _ ht
  have hlist := plansOf_eq hs
  have hzone : ∀ plan ∈ s.planList, IsName plan.call.name ∧
      ∀ l, ((rootOf here args).join args.output.text).location ++ [plan.call.name] <+: l →
        Touched here args (plansOf here args t) l := by
    rw [← hlist]
    exact fun plan hplan => ⟨hplans plan hplan, fun l hl => .inl ⟨plan, hplan, hl⟩⟩
  rcases does_carryAll hcarry with ⟨e, hfold, -⟩ | ⟨o, t₁, hfold, hend⟩
  · exact confined_carryOuts ht hzone hfold
  have hframe := confined_carryOuts ht hzone hfold
  exact hframe.trans (confined_finish hframe.sound (fun hskip => .inr ⟨hskip, rfl⟩) hend).weaken

/-- **Builds keep their inputs.** However a build ends, every file that is neither below the directory
of one of its copies nor the manifest has the bytes it had, and every such directory is still there.
In particular this holds of the root configuration, the overlays and the modules, unless one of them
lies in the place of a copy. -/
theorem run_keeps_files {here : Path} {args : Arguments} {s : Session} (hs : s.tree.Sound)
    (hnames : ∀ plan ∈ plansOf here args s.tree, IsName plan.call.name) :
    ∀ l, ¬Touched here args (plansOf here args s.tree) l →
      ((run here args).run s).2.tree.fileAt? l = s.tree.fileAt? l ∧
        (s.tree.lookup? l = some .directory →
          ((run here args).run s).2.tree.lookup? l = some .directory) := by
  intro l hl
  have hframe := confined_run hs hnames (does_outcome (run here args) s)
  exact ⟨hframe.file l hl, hframe.directory l hl⟩

/-- A module is patched into another directory and keeps its own file. -/
theorem run_keeps_files_local :
    let file (text : String) : Node := .file text.toByteArray
    let t : FileTree := ⟨[(["r"], .directory),
      (["r", "main.tf"], file "module m \x7b\n  source = \"./m\"\n\x7d\n"),
      (["r", "m"], .directory), (["r", "m", "main.tf"], file "resource k w \x7b\n  a = 1\n\x7d\n"),
      (["r", "o.kf.hcl"], file "patch k w \x7b\n  source = \"./m\"\n  b = 1\n\x7d\n")]⟩
    let args : Arguments := ⟨⟨"/r"⟩, ⟨"o.kf.hcl"⟩, ⟨"out"⟩, true⟩
    let final := ((run ⟨"/"⟩ args).run ⟨t, [], []⟩).2.tree
    (final.fileAt? ["r", "out", "m", "main.tf"]).map ByteArray.data =
        some "resource k w \x7b\n  a = 1\n  b = 1\n\x7d\n".toByteArray.data ∧
      final.fileAt? ["r", "m", "main.tf"] = t.fileAt? ["r", "m", "main.tf"] := by
  intro file t args final
  have hs : t.Sound := by decide +kernel
  have hplans : (plansOf ⟨"/"⟩ args t).map (·.call.name) = ["m"] := by decide +kernel
  have hname : ∀ plan ∈ plansOf ⟨"/"⟩ args t, plan.call.name = "m" := by
    intro plan hplan
    have hmem := List.mem_map_of_mem (f := (·.call.name)) hplan
    rw [hplans] at hmem
    exact List.mem_singleton.1 hmem
  refine ⟨by decide +kernel, (run_keeps_files (s := ⟨t, [], []⟩) hs ?_ _ ?_).1⟩
  · intro plan hplan
    rw [hname plan hplan]
    decide
  · rintro (⟨plan, hplan, hbelow⟩ | ⟨hskip, -⟩)
    · rw [hname plan hplan] at hbelow
      exact absurd hbelow (by decide +kernel)
    · exact absurd hskip (by decide)

end HclOverlay.Build
