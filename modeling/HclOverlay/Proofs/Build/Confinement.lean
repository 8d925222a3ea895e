import HclOverlay.Proofs.Build.Repetition

/-!
# Effects are confined

A build touches the directories of its copies and the manifest, and it makes directories that lead to
the output directory. Each plan has its own share of this: in the directory of its copy, files change
in its own step only.

* `treeAfter` — the tree as some plans leave it; `confined_treeAfter` — what more of them change.
* `confined_end` — what a build changes after its plans.
* `run_confines_effects` — **builds change nothing else, and plans do not meet**.
-/

namespace HclOverlay.Build

open Work FileTree HclOverlay.Path

variable (here : Path) (args : Arguments) {s : Session} {plans more : List Plan}

/-- The tree as the first plans of a build leave it, whether or not one of them ends the build. -/
def treeAfter (here : Path) (args : Arguments) (s : Session) (plans : List Plan) : FileTree :=
  (outcome (plans.foldlM (carryOut (rootOf here args) (outputOf here args)) ⟨[], [], []⟩)
    (outcome (schedule here args) s).2).2.tree

/-- Looking for plans changes nothing. -/
theorem treeAfter_nil (s : Session) : treeAfter here args s [] = s.tree :=
  (Looks.does (does_outcome (schedule here args) s)).1

/-- **More plans** change what lies in the directories of their copies. -/
theorem confined_treeAfter (ht : (treeAfter here args s plans).Sound)
    (hmore : ∀ plan ∈ more, IsName plan.call.name) :
    Confined (fun l => ∃ plan ∈ more, (outputOf here args).location ++ [plan.call.name] <+: l)
      (· ∈ (outputOf here args).way) (treeAfter here args s plans)
      (treeAfter here args s (plans ++ more)) := by
  have hzone : ∀ plan ∈ more, IsName plan.call.name ∧
      ∀ l, (outputOf here args).location ++ [plan.call.name] <+: l →
        ∃ plan ∈ more, (outputOf here args).location ++ [plan.call.name] <+: l :=
    fun plan hplan => ⟨hmore plan hplan, fun l hl => ⟨plan, hplan, hl⟩⟩
  rw [treeAfter] at ht ⊢
  rw [treeAfter, List.foldlM_append, outcome_bind]
  rcases hfirst : outcome (plans.foldlM (carryOut (rootOf here args) (outputOf here args))
    ⟨[], [], []⟩) (outcome (schedule here args) s).2 with ⟨e | o, s'⟩ <;> rw [hfirst] at ht
  · -- the build has ended before
    exact .refl _ _ ht
  · exact confined_carryOuts ht hzone (does_outcome _ s')

theorem sound_treeAfter (hs : s.tree.Sound) (hplans : ∀ plan ∈ plans, IsName plan.call.name) :
    (treeAfter here args s plans).Sound := by
  rw [← treeAfter_nil here args s] at hs
  exact (confined_treeAfter here args hs hplans).sound

/-- **The end of a build** changes the manifest at most. -/
theorem confined_end (hs : s.tree.Sound)
    (hplans : ∀ plan ∈ plansOf here args s.tree, IsName plan.call.name) :
    Confined (fun l => args.skipManifest = false ∧ l = (manifestPath (rootOf here args)).location)
      (fun _ => False) (treeAfter here args s (plansOf here args s.tree))
      ((run here args).run s).2.tree := by
  have ht := sound_treeAfter here args hs hplans
  have hread := (Looks.does (does_outcome (schedule here args) s)).2
  have hrun : (run here args).run s = outcome (run here args) s := rfl
  rw [hrun, run_eq, outcome_bind]
  rw [plansOf, ← hread, treeAfter] at ht ⊢
  generalize outcome (schedule here args) s = found at ht ⊢
  obtain ⟨e | schedule, s'⟩ := found
  · exact .refl _ _ ht
  cases schedule with
  | none => exact .refl _ _ ht
  | some schedule =>
    dsimp only [plansIn, outputOf] at ht ⊢
    rw [carryAll_eq, outcome_bind]
    generalize outcome (schedule.planList.foldlM (carryOut (rootOf here args)
      ((rootOf here args).join args.output.text)) ⟨[], [], []⟩) s' = done at ht ⊢
    obtain ⟨e | o, u⟩ := done
    · exact .refl _ _ ht
    · exact confined_finish ht (fun hskip => ⟨hskip, rfl⟩) (does_outcome _ u)

/-- Plans leave the directories of other copies alone. -/
theorem treeAfter_other (hsound : (treeAfter here args s plans).Sound)
    (hmore : ∀ plan ∈ more, IsName plan.call.name) {name : String}
    (hname : name ∉ more.map (·.call.name)) {l : Location}
    (hl : (outputOf here args).location ++ [name] <+: l) :
    (treeAfter here args s (plans ++ more)).fileAt? l = (treeAfter here args s plans).fileAt? l := by
  refine (confined_treeAfter here args hsound hmore).file l ?_
  rintro ⟨other, hother, hbelow⟩
  exact not_copy_of_settled hname (.inr ⟨_, List.mem_map_of_mem hother, hbelow⟩) hl

/-- **Builds change nothing else.** However a build ends, what has changed lies in the directory of
one of its copies, or is the manifest, or is a directory that was made on the way to the output
directory. And **plans do not meet**: the files in the directory of a copy are those from before the
build until its own plan is carried out, and stay what this plan has made of them. -/
theorem run_confines_effects (hs : s.tree.Sound)
    (hnames : ∀ plan ∈ plansOf here args s.tree, IsName plan.call.name) :
    (∀ l, ((run here args).run s).2.tree.lookup? l = s.tree.lookup? l ∨
      Touched here args (plansOf here args s.tree) l ∨
      (s.tree.lookup? l = none ∧ ((run here args).run s).2.tree.lookup? l = some .directory ∧
        l ∈ (outputOf here args).way)) ∧
    ∀ before plan later, plansOf here args s.tree = before ++ plan :: later →
      ∀ l, (outputOf here args).location ++ [plan.call.name] <+: l →
        (treeAfter here args s before).fileAt? l = s.tree.fileAt? l ∧
          (args.skipManifest = true ∨ l ≠ (manifestPath (rootOf here args)).location →
            ((run here args).run s).2.tree.fileAt? l =
              (treeAfter here args s (before ++ [plan])).fileAt? l) := by
  refine ⟨(confined_run hs hnames (does_outcome (run here args) s)).cases, ?_⟩
  intro before plan later hplans l hl
  -- the plans before and after have other names
  have hdistinct : ((before ++ plan :: later).map (·.call.name)).Nodup := hplans ▸ nodup_plansOf
  rw [List.map_append, List.nodup_append, List.map_cons, List.nodup_cons] at hdistinct
  obtain ⟨-, ⟨hlater, -⟩, hbefore⟩ := hdistinct
  have hend := confined_end here args hs hnames
  rw [hplans] at hend hnames
  rw [List.forall_mem_append, List.forall_mem_cons] at hnames
  obtain ⟨hnames, hname, hnames'⟩ := hnames
  refine ⟨?_, fun hkeep => ?_⟩
  · have hstart := (treeAfter_nil here args s).symm ▸ hs
    rw [← treeAfter_nil here args s]
    exact treeAfter_other here args hstart hnames
      (fun hmem => hbefore _ hmem _ List.mem_cons_self rfl) hl
  · have hsound : (treeAfter here args s (before ++ [plan])).Sound := by
      refine sound_treeAfter here args hs (List.forall_mem_append.2 ⟨hnames, ?_⟩)
      exact List.forall_mem_singleton.2 hname
    rw [hend.file l, List.append_cons, treeAfter_other here args hsound hnames' hlater hl]
    rintro ⟨hskip, hmanifest⟩
    rcases hkeep with hkeep | hkeep
    · rw [hskip] at hkeep
      cases hkeep
    · exact hkeep hmanifest

/-- The second module has a file that cannot be read, so the build fails after the first copy, and
that stays as it was written. -/
theorem run_confines_effects_failing :
    let file (text : String) : Node := .file text.toByteArray
    let t : FileTree := ⟨[(["r"], .directory),
      (["r", "main.tf"], file
        "module m \x7b\n  source = \"./m\"\n\x7d\nmodule n \x7b\n  source = \"./n\"\n\x7d\n"),
      (["r", "m"], .directory), (["r", "m", "main.tf"], file "resource k w \x7b\n  a = 1\n\x7d\n"),
      (["r", "n"], .directory), (["r", "n", "main.tf"], file "resource k w \x7b"),
      (["r", "o.kf.hcl"], file ("patch k w \x7b\n  source = \"./m\"\n  b = 1\n\x7d\n" ++
        "patch k w \x7b\n  source = \"./n\"\n  b = 1\n\x7d\n"))]⟩
    let args : Arguments := ⟨⟨"/r"⟩, ⟨"o.kf.hcl"⟩, ⟨"out"⟩, false⟩
    let s : Session := ⟨t, [], []⟩
    let final := ((run ⟨"/"⟩ args).run s).2.tree
    ((run ⟨"/"⟩ args).run s).1.toOption.isNone = true ∧
      (final.fileAt? ["r", "out", "m", "main.tf"]).isSome = true ∧
      (∀ l, ¬["r", "out"] <+: l → l ≠ ["r", ".terraform", "modules", "modules.json"] →
        final.lookup? l = t.lookup? l) ∧
      ∀ plan later, plansOf ⟨"/"⟩ args t = plan :: later → ∀ l, ["r", "out", "m"] <+: l →
        final.fileAt? l = (treeAfter ⟨"/"⟩ args s [plan]).fileAt? l := by
  intro file t args s final
  -- the run, evaluated once for all that is needed of it
  obtain ⟨hnames, hfirst, hfails, hcopied⟩ :
      (∀ plan ∈ plansOf ⟨"/"⟩ args t, IsName plan.call.name) ∧
        (plansOf ⟨"/"⟩ args t).head?.map (·.call.name) = some "m" ∧
        ((run ⟨"/"⟩ args).run s).1.toOption.isNone = true ∧
        (final.fileAt? ["r", "out", "m", "main.tf"]).isSome = true := by
    decide +kernel
  have hs : t.Sound := by decide +kernel
  have hbase : (outputOf ⟨"/"⟩ args).location = ["r", "out"] := by decide +kernel
  have hmanifest : (manifestPath (rootOf ⟨"/"⟩ args)).location =
      ["r", ".terraform", "modules", "modules.json"] := by decide +kernel
  have hway : ∀ l ∈ (outputOf ⟨"/"⟩ args).way, ["r", "out"] <+: l ∨ (t.lookup? l).isSome = true := by
    decide +kernel
  obtain ⟨hconfined, hplans⟩ := run_confines_effects ⟨"/"⟩ args (s := s) hs hnames
  refine ⟨hfails, hcopied, fun l hl hne => ?_, fun plan later hplan l hl => ?_⟩
  · rcases hconfined l with hsame | (⟨other, -, hbelow⟩ | ⟨-, heq⟩) | ⟨hnone, -, hmem⟩
    · exact hsame
    · rw [hbase] at hbelow
      exact absurd ((List.prefix_append _ _).trans hbelow) hl
    · exact absurd (heq.trans hmanifest) hne
    · rcases hway l hmem with hbelow | hsome
      · exact absurd hbelow hl
      · rw [hnone] at hsome
        cases hsome
  · have hname : plan.call.name = "m" := by
      rw [hplan] at hfirst
      exact Option.some.inj hfirst
    refine (hplans [] plan later hplan l ?_).2 (.inr ?_)
    · rwa [hbase, hname]
    · rw [hmanifest]
      rintro rfl
      exact absurd hl (by decide)

end HclOverlay.Build
