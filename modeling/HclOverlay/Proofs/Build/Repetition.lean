import HclOverlay.Proofs.Build.Plans

/-!
# Building again

What an earlier build left in the output directory has no influence on a later one: two builds that
start with trees that agree elsewhere end with the same report and the same copies. Two runs are
followed step by step; what they agree on grows by one copy with every module that is patched.

* `Direct` — an output directory that is found by its path whenever it is there.
* `Alike` — two trees that agree in a zone; `Settled` — the zone outside the output directory with
  the copies that are done.
* `cleared` — where a copy is written, nothing of an earlier one is left.
* `alike_writeModule`, `parallel_carryOut`, `parallel_carryOuts` — one copy, one plan, all plans.
* `run_ignores_output` — **builds do not depend on what is in the output directory**.
-/

namespace HclOverlay.Build

open Work FileTree HclOverlay.Path

variable {α : Type} {t t' t₁ t₂ t₁' t₂' : FileTree} {zone zone' : Location → Prop}
variable {root base : Path} {output : String} {plan : Plan}

/-! ## Trees that agree -/

/-- Two trees that agree in a zone. -/
structure Alike (zone : Location → Prop) (t₁ t₂ : FileTree) : Prop where
  sound₁ : t₁.Sound
  sound₂ : t₂.Sound
  agree : ∀ l, zone l → t₁.fileAt? l = t₂.fileAt? l

/-- Changes outside the zone. -/
theorem Alike.frames (h : Alike zone t₁ t₂) (h₁ : Frame zone' t₁ t₁') (h₂ : Frame zone' t₂ t₂')
    (hzone : ∀ l, zone l → ¬zone' l) : Alike zone t₁' t₂' where
  sound₁ := h₁.sound
  sound₂ := h₂.sound
  agree l hl := by rw [h₁.file l (hzone l hl), h₂.file l (hzone l hl), h.agree l hl]

/-- Both trees get the same file. -/
theorem Alike.wrote (h : Alike zone t₁ t₂) (hs₁ : t₁'.Sound) (hs₂ : t₂'.Sound) {target : Path}
    {bytes : ByteArray} (h₁ : Wrote target bytes t₁ t₁') (h₂ : Wrote target bytes t₂ t₂') :
    Alike zone t₁' t₂' where
  sound₁ := hs₁
  sound₂ := hs₂
  agree l hl := by rw [h₁.fileAt?, h₂.fileAt?, h.agree l hl]

/-- What lies outside the output directory or in a copy that is done. -/
def Settled (base : Path) (done : List String) (l : Location) : Prop :=
  Outside base.location l ∨ ∃ name ∈ done, base.location ++ [name] <+: l

theorem not_copy_of_outside {l : Location} (h : Outside base.location l) (name : String) :
    ¬base.location ++ [name] <+: l := by
  intro hcopy
  rcases h with rfl | h
  · have hlength := hcopy.length_le
    rw [List.length_append, List.length_singleton] at hlength
    omega
  · exact h ((List.prefix_append _ _).trans hcopy)

/-- Different copies lie apart, and none is outside. -/
theorem not_copy_of_settled {done : List String} {name : String} (hname : name ∉ done)
    {l : Location} (h : Settled base done l) : ¬base.location ++ [name] <+: l := by
  rcases h with h | ⟨other, hother, hl⟩
  · exact not_copy_of_outside h name
  · intro hcopy
    have heq := (List.prefix_of_prefix_length_le hcopy hl (by simp)).eq_of_length (by simp)
    rw [List.append_cancel_left_eq] at heq
    cases heq
    exact hname hother

/-! ## The way to the output directory -/

/-- An output directory that is found by its path whenever it is there: the path goes up only from
the root, and the way to the root does not lead through the output directory. -/
structure Direct (root : Path) (output : String) : Prop where
  straight : Straight ⟨output⟩
  way : IsRelative output → ∀ l ∈ root.way, Outside (root.join output).location l

/-- The way to the output directory leads through none of its copies. -/
theorem Direct.outside_way (hdirect : Direct root output) :
    ∀ l ∈ (root.join output).way, Outside (root.join output).location l := by
  -- what lies above the output directory or is it, is outside
  have habove : ∀ l, l <+: (root.join output).location → Outside (root.join output).location l := by
    intro l hl
    by_cases heq : l = (root.join output).location
    · exact .inl heq
    · exact .inr fun h => heq (hl.eq_of_length_le h.length_le)
  intro l hl
  by_cases hrelative : IsRelative output
  · rw [Path.way, steps_join root hrelative] at hl
    rcases mem_wayFrom_append hl with hl | hl
    · exact hdirect.way hrelative l hl
    rcases prefix_of_mem_wayFrom hdirect.straight hl with hl | hl
    · rcases hdirect.way hrelative _ root.location_mem_way with hroot | hroot
      · exact habove l (hroot ▸ hl)
      · exact .inr fun h => hroot (h.trans hl)
    · exact habove l (by rwa [location_join root hrelative])
  · have hjoin : root.join output = ⟨output⟩ := if_pos (by simpa [IsRelative] using hrelative)
    rw [hjoin] at hl habove ⊢
    rcases prefix_of_mem_wayFrom hdirect.straight hl with hl | hl
    · exact habove l (hl.trans List.nil_prefix)
    · exact habove l hl

theorem opens_frame (hdirect : Direct root output) (hrelative : IsRelative output) {name : String}
    (h : t.Opens root) (hframe : Frame ((root.join output).location ++ [name] <+: ·) t t') :
    t'.Opens root :=
  h.frame hframe fun k hk => not_copy_of_outside (hdirect.way hrelative k hk) name

/-- Nothing is hidden from the path of a copy: where it finds nothing, there is nothing. -/
theorem nothing_of_not_there (ht : t.Sound) (hdirect : Direct root output)
    (hopen : IsRelative output → t.Opens root) {name : String} (hname : IsName name)
    (hwalk : walkableParts ((root.join output).join name) =
      .ok ((root.join output).join name).parts)
    (hgone : t.there ((root.join output).join name) = false) {l : Location}
    (hl : (root.join output).location ++ [name] <+: l) : t.lookup? l = none := by
  cases hnode : t.lookup? l with
  | none => rfl
  | some n =>
    obtain ⟨k, rfl⟩ := hl
    obtain ⟨n, hn⟩ : ∃ n, t.lookup? ((root.join output).location ++ [name]) = some n := by
      by_cases hk : k = []
      · rw [hk, List.append_nil] at hnode
        exact ⟨_, hnode⟩
      · exact ⟨_, ht.lookup?_append hnode hk⟩
    have hthere := there_join_name ht hdirect.straight hopen hname hwalk hn
    rw [hgone] at hthere
    cases hthere

theorem empty_of_not_there (ht : t.Sound) (hdirect : Direct root output)
    (hopen : IsRelative output → t.Opens root) {name : String} (hname : IsName name)
    (hwalk : walkableParts ((root.join output).join name) =
      .ok ((root.join output).join name).parts)
    (hgone : t.there ((root.join output).join name) = false) {l : Location}
    (hl : (root.join output).location ++ [name] <+: l) : t.fileAt? l = none := by
  rw [fileAt?, nothing_of_not_there ht hdirect hopen hname hwalk hgone hl]
  rfl

/-- **Where a copy can be written**, clearing has left nothing of an earlier one. -/
theorem cleared (ht : t.Sound) (hdirect : Direct root output)
    (hopen : IsRelative output → t.Opens root) {name : String} (hname : IsName name)
    (hwalk : walkableParts ((root.join output).join name) =
      .ok ((root.join output).join name).parts)
    (h : Does (clearOld ((root.join output).join name)) t (.ok ()) t') {l : Location}
    (hl : (root.join output).location ++ [name] <+: l) : t'.fileAt? l = none := by
  rcases does_clearOld ht _ hname h with ⟨rfl, hgone⟩ | ⟨-, rfl, -⟩
  · exact empty_of_not_there ht hdirect hopen hname hwalk (hgone rfl) hl
  · rw [fileAt?_eraseAt (by simp), if_pos hl]

/-! ## One copy -/

section Copies

variable {dir out : Path} {found : ModuleFiles × List Path}

/-- Two walks along one list go the same steps. -/
theorem alike_forM {f : α → Work PUnit} {l : List α}
    (hf : ∀ a ∈ l, ∀ {t₁ t₂ t₁' t₂'}, Alike zone t₁ t₂ → Does (f a) t₁ (.ok ()) t₁' →
      Does (f a) t₂ (.ok ()) t₂' → Alike zone t₁' t₂')
    (h : Alike zone t₁ t₂) (h₁ : Does (l.forM f) t₁ (.ok ()) t₁')
    (h₂ : Does (l.forM f) t₂ (.ok ()) t₂') : Alike zone t₁' t₂' := by
  induction l generalizing t₁ t₂ with
  | nil =>
    obtain ⟨-, rfl⟩ := does_pure h₁
    obtain ⟨-, rfl⟩ := does_pure h₂
    exact h
  | cons a l ih =>
    obtain ⟨u₁, hfirst₁, hrest₁⟩ := does_forM_cons h₁
    obtain ⟨u₂, hfirst₂, hrest₂⟩ := does_forM_cons h₂
    exact ih (fun b hb => hf b (List.mem_cons_of_mem a hb))
      (hf a List.mem_cons_self h hfirst₁ hfirst₂) hrest₁ hrest₂

theorem alike_writeCopy (hfound : AllBelow dir found) (hsupport : ∀ p ∈ found.2, zone p.location)
    (h : Alike zone t₁ t₂) (h₁ : Does (writeCopy dir out found.1 found.2) t₁ (.ok ()) t₁')
    (h₂ : Does (writeCopy dir out found.1 found.2) t₂ (.ok ()) t₂') : Alike zone t₁' t₂' := by
  obtain ⟨⟨⟩, u₁, hfiles₁, hcopies₁⟩ := does_bind_ok h₁
  obtain ⟨⟨⟩, u₂, hfiles₂, hcopies₂⟩ := does_bind_ok h₂
  have hwritten : Alike zone u₁ u₂ := by
    refine alike_forM (fun e he {t₁ t₂ t₁' t₂'} h h₁ h₂ => ?_) h hfiles₁ hfiles₂
    obtain ⟨hframe₁, hwrote₁⟩ :=
      does_writePatched h.sound₁ (hfound.1 e he) (fun l hl => hl) h₁
    obtain ⟨hframe₂, hwrote₂⟩ :=
      does_writePatched h.sound₂ (hfound.1 e he) (fun l hl => hl) h₂
    exact h.wrote hframe₁.sound hframe₂.sound (hwrote₁ rfl) (hwrote₂ rfl)
  refine alike_forM (fun p hp {t₁ t₂ t₁' t₂'} h h₁ h₂ => ?_) hwritten hcopies₁ hcopies₂
  obtain ⟨hframe₁, hwrote₁⟩ := does_copySupport h.sound₁ (hfound.2 p hp) (fun l hl => hl) h₁
  obtain ⟨hframe₂, hwrote₂⟩ := does_copySupport h.sound₂ (hfound.2 p hp) (fun l hl => hl) h₂
  obtain ⟨bytes₁, hbytes₁, hwrote₁⟩ := hwrote₁ rfl
  obtain ⟨bytes₂, hbytes₂, hwrote₂⟩ := hwrote₂ rfl
  -- the file is copied from a place where the trees agree
  rw [h.agree _ (hsupport p hp), hbytes₂] at hbytes₁
  cases hbytes₁
  exact h.wrote hframe₁.sound hframe₂.sound hwrote₁ hwrote₂

/-- A copy with a patched file is written to a place whose path can be walked. -/
theorem walkable_of_writeCopy (ht : t.Sound) (hfound : AllBelow dir found) (hne : found.1 ≠ [])
    (h : Does (writeCopy dir out found.1 found.2) t (.ok ()) t') :
    walkableParts out = .ok out.parts := by
  obtain ⟨⟨⟩, u, hfiles, -⟩ := does_bind_ok h
  cases hentries : found.1 with
  | nil => exact absurd hentries hne
  | cons e rest =>
    rw [hentries] at hfiles
    obtain ⟨v, hfirst, -⟩ := does_forM_cons hfiles
    have hbelow := hfound.1 e (by rw [hentries]; exact List.mem_cons_self)
    obtain ⟨-, hwrote⟩ := does_writePatched ht hbelow (fun l hl => hl) hfirst
    exact walkableParts_of_prefix (prefix_join out (targetOf_spec out hbelow).2.1)
      (hwrote rfl).walkable

end Copies

/-- What is copied lies outside the output directory. -/
theorem outside_of_readModule (ht : t.Sound) (hseen : Seen base plan.call.directory)
    {found : ModuleFiles × List Path} (h : reads (readModule base plan) t = .ok found) :
    ∀ p ∈ found.2, Outside base.location p.location := by
  intro p hp
  obtain ⟨⟨row, -, hrow, rfl⟩, hnot⟩ := isBelow_readModule ht h p (.inr hp)
  rw [location_below _ hrow]
  refine .inr fun hbelow => ?_
  rw [hseen row hrow hbelow] at hnot
  cases hnot

/-- **One copy**, written twice: the trees agree on it afterwards as well. -/
theorem alike_writeModule {done : List String} (hdirect : Direct root output)
    (hopen₁ : IsRelative output → t₁.Opens root) (hopen₂ : IsRelative output → t₂.Opens root)
    (hname : IsName plan.call.name)
    {found : ModuleFiles × List Path} (hfound : AllBelow plan.call.directory found)
    (hne : found.1 ≠ []) (hsupport : ∀ p ∈ found.2, Outside (root.join output).location p.location)
    (h : Alike (Settled (root.join output) done) t₁ t₂) {n₁ n₂ : Nat}
    (h₁ : Does (writeModule (root.join output) plan found) t₁ (.ok n₁) t₁')
    (h₂ : Does (writeModule (root.join output) plan found) t₂ (.ok n₂) t₂') :
    n₁ = n₂ ∧ Alike (Settled (root.join output) (done ++ [plan.call.name])) t₁' t₂' := by
  obtain ⟨u₁, hclear₁, hwrite₁, rfl⟩ := does_writeModule_ok h₁
  obtain ⟨u₂, hclear₂, hwrite₂, rfl⟩ := does_writeModule_ok h₂
  refine ⟨rfl, ?_⟩
  have hframe₁ := confined_clearOld h.sound₁ hname (fun l hl => hl) hclear₁
  have hframe₂ := confined_clearOld h.sound₂ hname (fun l hl => hl) hclear₂
  have hcleared : Alike (Settled (root.join output) (done ++ [plan.call.name])) u₁ u₂ := by
    refine ⟨hframe₁.sound, hframe₂.sound, fun l hl => ?_⟩
    by_cases hcopy : (root.join output).location ++ [plan.call.name] <+: l
    · -- both places are empty
      rw [cleared h.sound₁ hdirect hopen₁ hname
          (walkable_of_writeCopy hframe₁.sound hfound hne hwrite₁) hclear₁ hcopy,
        cleared h.sound₂ hdirect hopen₂ hname
          (walkable_of_writeCopy hframe₂.sound hfound hne hwrite₂) hclear₂ hcopy]
    · have hold : Settled (root.join output) done l := by
        rcases hl with hl | ⟨name, hmem, hl⟩
        · exact .inl hl
        · rcases List.mem_append.1 hmem with hmem | hmem
          · exact .inr ⟨name, hmem, hl⟩
          · rw [List.mem_singleton.1 hmem] at hl
            exact absurd hl hcopy
      rw [hframe₁.file l hcopy, hframe₂.file l hcopy, h.agree l hold]
  exact alike_writeCopy hfound (fun p hp => .inl (hsupport p hp)) hcleared hwrite₁ hwrite₂

/-! ## One plan -/

/-- Two builds that have come equally far. -/
structure Parallel (root : Path) (output : String) (o₁ o₂ : Outcome) (t₁ t₂ : FileTree) : Prop where
  patched : o₁.patched = o₂.patched
  failed : o₁.failed = o₂.failed
  alike : Alike (Settled (root.join output) (o₁.patched.map Prod.fst)) t₁ t₂
  open₁ : IsRelative output → t₁.Opens root
  open₂ : IsRelative output → t₂.Opens root

/-- What a plan must be like for its module not to depend on the output directory. -/
structure Apart (base : Path) (plan : Plan) : Prop where
  name : IsName plan.call.name
  seen : Seen base plan.call.directory

/-- **One plan**, carried out twice. -/
theorem parallel_carryOut {o₁ o₂ o₁' o₂' : Outcome} (hdirect : Direct root output)
    (hplan : Apart (root.join output) plan) (hpatches : plan.patches ≠ [])
    (hnew : plan.call.name ∉ o₁.patched.map Prod.fst) (h : Parallel root output o₁ o₂ t₁ t₂)
    (h₁ : Does (carryOut root (root.join output) o₁ plan) t₁ (.ok o₁') t₁')
    (h₂ : Does (carryOut root (root.join output) o₂ plan) t₂ (.ok o₂') t₂') :
    Parallel root output o₁' o₂' t₁' t₂' ∧
      o₁'.patched.map Prod.fst ⊆ o₁.patched.map Prod.fst ++ [plan.call.name] := by
  have hframe₁ := (confined_carryOut h.alike.sound₁ hplan.name (fun l hl => hl) h₁).toFrame
  have hframe₂ := (confined_carryOut h.alike.sound₂ hplan.name (fun l hl => hl) h₂).toFrame
  have hread := agree_readModule h.alike.sound₁ h.alike.sound₂ hplan.seen
    fun l hl => h.alike.agree l (.inl hl)
  have hopen₁ := fun hrelative => opens_frame hdirect hrelative (h.open₁ hrelative) hframe₁
  have hopen₂ := fun hrelative => opens_frame hdirect hrelative (h.open₂ hrelative) hframe₂
  rcases does_carryOut_ok h₁ with ⟨found, n₁, hread₁, hwrite₁, rfl⟩ | ⟨key, stale₁, hread₁, hclear₁, rfl⟩ <;>
    rcases does_carryOut_ok h₂ with ⟨found', n₂, hread₂, hwrite₂, rfl⟩ |
      ⟨key', stale₂, hread₂, hclear₂, rfl⟩ <;>
    rw [hread₁, hread₂] at hread
  · -- both find the same files and write them
    cases hread trivial trivial
    obtain ⟨rfl, halike⟩ := alike_writeModule hdirect h.open₁ h.open₂ hplan.name
      (allBelow_readModule h.alike.sound₁ hread₁) (files_ne_nil hread₁ hpatches)
      (outside_of_readModule h.alike.sound₁ hplan.seen hread₁) h.alike hwrite₁ hwrite₂
    have hnames : (o₁.patched ++ [(plan.call.name, n₁)]).map Prod.fst =
        o₁.patched.map Prod.fst ++ [plan.call.name] := by simp
    refine ⟨⟨by rw [h.patched], h.failed, ?_, hopen₁, hopen₂⟩, ?_⟩
    · rwa [hnames]
    · rw [hnames]
      exact List.Subset.refl _
  · cases hread trivial trivial
  · cases hread trivial trivial
  · -- both find no resource, and what changes belongs to the copy that is not there
    cases hread trivial trivial
    refine ⟨⟨h.patched, by rw [h.failed], ?_, hopen₁, hopen₂⟩, List.subset_append_left _ _⟩
    exact h.alike.frames hframe₁ hframe₂ fun l hl => not_copy_of_settled hnew hl

/-- **All plans**, carried out twice. -/
theorem parallel_carryOuts {plans : List Plan} {o₁ o₂ o₁' o₂' : Outcome}
    (hdirect : Direct root output) (hplans : ∀ plan ∈ plans, Apart (root.join output) plan)
    (hpatches : ∀ plan ∈ plans, plan.patches ≠ []) (hnames : (plans.map (·.call.name)).Nodup)
    (hnew : ∀ plan ∈ plans, plan.call.name ∉ o₁.patched.map Prod.fst)
    (h : Parallel root output o₁ o₂ t₁ t₂)
    (h₁ : Does (plans.foldlM (carryOut root (root.join output)) o₁) t₁ (.ok o₁') t₁')
    (h₂ : Does (plans.foldlM (carryOut root (root.join output)) o₂) t₂ (.ok o₂') t₂') :
    Parallel root output o₁' o₂' t₁' t₂' := by
  induction plans generalizing o₁ o₂ t₁ t₂ with
  | nil =>
    obtain ⟨heq₁, rfl⟩ := does_pure h₁
    obtain ⟨heq₂, rfl⟩ := does_pure h₂
    cases heq₁
    cases heq₂
    exact h
  | cons plan rest ih =>
    rw [List.forall_mem_cons] at hplans hpatches hnew
    rw [List.map_cons, List.nodup_cons] at hnames
    rw [List.foldlM_cons] at h₁ h₂
    obtain ⟨p₁, u₁, hfirst₁, hrest₁⟩ := does_bind_ok h₁
    obtain ⟨p₂, u₂, hfirst₂, hrest₂⟩ := does_bind_ok h₂
    obtain ⟨hnext, hsub⟩ := parallel_carryOut hdirect hplans.1 hpatches.1 hnew.1 h hfirst₁ hfirst₂
    refine ih hplans.2 hpatches.2 hnames.2 (fun other hother hmem => ?_) hnext hrest₁ hrest₂
    rcases List.mem_append.1 (hsub hmem) with hmem | hmem
    · exact hnew.2 other hother hmem
    · exact hnames.1 (List.mem_map.2 ⟨other, hother, List.mem_singleton.1 hmem⟩)

/-! ## Whole builds -/

/-- How a build that carries out a schedule ends well. -/
theorem does_carryAll_ok (ht : t.Sound) {args : Arguments} {s : Schedule}
    (hnames : ∀ plan ∈ s.planList, IsName plan.call.name) {report : Report}
    (h : Does (carryAll root args s) t (.ok report) t') :
    ∃ o u, Does (s.planList.foldlM (carryOut root (root.join args.output.text)) ⟨[], [], []⟩) t
        (.ok o) u ∧ report.patched = o.patched ∧ report.failed = o.failed ∧
      ∀ l, args.skipManifest = true ∨ l ≠ (manifestPath root).location →
        t'.fileAt? l = u.fileAt? l := by
  rcases does_carryAll h with ⟨e, -, heq⟩ | ⟨o, u, hfold, hend⟩
  · cases heq
  refine ⟨o, u, hfold, ?_⟩
  have hsome : Confined (fun _ => True) (· ∈ (root.join args.output.text).way) t u :=
    confined_carryOuts ht (fun plan hplan => ⟨hnames plan hplan, fun l _ => trivial⟩) hfold
  have hframe : Confined (fun l => args.skipManifest = false ∧ l = (manifestPath root).location)
      (fun _ => False) u t' := confined_finish hsome.sound (fun hskip => ⟨hskip, rfl⟩) hend
  have hlast : ∀ l, args.skipManifest = true ∨ l ≠ (manifestPath root).location →
      t'.fileAt? l = u.fileAt? l := by
    refine fun l hl => hframe.file l fun hzone => hl.elim (fun hskip => ?_) fun hne => hne hzone.2
    rw [hzone.1] at hskip
    cases hskip
  rcases does_finish hend with ⟨-, -, heq⟩ | ⟨-, count, -, heq⟩
  · cases heq
    exact ⟨rfl, rfl, hlast⟩
  · cases count with
    | error e => cases heq
    | ok n =>
      cases heq
      exact ⟨rfl, rfl, hlast⟩

/-- **Builds do not depend on what is in the output directory.** Two trees that agree outside it, and
whose inputs lie outside it, lead to the same modules patched and failed, and to the same files in
each copy; only the manifest, should it lie in one, tells of what was there before. -/
theorem run_ignores_output {here : Path} {args : Arguments} {s₁ s₂ : Session}
    (hs₁ : s₁.tree.Sound) (hs₂ : s₂.tree.Sound)
    (hagree : ∀ l, Outside (outputOf here args).location l → s₁.tree.fileAt? l = s₂.tree.fileAt? l)
    (hinputs : ∀ l, IsInput here args l → s₁.tree.fileAt? l ≠ none ∨ s₂.tree.fileAt? l ≠ none →
      Outside (outputOf here args).location l)
    (hdirect : Direct (rootOf here args) args.output.text)
    (hplans : ∀ plan ∈ plansOf here args s₁.tree, Apart (outputOf here args) plan)
    {report₁ report₂ : Report} (h₁ : ((run here args).run s₁).1 = .ok report₁)
    (h₂ : ((run here args).run s₂).1 = .ok report₂) :
    report₁.patched = report₂.patched ∧ report₁.failed = report₂.failed ∧
      ∀ name n, (name, n) ∈ report₁.patched → ∀ l, (outputOf here args).location ++ [name] <+: l →
        args.skipManifest = true ∨ l ≠ (manifestPath (rootOf here args)).location →
        ((run here args).run s₁).2.tree.fileAt? l = ((run here args).run s₂).2.tree.fileAt? l := by
  have hsame : ∀ l, IsInput here args l → s₁.tree.fileAt? l = s₂.tree.fileAt? l := by
    intro l hl
    by_cases hnone : s₁.tree.fileAt? l = none ∧ s₂.tree.fileAt? l = none
    · rw [hnone.1, hnone.2]
    · exact hagree l (hinputs l hl (by simpa only [not_and_or] using hnone))
  have hrun₁ : Does (run here args) s₁.tree (.ok report₁) ((run here args).run s₁).2.tree :=
    ⟨s₁, rfl, h₁, rfl⟩
  have hrun₂ : Does (run here args) s₂.tree (.ok report₂) ((run here args).run s₂).2.tree :=
    ⟨s₂, rfl, h₂, rfl⟩
  -- the same inputs make the same plans, so both builds carry them out or neither
  have hplanned := agree_schedule hs₁ hs₂ hsame
  rcases does_run hrun₁ with ⟨-, hend₁⟩ | ⟨s, hread₁, hcarry₁⟩
  · -- without overlays nothing is patched
    obtain ⟨hread₁, rfl⟩ := hend₁ report₁ rfl
    rcases does_run hrun₂ with ⟨-, hend₂⟩ | ⟨s, hread₂, -⟩
    · obtain ⟨-, rfl⟩ := hend₂ report₂ rfl
      exact ⟨rfl, rfl, fun name n hmem => absurd hmem List.not_mem_nil⟩
    · rw [hread₁, hread₂] at hplanned
      cases hplanned trivial trivial
  rcases does_run hrun₂ with ⟨-, hend₂⟩ | ⟨s', hread₂, hcarry₂⟩
  · obtain ⟨hread₂, -⟩ := hend₂ report₂ rfl
    rw [hread₁, hread₂] at hplanned
    cases hplanned trivial trivial
  rw [hread₁, hread₂] at hplanned
  cases hplanned trivial trivial
  rw [plansOf_eq hread₁] at hplans
  have hnamed := named_of_schedule hread₁
  have hnames := fun plan hplan => (hplans plan hplan).name
  obtain ⟨o₁, u₁, hfold₁, hpatched₁, hfailed₁, hlast₁⟩ := does_carryAll_ok hs₁ hnames hcarry₁
  obtain ⟨o₂, u₂, hfold₂, hpatched₂, hfailed₂, hlast₂⟩ := does_carryAll_ok hs₂ hnames hcarry₂
  -- before the first plan the trees agree outside the output directory
  have hstart : Parallel (rootOf here args) args.output.text ⟨[], [], []⟩ ⟨[], [], []⟩ s₁.tree
      s₂.tree := by
    refine ⟨rfl, rfl, ⟨hs₁, hs₂, fun l hl => ?_⟩,
      fun _ => opens_of_isDirectory hs₁ (reads_schedule hread₁).1,
      fun _ => opens_of_isDirectory hs₂ (reads_schedule hread₂).1⟩
    rcases hl with hl | ⟨name, hmem, -⟩
    · exact hagree l hl
    · exact absurd hmem List.not_mem_nil
  have hend := parallel_carryOuts hdirect hplans hnamed.patches_ne_nil hnamed.nodup_planList
    (fun plan _ => List.not_mem_nil) hstart hfold₁ hfold₂
  refine ⟨by rw [hpatched₁, hpatched₂, hend.patched], by rw [hfailed₁, hfailed₂, hend.failed], ?_⟩
  intro name n hmem l hl hkeep
  rw [hlast₁ l hkeep, hlast₂ l hkeep]
  rw [hpatched₁] at hmem
  exact hend.alike.agree l (.inr ⟨name, List.mem_map_of_mem hmem, hl⟩)

/-- A module in the root directory does not take up what an earlier build left below it. -/
theorem run_ignores_output_inside :
    let file (text : String) : Node := .file text.toByteArray
    let t : FileTree := ⟨[(["r"], .directory),
      (["r", "main.tf"], file
        "module m \x7b\n  source = \"./\"\n\x7d\nresource k w \x7b\n  a = 1\n\x7d\n"),
      (["r", "o.kf.hcl"], file "patch k w \x7b\n  source = \"./\"\n  b = 1\n\x7d\n")]⟩
    let left : FileTree := ((t.put ["r", "out"] .directory).put ["r", "out", "m"] .directory).put
      ["r", "out", "m", "a.tf"] (file "resource k w \x7b\n  a = 2\n\x7d\n")
    let args : Arguments := ⟨⟨"/r"⟩, ⟨"o.kf.hcl"⟩, ⟨"out"⟩, true⟩
    let final (t : FileTree) := ((run ⟨"/"⟩ args).run ⟨t, [], []⟩).2.tree
    ((final t).fileAt? ["r", "out", "m", "main.tf"]).isSome = true ∧
      ∀ l, ["r", "out", "m"] <+: l → (final left).fileAt? l = (final t).fileAt? l := by
  intro file t left args final
  have hroot : (rootOf ⟨"/"⟩ args).location = ["r"] := by decide +kernel
  have hbase : (outputOf ⟨"/"⟩ args).location = ["r", "out"] := by decide +kernel
  have hoverlay : ((rootOf ⟨"/"⟩ args).join args.overlay.text).location = ["r", "o.kf.hcl"] := by
    decide +kernel
  have hagree : ∀ l, Outside ["r", "out"] l → left.fileAt? l = t.fileAt? l := by
    intro l hl
    have hm : l ≠ ["r", "out", "m"] := by rintro rfl; exact absurd hl (by decide)
    have ha : l ≠ ["r", "out", "m", "a.tf"] := by rintro rfl; exact absurd hl (by decide)
    rw [fileAt?_put_file (by simp), if_neg ha, fileAt?, lookup?_put (by simp), if_neg hm,
      lookup?_put (by simp)]
    split
    · next hout => rw [hout]; decide +kernel
    · rfl
  have hinputs : ∀ l, IsInput ⟨"/"⟩ args l → Outside ["r", "out"] l := by
    rintro l (⟨name, -, -, rfl⟩ | ⟨row, -, -, rfl⟩)
    · rw [hroot]
      by_cases hout : name = "out"
      · exact .inl (by rw [hout]; rfl)
      · exact .inr (by simpa [List.cons_prefix_cons] using Ne.symm hout)
    · rw [hoverlay]
      exact .inr (by simp [List.cons_prefix_cons])
  have hdirect : Direct (rootOf ⟨"/"⟩ args) args.output.text :=
    ⟨by decide +kernel, fun _ => by decide +kernel⟩
  -- both runs, evaluated once for all that is needed of them
  obtain ⟨hplanned, hran₁, hran₂, hcopied⟩ :
      (plansOf ⟨"/"⟩ args left).map (fun plan => (plan.call.name, plan.call.directory.text)) =
        [("m", "/r")] ∧
      ((run ⟨"/"⟩ args).run ⟨left, [], []⟩).1.toOption.map (·.patched) = some [("m", 1)] ∧
      ((run ⟨"/"⟩ args).run ⟨t, [], []⟩).1.toOption.map (·.patched) = some [("m", 1)] ∧
      ((final t).fileAt? ["r", "out", "m", "main.tf"]).isSome = true := by
    decide +kernel
  have hplans : ∀ plan ∈ plansOf ⟨"/"⟩ args left, Apart (outputOf ⟨"/"⟩ args) plan := by
    intro plan hplan
    have hmem := List.mem_map_of_mem (f := fun plan : Plan =>
      (plan.call.name, plan.call.directory.text)) hplan
    rw [hplanned, List.mem_singleton] at hmem
    have hdir : plan.call.directory = ⟨"/r"⟩ := congrArg Path.mk (Prod.mk.inj hmem).2
    refine ⟨?_, ?_⟩
    · rw [(Prod.mk.inj hmem).1]
      decide
    · rw [hdir]
      exact seen_of_plain (by decide +kernel) (by decide +kernel)
  obtain ⟨report₁, h₁, hpatched⟩ := exists_ok hran₁
  obtain ⟨report₂, h₂, -⟩ := exists_ok hran₂
  have hsame := @run_ignores_output ⟨"/"⟩ args ⟨left, [], []⟩ ⟨t, [], []⟩ (by decide +kernel)
    (by decide +kernel) (by rwa [hbase]) (fun l hl _ => by rw [hbase]; exact hinputs l hl) hdirect
    hplans report₁ report₂ h₁ h₂
  refine ⟨hcopied, fun l hl => ?_⟩
  refine hsame.2.2 "m" 1 (by rw [hpatched]; exact List.mem_singleton_self _) l ?_ (.inl rfl)
  rwa [hbase]

end HclOverlay.Build
