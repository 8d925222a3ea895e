import HclOverlay.Proofs.Build.Plans
import HclOverlay.Proofs.Manifest.Reading
import HclOverlay.Proofs.Manifest.Rewriting

/-!
# Where the manifest sends modules

A build removes the copies of modules that it cannot patch and, at its end, gives their entries of
the manifest back the directories they had. Along a history of builds, no entry is left that points
to a copy that is gone, unless a build failed after it had removed the copy.

* `ManifestOf`, `Holds`, `Redirected` — the manifest of a tree, and the entries that point to copies.
* `Tended`, `tended_carryOuts` — what plans do to the copies in the output directory.
* `does_finish_ok`, `places_of_run`, `manifest_of_failure` — what a build makes of the manifest.
* `History`, `Lost` — builds and other changes in order, and what failed builds have taken.
* `redirects_lead_somewhere` — **no redirect dangles** along a history, but for what was lost.
-/

namespace HclOverlay.Build

open Work FileTree HclOverlay.Path

variable {t t' u : FileTree} {root base : Path} {plan : Plan} {plans : List Plan}

/-! ## Copies and the manifest -/

/-- Where the copy of a module is. -/
def copyAt (root output : Path) (name : String) : Location :=
  (root.join output.text).location ++ [name]

/-- A tree has a manifest that can be read. -/
def ManifestOf (root : Path) (t : FileTree) (m : Manifest) : Prop :=
  ∃ bytes text, t.fileAt? (manifestPath root).location = some bytes ∧
    String.fromUTF8? bytes = some text ∧ Manifest.read? text = some m

/-- The manifest has a module whose directory denotes a copy in one of the output directories. -/
structure Redirected (root : Path) (outputs : List Path) (t : FileTree) (key dir : String)
    (output : Path) (name : String) : Prop where
  known : output ∈ outputs
  entry : ∃ m, ManifestOf root t m ∧ (key, dir) ∈ m.places
  place : (root.join dir).location = copyAt root output name

theorem ManifestOf.congr {m : Manifest} (h : ManifestOf root t m)
    (hfile : t'.fileAt? (manifestPath root).location = t.fileAt? (manifestPath root).location) :
    ManifestOf root t' m := by
  obtain ⟨bytes, text, hbytes, htext, hm⟩ := h
  exact ⟨bytes, text, by rw [hfile, hbytes], htext, hm⟩

theorem Redirected.congr {outputs : List Path} {key dir name : String} {output : Path}
    (h : Redirected root outputs t key dir output name)
    (hfile : t'.fileAt? (manifestPath root).location = t.fileAt? (manifestPath root).location) :
    Redirected root outputs t' key dir output name := by
  obtain ⟨m, hm, hmem⟩ := h.entry
  exact ⟨h.known, ⟨m, hm.congr hfile, hmem⟩, h.place⟩

theorem ManifestOf.of_readText (ht : t.Sound) {text : String} {m : Manifest}
    (htext : t.readText (manifestPath root) = .ok text) (hm : Manifest.read? text = some m) :
    ManifestOf root t m := by
  obtain ⟨bytes, hbytes, hutf⟩ := readText_eq_ok ht htext
  exact ⟨bytes, text, hbytes, hutf, hm⟩

theorem ManifestOf.unique {m m' : Manifest} (h : ManifestOf root t m) (h' : ManifestOf root t m') :
    m = m' := by
  obtain ⟨bytes, text, hbytes, htext, hm⟩ := h
  obtain ⟨bytes', text', hbytes', htext', hm'⟩ := h'
  rw [hbytes] at hbytes'
  cases hbytes'
  rw [htext] at htext'
  cases htext'
  rw [hm] at hm'
  exact Option.some.inj hm'

/-- A tree has a manifest: it is read, or it is the one that was printed. -/
def Holds (root : Path) (t : FileTree) (m : Manifest) : Prop :=
  ManifestOf root t m ∨
    t.fileAt? (manifestPath root).location = some m.print.toByteArray

theorem fromUTF8?_toByteArray (s : String) : String.fromUTF8? s.toByteArray = some s := by
  rw [String.fromUTF8?, dif_pos s.isValidUTF8]
  rfl

/-- Reading a manifest gives its places. -/
theorem Holds.places {m m' : Manifest} (h : Holds root t m) (hread : ManifestOf root t m') :
    m'.places = m.places := by
  rcases h with h | h
  · rw [hread.unique h]
  · obtain ⟨bytes, text, hbytes, htext, hm⟩ := hread
    rw [h] at hbytes
    cases hbytes
    rw [fromUTF8?_toByteArray] at htext
    cases htext
    exact Manifest.places_of_read? hm

/-! ## Copies that are there -/

/-- A tree with a file in a place. -/
structure HasFile (l : Location) (t : FileTree) : Prop where
  sound : t.Sound
  file : t.fileAt? l ≠ none

theorem HasFile.wrote {l : Location} (h : HasFile l t) (ht' : t'.Sound) {target : Path}
    {bytes : ByteArray} (hwrote : Wrote target bytes t t') : HasFile l t' := by
  refine ⟨ht', ?_⟩
  rw [hwrote.fileAt?]
  split
  · exact Option.some_ne_none _
  · exact h.file

section Written

variable {dir out : Path} {l : Location}

theorem HasFile.writePatched {files : ModuleFiles} (hfiles : ∀ e ∈ files, IsBelow dir e.1)
    (h : HasFile l t) (hdone : Does (files.forM (writePatched dir out)) t (.ok ()) t') :
    HasFile l t' := by
  refine does_forM_ok (fun e he {t t'} h hfile => ?_) h hdone
  obtain ⟨hframe, hwrote⟩ := does_writePatched h.sound (hfiles e he) (fun _ hl => hl) hfile
  exact h.wrote hframe.sound (hwrote rfl)

theorem HasFile.copySupport {files : List Path} (hfiles : ∀ p ∈ files, IsBelow dir p)
    (h : HasFile l t) (hdone : Does (files.forM (copySupport dir out)) t (.ok ()) t') :
    HasFile l t' := by
  refine does_forM_ok (fun p hp {t t'} h hfile => ?_) h hdone
  obtain ⟨hframe, hwrote⟩ := does_copySupport h.sound (hfiles p hp) (fun _ hl => hl) hfile
  obtain ⟨bytes, -, hwrote⟩ := hwrote rfl
  exact h.wrote hframe.sound hwrote

/-- The first file of a copy stays, whatever is written after it. -/
theorem hasFile_of_writeCopy (ht : t.Sound) {found : ModuleFiles × List Path}
    (hfound : AllBelow dir found) (hne : found.1 ≠ [])
    (h : Does (writeCopy dir out found.1 found.2) t (.ok ()) t') :
    ∃ e ∈ found.1, ∃ u, Does (writePatched dir out e) t (.ok ()) u ∧
      Frame (out.location <+: ·) u t' ∧ HasFile (targetOf dir out e.1).location t' := by
  obtain ⟨⟨⟩, v, hfiles, hcopies⟩ := does_bind_ok h
  have hbelow := hfound.1
  obtain ⟨e, rest, hentries⟩ := List.exists_cons_of_ne_nil hne
  rw [hentries] at hfiles hbelow ⊢
  obtain ⟨u, hfirst, hrest⟩ := does_forM_cons hfiles
  obtain ⟨hhead, htail⟩ := List.forall_mem_cons.1 hbelow
  obtain ⟨hframe, hwrote⟩ := does_writePatched ht hhead (fun _ hl => hl) hfirst
  have hstart : HasFile (targetOf dir out e.1).location u := by
    refine ⟨hframe.sound, ?_⟩
    rw [(hwrote rfl).fileAt?, if_pos rfl]
    exact Option.some_ne_none _
  refine ⟨e, List.mem_cons_self, u, hfirst, ?_,
    (hstart.writePatched htail hrest).copySupport hfound.2 hcopies⟩
  have hmore : Confined (out.location <+: ·) (· ∈ out.way) u v :=
    confined_forM (fun e he t r t' ht h => (does_writePatched ht (htail e he) (fun _ hl => hl) h).1)
      hframe.sound hrest
  exact (hmore.trans (confined_forM (fun p hp t r t' ht h =>
    (does_copySupport ht (hfound.2 p hp) (fun _ hl => hl) h).1) hmore.sound hcopies)).toFrame

/-- A copy that has been written is a directory. -/
theorem lookup?_of_writeCopy (ht : t.Sound) {found : ModuleFiles × List Path}
    (hfound : AllBelow dir found) (hne : found.1 ≠ [])
    (h : Does (writeCopy dir out found.1 found.2) t (.ok ()) t') :
    t'.lookup? out.location = some .directory := by
  obtain ⟨e, he, u, -, -, hfile⟩ := hasFile_of_writeCopy ht hfound hne h
  obtain ⟨bytes, hbytes⟩ := Option.ne_none_iff_exists'.1 hfile.file
  obtain ⟨-, -, row, hrow, -, htarget⟩ := targetOf_spec out (hfound.1 e he)
  rw [htarget] at hbytes
  exact hfile.sound.lookup?_append (fileAt?_eq_some.1 hbytes) hrow

end Written

/-! ## What plans do to copies -/

/-- The modules whose copies are other ones than before, or gone. -/
def Outcome.changed (o : Outcome) : List String := o.patched.map Prod.fst ++ o.restore.map Prod.fst

/-- What plans have done so far: only copies that the outcome names have changed, those of patched
modules are there, and modules are given back the directories of their plans. -/
structure Tended (root base : Path) (plans : List Plan) (t : FileTree) (o : Outcome)
    (t' : FileTree) : Prop where
  frame : Frame (fun l => ∃ name ∈ o.changed, base.location ++ [name] <+: l) t t'
  patched : ∀ name ∈ o.patched.map Prod.fst,
    t'.lookup? (base.location ++ [name]) = some .directory
  restore : ∀ e ∈ o.restore, ∃ plan ∈ plans, plan.call.name = e.1 ∧
    manifestDirectory root plan.call.directory = e.2
  planned : ∀ name ∈ o.changed, ∃ plan ∈ plans, plan.call.name = name

theorem eq_of_prefix_copy {name other : String}
    (h : base.location ++ [name] <+: base.location ++ [other]) : name = other := by
  have heq := h.eq_of_length (by simp)
  rw [List.append_cancel_left_eq] at heq
  exact (List.cons.inj heq).1

theorem tended_nothing (ht : t.Sound) : Tended root base plans t ⟨[], [], []⟩ t where
  frame := .refl _ ht
  patched := fun _ h => absurd h List.not_mem_nil
  restore := fun _ h => absurd h List.not_mem_nil
  planned := fun _ h => absurd h List.not_mem_nil

/-- A change to one more copy: the copies of patched modules stay. -/
theorem Tended.later {o : Outcome} {name : String} (h : Tended root base plans t o u)
    (hframe : Frame (base.location ++ [name] <+: ·) u t') (hnew : name ∉ o.changed) :
    Frame (fun l => ∃ other, (other ∈ o.changed ∨ other = name) ∧
        base.location ++ [other] <+: l) t t' ∧
      ∀ other ∈ o.patched.map Prod.fst,
        t'.lookup? (base.location ++ [other]) = some .directory := by
  refine ⟨(h.frame.mono fun l hl => ?_).trans (hframe.mono fun l hl => ?_), fun other hother => ?_⟩
  · obtain ⟨other, hother, hl⟩ := hl
    exact ⟨other, .inl hother, hl⟩
  · exact ⟨name, .inr rfl, hl⟩
  · refine hframe.directory _ (fun hprefix => hnew ?_) (h.patched other hother)
    rw [eq_of_prefix_copy hprefix]
    exact List.mem_append_left _ hother

/-- **One plan** more. -/
theorem tended_carryOut {o o' : Outcome} (hplan : plan ∈ plans) (hname : IsName plan.call.name)
    (hpatches : plan.patches ≠ []) (hnew : plan.call.name ∉ o.changed)
    (h : Tended root base plans t o u) (hdo : Does (carryOut root base o plan) u (.ok o') t') :
    Tended root base plans t o' t' ∧
      ∀ name ∈ o'.changed, name ∈ o.changed ∨ name = plan.call.name := by
  have hs := h.frame.sound
  have hnow : ∀ {name}, name = plan.call.name → ∃ plan ∈ plans, plan.call.name = name :=
    fun heq => ⟨plan, hplan, heq.symm⟩
  obtain ⟨hframe, hkept⟩ := h.later (confined_carryOut hs hname (fun l hl => hl) hdo).toFrame hnew
  rcases does_carryOut_ok hdo with ⟨found, n, hread, hwrite, rfl⟩ | ⟨key, stale, -, hclear, rfl⟩
  · -- the module is patched, and its new copy is there
    obtain ⟨v, hcleared, hwritten, -⟩ := does_writeModule_ok hwrite
    have hthere := lookup?_of_writeCopy (confined_clearOld hs hname (fun l hl => hl) hcleared).sound
      (allBelow_readModule hs hread) (files_ne_nil hread hpatches) hwritten
    rw [location_join_name base hname] at hthere
    have hchanged : ∀ name, name ∈ Outcome.changed
        { o with patched := o.patched ++ [(plan.call.name, n)] } ↔
          name ∈ o.changed ∨ name = plan.call.name := by
      intro name
      simp only [Outcome.changed, List.map_append, List.mem_append, List.map_cons, List.map_nil,
        List.mem_singleton]
      exact or_right_comm
    refine ⟨⟨by simpa only [hchanged] using hframe, fun name hmem => ?_, h.restore,
      fun name hmem => ((hchanged name).1 hmem).elim (h.planned name) hnow⟩,
      fun name => (hchanged name).1⟩
    rw [List.map_append, List.mem_append] at hmem
    rcases hmem with hold | hmem
    · exact hkept name hold
    · rw [List.mem_singleton.1 hmem]
      exact hthere
  · rcases does_clearStale hs hname hclear with ⟨hfalse, rfl, -⟩ | ⟨htrue, -, -⟩ | ⟨e, heq, -⟩
    · -- there was no copy
      cases hfalse
      simp only [Bool.false_eq_true, if_false, List.append_nil]
      exact ⟨⟨h.frame, h.patched, h.restore, h.planned⟩, fun name hname => .inl hname⟩
    · -- the copy is gone, and the module is given back its directory
      cases htrue
      simp only [if_true]
      have hchanged : ∀ name, name ∈ Outcome.changed
          { o with
            failed := o.failed ++ [(plan.call.name, .resourceNotFound key)]
            restore := o.restore ++
              [(plan.call.name, manifestDirectory root plan.call.directory)] } ↔
            name ∈ o.changed ∨ name = plan.call.name := by
        intro name
        simp only [Outcome.changed, List.map_append, List.mem_append, List.map_cons, List.map_nil,
          List.mem_singleton]
        exact or_assoc.symm
      refine ⟨⟨by simpa only [hchanged] using hframe, hkept, fun e he => ?_,
        fun name hmem => ((hchanged name).1 hmem).elim (h.planned name) hnow⟩,
        fun name => (hchanged name).1⟩
      rcases List.mem_append.1 he with hold | he
      · exact h.restore e hold
      · rw [List.mem_singleton.1 he]
        exact ⟨plan, hplan, rfl, rfl⟩
    · cases heq

/-- **All plans**, each for a module of its own. -/
theorem tended_carryOuts {o : Outcome} (ht : t.Sound)
    (hnames : ∀ plan ∈ plans, IsName plan.call.name) (hpatches : ∀ plan ∈ plans, plan.patches ≠ [])
    (hnodup : (plans.map (·.call.name)).Nodup)
    (hdo : Does (plans.foldlM (carryOut root base) ⟨[], [], []⟩) t (.ok o) u) :
    Tended root base plans t o u := by
  refine (does_carryOuts (P := fun done o u => Tended root base plans t o u ∧
    o.changed ⊆ done.map (·.call.name)) (fun hinitial h hdo => ?_)
    ⟨tended_nothing ht, List.Subset.refl _⟩ hdo).1
  obtain ⟨htended, hchanged⟩ := h
  have hplan := hinitial.subset (List.mem_append_right _ (List.mem_singleton_self _))
  obtain ⟨hnext, hmore⟩ := tended_carryOut hplan (hnames _ hplan) (hpatches _ hplan)
    (fun hmem => name_not_mem_of_initial hnodup hinitial (hchanged hmem)) htended hdo
  refine ⟨hnext, fun name hname => ?_⟩
  rw [List.map_append, List.mem_append]
  exact (hmore name hname).imp (fun hmem => hchanged hmem) fun heq => by simp [heq]

/-! ## What builds make of the manifest -/

/-- What a build needs that does not damage the manifest: it works on the same root and updates the
manifest, its modules have plain names, no copy of theirs lies on the way to the manifest, and no
module that is given back its directory gets that of a copy. -/
structure Fits (root : Path) (outputs : List Path) (here : Path) (args : Arguments)
    (t : FileTree) : Prop where
  rooted : rootOf here args = root
  known : args.output ∈ outputs
  updates : args.skipManifest = false
  named : ∀ plan ∈ plansOf here args t, IsName plan.call.name
  apart : ∀ plan ∈ plansOf here args t,
    ¬copyAt root args.output plan.call.name <+: (manifestPath root).location
  original : ∀ plan ∈ plansOf here args t, ∀ output ∈ outputs, ∀ name,
    (root.join (manifestDirectory root plan.call.directory)).location ≠ copyAt root output name

/-- The redirections of an outcome. -/
def Outcome.redirection (o : Outcome) (output : Path) : Manifest.Redirection :=
  ⟨output, o.patched.map Prod.fst, o.restore⟩

theorem places_manifest (r : Manifest.Redirection) (m : Manifest) :
    (r.manifest m).places = m.entries.map fun e => (e.key, (r.target? e).getD e.dir) := by
  rw [Manifest.places, Manifest.Redirection.manifest, List.map_map]
  rfl

/-- A redirection that changes no entry keeps the places. -/
theorem places_of_count {r : Manifest.Redirection} {m : Manifest} (h : r.count m = 0) :
    (r.manifest m).places = m.places := by
  rw [Manifest.manifest_of_count h]

/-- An outcome without changes redirects nothing. -/
theorem count_of_changed_nil {o : Outcome} (h : o.changed = []) (output : Path) (m : Manifest) :
    (o.redirection output).count m = 0 := by
  obtain ⟨hpatched, hrestore⟩ := List.append_eq_nil_iff.1 h
  refine List.countP_eq_zero.2 fun e _ => ?_
  have htarget : (o.redirection output).target? e = none := by
    rw [Manifest.Redirection.target?, Outcome.redirection, hpatched, List.map_eq_nil_iff.1 hrestore]
    simp [Table.find?]
  simp [Manifest.Redirection.changes, Manifest.Redirection.entry, htarget]

/-- **The end of a build that succeeds**: nothing is to be redirected, or the places of the manifest
follow the outcome of the plans. -/
theorem does_finish_ok (ht : t.Sound) {args : Arguments} (hupdates : args.skipManifest = false)
    {s : Schedule} {o : Outcome} {report : Report}
    (h : Does (finish root args s o) t (.ok report) t') :
    report.patched = o.patched ∧ report.failed = o.failed ∧
      Frame (· = (manifestPath root).location) t t' ∧
      ((o.changed = [] ∧ t' = t) ∨ ∃ m m', ManifestOf root t m ∧ Holds root t' m' ∧
        m'.places = ((o.redirection args.output).manifest m).places) := by
  rcases does_finish h with ⟨hskip, rfl, heq⟩ | ⟨-, count, hupdate, heq⟩
  · rw [hupdates, Bool.false_or, Bool.and_eq_true, List.isEmpty_iff, List.isEmpty_iff] at hskip
    cases heq
    exact ⟨rfl, rfl, .refl _ ht, .inl ⟨by rw [Outcome.changed, hskip.1, hskip.2]; rfl, rfl⟩⟩
  have hframe : Confined (· = (manifestPath root).location) (fun _ => False) t t' :=
    confined_updateManifest ht rfl hupdate
  cases count with
  | error e => cases heq
  | ok n =>
    cases heq
    refine ⟨rfl, rfl, hframe.toFrame, .inr ?_⟩
    rcases does_updateManifest hupdate with ⟨rfl, hsame⟩ | ⟨text, m, write, htext, hm, hwrite, hok⟩
    · obtain ⟨text, m, htext, hm, hcount⟩ := hsame n rfl
      have hm := ManifestOf.of_readText ht htext hm
      exact ⟨m, m, hm, .inl hm, (places_of_count hcount).symm⟩
    · cases write with
      | error e => cases hok
      | ok done =>
        have hwrote : Confined (fun _ => True) (fun _ => False) t t' ∧
            (Except.ok done = .ok () → Wrote _ _ t t') := does_writeFile ht hwrite trivial
        refine ⟨m, _, .of_readText ht htext hm, .inr ?_, rfl⟩
        rw [(hwrote.2 rfl).fileAt?, if_pos rfl]
        rfl

section Manifests

variable {outputs : List Path} {here : Path} {args : Arguments}

/-- Plans leave the manifest as it was. -/
theorem manifest_of_plans (ht : t.Sound) (hfits : Fits root outputs here args t) {s : Schedule}
    (hs : reads (schedule here args) t = .ok (some s)) {r : Except Failure Outcome}
    (h : Does (s.planList.foldlM (carryOut root (root.join args.output.text)) ⟨[], [], []⟩) t r u) :
    u.Sound ∧ u.fileAt? (manifestPath root).location = t.fileAt? (manifestPath root).location := by
  have hplans : ∀ plan ∈ s.planList, IsName plan.call.name ∧
      ∀ l, copyAt root args.output plan.call.name <+: l →
        ∃ plan ∈ plansOf here args t, copyAt root args.output plan.call.name <+: l := by
    rw [← plansOf_eq hs]
    exact fun plan hplan => ⟨hfits.named plan hplan, fun l hl => ⟨plan, hplan, hl⟩⟩
  have hframe := confined_carryOuts ht hplans h
  exact ⟨hframe.sound, hframe.file _ fun ⟨plan, hplan, hl⟩ => hfits.apart plan hplan hl⟩

/-- A file that cannot be written stays as it is. -/
theorem eq_of_writeFile_error (ht : t.Sound) {p : Path} {bytes : ByteArray} {e : Failure}
    (h : Does (onFile p (writeFile p bytes)) t (.error e) t') : t' = t := by
  obtain ⟨hr, rfl⟩ := does_onFile h
  rcases writeFile_cases ht p bytes with ⟨e', hfail⟩ | ⟨hdone, -⟩
  · rw [hfail]
  · rw [hdone] at hr
    cases hr

/-- **A build that fails** leaves the manifest as it was. -/
theorem manifest_of_failure (ht : t.Sound) (hfits : Fits root outputs here args t) {e : Failure}
    (h : Does (run here args) t (.error e) t') :
    t'.Sound ∧
      t'.fileAt? (manifestPath root).location = t.fileAt? (manifestPath root).location := by
  rcases does_run h with ⟨rfl, -⟩ | ⟨s, hs, hcarry⟩
  · exact ⟨ht, rfl⟩
  rw [hfits.rooted] at hcarry
  rcases does_carryAll hcarry with ⟨e, hfold, -⟩ | ⟨o, u, hfold, hend⟩
  · exact manifest_of_plans ht hfits hs hfold
  rcases does_finish hend with ⟨-, -, heq⟩ | ⟨-, count, hupdate, heq⟩
  · cases heq
  · have hplans := manifest_of_plans ht hfits hs hfold
    rcases does_updateManifest hupdate with ⟨rfl, -⟩ | ⟨text, m, write, -, -, hwrite, rfl⟩
    · exact hplans
    · cases write with
      | ok => cases heq
      | error e =>
        rw [eq_of_writeFile_error hplans.1 hwrite]
        exact hplans

/-- **A build that succeeds** redirects the places of the manifest as its outcome says. -/
theorem places_of_run (ht : t.Sound) (hfits : Fits root outputs here args t) {report : Report}
    (h : Does (run here args) t (.ok report) t') :
    ∃ o u, Tended root (root.join args.output.text) (plansOf here args t) t o u ∧
      Frame (· = (manifestPath root).location) u t' ∧
      ∀ m', ManifestOf root t' m' → ∃ m, ManifestOf root t m ∧
        m'.places = ((o.redirection args.output).manifest m).places := by
  rcases does_run h with ⟨rfl, -⟩ | ⟨s, hs, hcarry⟩
  · refine ⟨⟨[], [], []⟩, t', tended_nothing ht, .refl _ ht, fun m hm => ⟨m, hm, ?_⟩⟩
    exact (places_of_count (count_of_changed_nil rfl _ m)).symm
  rw [hfits.rooted] at hcarry
  rcases does_carryAll hcarry with ⟨e, -, heq⟩ | ⟨o, u, hfold, hend⟩
  · cases heq
  have hnamed := named_of_schedule hs
  have hplanned := plansOf_eq hs
  have htended : Tended root (root.join args.output.text) (plansOf here args t) t o u := by
    have hnames := hfits.named
    rw [hplanned] at hnames ⊢
    exact tended_carryOuts ht hnames hnamed.patches_ne_nil hnamed.nodup_planList hfold
  have hmanifest := (manifest_of_plans ht hfits hs hfold).2
  obtain ⟨-, -, hframe, hend⟩ := does_finish_ok htended.frame.sound hfits.updates hend
  refine ⟨o, u, htended, hframe, fun m' hm' => ?_⟩
  rcases hend with ⟨hnone, rfl⟩ | ⟨m, printed, hm, hheld, hplaces⟩
  · exact ⟨m', hm'.congr hmanifest.symm, (places_of_count (count_of_changed_nil hnone _ m')).symm⟩
  · exact ⟨m, hm.congr hmanifest.symm, (hheld.places hm').trans hplaces⟩

end Manifests

/-! ## Entries that point to copies -/

/-- No output directory lies at or below another one. -/
def Separate (root : Path) (outputs : List Path) : Prop :=
  ∀ output ∈ outputs, ∀ other ∈ outputs,
    (root.join output.text).location <+: (root.join other.text).location → output = other

/-- Entries that point to a copy belong to the module of the copy and write its path as builds do,
and the copy is there unless it was lost. -/
structure Anchored (root : Path) (outputs : List Path) (lost : Location → Prop) (t : FileTree) :
    Prop where
  spelled : ∀ {key dir output name}, Redirected root outputs t key dir output name →
    key = name ∧ dir = (output.join name).text
  there : ∀ {key dir output name}, Redirected root outputs t key dir output name →
    t.lookup? (copyAt root output name) = some .directory ∨ lost (copyAt root output name)

theorem target?_cases (r : Manifest.Redirection) (e : Manifest.Entry) :
    (e.key ∈ r.patched ∧ r.target? e = some (r.copyOf e.key)) ∨
      (∃ dir, r.restore.find? e.key = some dir ∧ r.target? e = some dir) ∨
      (r.target? e = none ∧ (e.key = "" ∨
        e.key ∉ r.patched ∧ (e.dir = r.copyOf e.key → r.restore.find? e.key = none))) := by
  unfold Manifest.Redirection.target?
  split
  · next hkey => exact .inr (.inr ⟨rfl, .inl (by simpa using hkey)⟩)
  split
  · next hpatched => exact .inl ⟨by simpa using hpatched, rfl⟩
  next hnot =>
  have hnot : e.key ∉ r.patched := by simpa using hnot
  split
  · cases hfind : r.restore.find? e.key with
    | none => exact .inr (.inr ⟨rfl, .inr ⟨hnot, fun _ => rfl⟩⟩)
    | some dir => exact .inr (.inl ⟨dir, rfl, rfl⟩)
  · next hdir => exact .inr (.inr ⟨rfl, .inr ⟨hnot, fun heq => absurd heq (by simpa using hdir)⟩⟩)

section Anchors

variable {outputs : List Path} {here : Path} {args : Arguments} {lost : Location → Prop}

/-- Only copies in the output directory of a build are its copies. -/
theorem Separate.eq (hsep : Separate root outputs) {output other : Path} (ho : output ∈ outputs)
    (ho' : other ∈ outputs) {name name' : String}
    (h : copyAt root output name <+: copyAt root other name') : output = other ∧ name = name' := by
  have hbase : (root.join output.text).location <+: (root.join other.text).location := by
    rcases List.prefix_concat_iff.1 h with heq | hprefix
    · exact (List.append_inj' heq rfl).1 ▸ List.prefix_refl _
    · exact (List.prefix_append _ _).trans hprefix
  obtain rfl := hsep output ho other ho' hbase
  exact ⟨rfl, eq_of_prefix_copy h⟩

/-- A copy is kept unless it is one of those that have changed. -/
theorem Tended.keeps {o : Outcome} (h : Tended root (root.join args.output.text) plans t o u)
    (hsep : Separate root outputs) (hknown : args.output ∈ outputs) {output : Path}
    (ho : output ∈ outputs) {name : String}
    (hthere : t.lookup? (copyAt root output name) = some .directory) :
    (args.output = output ∧ name ∈ o.changed) ∨
      u.lookup? (copyAt root output name) = some .directory := by
  by_cases hzone : ∃ other ∈ o.changed,
      (root.join args.output.text).location ++ [other] <+: copyAt root output name
  · obtain ⟨other, hother, hprefix⟩ := hzone
    obtain ⟨heq, rfl⟩ := hsep.eq hknown ho hprefix
    exact .inl ⟨heq, hother⟩
  · exact .inr (h.frame.directory _ hzone hthere)

/-- An entry after a build that succeeds was there before. -/
theorem Redirected.before {r : Manifest.Redirection} {key dir name : String} {output : Path}
    (h : Redirected root outputs t' key dir output name)
    (hplaces : ∀ m', ManifestOf root t' m' → ∃ m, ManifestOf root t m ∧
      m'.places = (r.manifest m).places) :
    ∃ m e, ManifestOf root t m ∧ e ∈ m.entries ∧ e.key = key ∧ (r.target? e).getD e.dir = dir := by
  obtain ⟨m', hm', hmem⟩ := h.entry
  obtain ⟨m, hm, heq⟩ := hplaces m' hm'
  rw [heq, places_manifest] at hmem
  obtain ⟨e, he, hplace⟩ := List.mem_map.1 hmem
  exact ⟨m, e, hm, he, Prod.mk.inj hplace⟩

/-- **A build that succeeds** leaves no entry without its copy. -/
theorem Anchored.build_ok (hsep : Separate root outputs) (ht : t.Sound)
    (hfits : Fits root outputs here args t) {report : Report}
    (h : Does (run here args) t (.ok report) t') (hanchored : Anchored root outputs lost t) :
    Anchored root outputs lost t' := by
  obtain ⟨o, u, htended, hframe, hplaces⟩ := places_of_run ht hfits h
  have hplanned : ∀ name ∈ o.changed, IsName name ∧
      copyAt root args.output name ≠ (manifestPath root).location := by
    intro name hname
    obtain ⟨plan, hplan, rfl⟩ := htended.planned name hname
    exact ⟨hfits.named plan hplan, fun heq =>
      hfits.apart plan hplan (heq ▸ List.prefix_refl _)⟩
  suffices hall : ∀ {key dir output name}, Redirected root outputs t' key dir output name →
      (key = name ∧ dir = (output.join name).text) ∧
        (t'.lookup? (copyAt root output name) = some .directory ∨
          lost (copyAt root output name)) from
    ⟨fun h => (hall h).1, fun h => (hall h).2⟩
  intro key dir output name hredirected
  obtain ⟨m, e, hm, he, rfl, rfl⟩ := hredirected.before hplaces
  have hplace := hredirected.place
  rcases target?_cases (o.redirection args.output) e with ⟨hpatched, htarget⟩ |
    ⟨dir, hrestored, htarget⟩ | ⟨htarget, hnone⟩
  · -- the entry is sent to the new copy
    obtain ⟨hname, hmanifest⟩ := hplanned e.key (List.mem_append_left _ hpatched)
    rw [htarget, Option.getD_some] at hplace ⊢
    have hcopy : copyAt root args.output e.key = copyAt root output name :=
      (location_join_join root args.output hname).symm.trans hplace
    have hprefix : copyAt root args.output e.key <+: copyAt root output name :=
      hcopy ▸ List.prefix_refl _
    obtain ⟨rfl, rfl⟩ := hsep.eq hfits.known hredirected.known hprefix
    exact ⟨⟨rfl, rfl⟩, .inl (hframe.directory _ hmanifest (htended.patched _ hpatched))⟩
  · -- the entry is given back the directory of its module, which is no copy
    obtain ⟨plan, hplan, -, hdir⟩ := htended.restore _ (Table.mem_of_find? hrestored)
    change manifestDirectory root plan.call.directory = dir at hdir
    rw [htarget, Option.getD_some, ← hdir] at hplace
    exact absurd hplace (hfits.original plan hplan output hredirected.known name)
  · -- the entry stays, and so does the copy
    rw [htarget, Option.getD_none] at hplace ⊢
    have hbefore : Redirected root outputs t e.key e.dir output name :=
      ⟨hredirected.known, ⟨m, hm, List.mem_map_of_mem he⟩, hplace⟩
    obtain ⟨hkey, hdir⟩ := hanchored.spelled hbefore
    refine ⟨⟨hkey, hdir⟩, (hanchored.there hbefore).imp_left fun hthere => ?_⟩
    rcases htended.keeps hsep hfits.known hredirected.known hthere with ⟨houtput, hchanged⟩ | hkept
    · exfalso
      rw [← houtput, ← hkey] at hdir
      rw [← hkey] at hchanged
      rcases hnone with hempty | ⟨hpatched, hrestore⟩
      · rw [hempty] at hchanged
        exact absurd (hplanned "" hchanged).1 (by decide)
      · exact (List.mem_append.1 hchanged).elim hpatched
          (Table.not_mem_keys_of_find? (hrestore hdir))
    · refine hframe.directory _ (fun heq => ?_) hkept
      obtain ⟨bytes, text, hbytes, -⟩ := hm
      rw [← heq, fileAt?_of_directory hthere] at hbytes
      cases hbytes

/-- The directories that a build has taken away and not put back before it failed. -/
def Lost (here : Path) (args : Arguments) (s : Session) (l : Location) : Prop :=
  (∃ e, ((run here args).run s).1 = .error e) ∧ s.tree.lookup? l = some .directory ∧
    ((run here args).run s).2.tree.lookup? l ≠ some .directory

/-- **A build** leaves no entry without its copy, unless it has failed and taken the copy away. -/
theorem Anchored.build (hsep : Separate root outputs) {s : Session} (hs : s.tree.Sound)
    (hfits : Fits root outputs here args s.tree) (hanchored : Anchored root outputs lost s.tree) :
    Anchored root outputs (fun l => lost l ∨ Lost here args s l)
      ((run here args).run s).2.tree := by
  have hdoes := does_outcome (run here args) s
  cases hresult : (outcome (run here args) s).1 with
  | ok report =>
    rw [hresult] at hdoes
    have hend := hanchored.build_ok hsep hs hfits hdoes
    exact ⟨hend.spelled, fun h => (hend.there h).imp_right .inl⟩
  | error e =>
    rw [hresult] at hdoes
    have hmanifest := (manifest_of_failure hs hfits hdoes).2
    have hbefore : ∀ {key dir output name},
        Redirected root outputs ((run here args).run s).2.tree key dir output name →
          Redirected root outputs s.tree key dir output name :=
      fun h => h.congr hmanifest.symm
    refine ⟨fun h => hanchored.spelled (hbefore h), fun h => ?_⟩
    rcases hanchored.there (hbefore h) with hthere | hlost
    · refine or_iff_not_imp_left.2 fun hgone => .inr ⟨⟨e, hresult⟩, hthere, hgone⟩
    · exact .inr (.inl hlost)

end Anchors

/-! ## Histories -/

/-- Trees that builds and other changes lead to, with what failed builds have taken away. Other
changes leave the manifest as it is, and the copies that are there. -/
inductive History (root : Path) (outputs : List Path) (start : FileTree) :
    FileTree → (Location → Prop) → Prop
  | start : History root outputs start start fun _ => False
  | build {s : Session} {lost : Location → Prop} {here : Path} {args : Arguments}
      (before : History root outputs start s.tree lost)
      (fits : Fits root outputs here args s.tree) :
      History root outputs start ((run here args).run s).2.tree fun l => lost l ∨ Lost here args s l
  | edit {t t' : FileTree} {lost : Location → Prop} (before : History root outputs start t lost)
      (sound : t'.Sound)
      (manifest : t'.fileAt? (manifestPath root).location =
        t.fileAt? (manifestPath root).location)
      (copies : ∀ output ∈ outputs, ∀ name, t.lookup? (copyAt root output name) = some .directory →
        t'.lookup? (copyAt root output name) = some .directory) :
      History root outputs start t' lost

theorem anchored_of_history {outputs : List Path} {start t : FileTree} {lost : Location → Prop}
    (hsep : Separate root outputs) (hstart : start.Sound)
    (hanchored : Anchored root outputs (fun _ => False) start)
    (h : History root outputs start t lost) : t.Sound ∧ Anchored root outputs lost t := by
  induction h with
  | start => exact ⟨hstart, hanchored⟩
  | build before fits ih =>
    obtain ⟨hs, hanchored⟩ := ih
    exact ⟨(confined_run hs fits.named (does_outcome _ _)).sound, hanchored.build hsep hs fits⟩
  | edit before sound manifest copies ih =>
    obtain ⟨-, hanchored⟩ := ih
    refine ⟨sound, ?_⟩
    have hbefore : ∀ {key dir output name}, Redirected root outputs _ key dir output name →
        Redirected root outputs _ key dir output name :=
      fun h => h.congr manifest.symm
    refine ⟨fun h => hanchored.spelled (hbefore h), fun h => ?_⟩
    exact (hanchored.there (hbefore h)).imp_left (copies _ h.known _)

/-- **No redirect dangles.** Let every entry of the manifest that points to a copy belong to the
module of the copy and write its path as builds do, and let the copy be there. Then, along every
history of builds that work on the same root, with output directories none of which lies below
another one, every entry that points to a copy points to one that is there, or to one that a build
took away which failed before it updated the manifest. -/
theorem redirects_lead_somewhere {outputs : List Path} {start t : FileTree}
    {lost : Location → Prop} (hsep : Separate root outputs) (hstart : start.Sound)
    (hspelled : ∀ {key dir output name}, Redirected root outputs start key dir output name →
      key = name ∧ dir = (output.join name).text)
    (hthere : ∀ {key dir output name}, Redirected root outputs start key dir output name →
      start.lookup? (copyAt root output name) = some .directory)
    (h : History root outputs start t lost) :
    ∀ key dir output name, Redirected root outputs t key dir output name →
      t.lookup? (copyAt root output name) = some .directory ∨ lost (copyAt root output name) :=
  fun _ _ _ _ => (anchored_of_history hsep hstart ⟨hspelled, fun h => .inl (hthere h)⟩ h).2.there

/-- A stale copy goes, its module is given back its directory, and another entry keeps pointing to a
copy that is there. -/
theorem redirects_lead_somewhere_restored :
    let file (text : String) : Node := .file text.toByteArray
    let t : FileTree := ⟨[(["r"], .directory),
      (["r", "main.tf"], file "module m \x7b\n  source = \"./m\"\n\x7d\n"),
      (["r", "m"], .directory), (["r", "out"], .directory), (["r", "out", "m"], .directory),
      (["r", "out", "n"], .directory), (["r", ".terraform"], .directory),
      (["r", ".terraform", "modules"], .directory),
      (["r", ".terraform", "modules", "modules.json"], file ("\x7b\"Modules\": [" ++
        "\x7b\"Key\": \"m\", \"Dir\": \"out/m\"\x7d, " ++
        "\x7b\"Key\": \"n\", \"Dir\": \"out/n\"\x7d]\x7d")),
      (["r", "o.kf.hcl"], file "patch k w \x7b\n  source = \"./m\"\n  b = 1\n\x7d\n")]⟩
    let args : Arguments := ⟨⟨"/r"⟩, ⟨"o.kf.hcl"⟩, ⟨"out"⟩, false⟩
    let final := ((run ⟨"/"⟩ args).run ⟨t, [], []⟩).2.tree
    (final.readText (manifestPath ⟨"/r"⟩)).toOption = some ("\x7b\n  \"Modules\": [\n    " ++
        "\x7b\n      \"Key\": \"m\",\n      \"Source\": \"\",\n      " ++
        "\"Dir\": \"m\"\n    \x7d,\n    " ++
        "\x7b\n      \"Key\": \"n\",\n      \"Source\": \"\",\n      " ++
        "\"Dir\": \"out/n\"\n    \x7d\n" ++
        "  ]\n\x7d\n") ∧
      (final.lookup? ["r", "out", "m"]).isNone = true ∧
      ∀ key dir output name, Redirected ⟨"/r"⟩ [⟨"out"⟩] final key dir output name →
        final.lookup? (copyAt ⟨"/r"⟩ output name) = some .directory := by
  intro file t args final
  have hs : t.Sound := by decide +kernel
  have hbase : ∀ name, copyAt ⟨"/r"⟩ ⟨"out"⟩ name = ["r", "out", name] := by
    have hout : ((⟨"/r"⟩ : Path).join "out").location = ["r", "out"] := by decide +kernel
    intro name
    rw [copyAt, hout]
    rfl
  have hsep : Separate ⟨"/r"⟩ [⟨"out"⟩] := by
    intro output ho other ho' _
    rw [List.mem_singleton.1 ho, List.mem_singleton.1 ho']
  -- the run, evaluated once for all that is needed of it
  obtain ⟨hplanned, hran, hmanifest, hcleared⟩ :
      (plansOf ⟨"/"⟩ args t).map (fun plan =>
        (plan.call.name, manifestDirectory ⟨"/r"⟩ plan.call.directory)) = [("m", "m")] ∧
      ((run ⟨"/"⟩ args).run ⟨t, [], []⟩).1.toOption.map (fun r => r.failed.map Prod.fst) =
        some ["m"] ∧
      (final.readText (manifestPath ⟨"/r"⟩)).toOption = some ("\x7b\n  \"Modules\": [\n    " ++
        "\x7b\n      \"Key\": \"m\",\n      \"Source\": \"\",\n      " ++
        "\"Dir\": \"m\"\n    \x7d,\n    " ++
        "\x7b\n      \"Key\": \"n\",\n      \"Source\": \"\",\n      " ++
        "\"Dir\": \"out/n\"\n    \x7d\n" ++
        "  ]\n\x7d\n") ∧
      (final.lookup? ["r", "out", "m"]).isNone = true := by
    decide +kernel
  have hplans : ∀ plan ∈ plansOf ⟨"/"⟩ args t, plan.call.name = "m" ∧
      manifestDirectory ⟨"/r"⟩ plan.call.directory = "m" := by
    intro plan hplan
    have hmem := List.mem_map_of_mem (f := fun plan : Plan =>
      (plan.call.name, manifestDirectory ⟨"/r"⟩ plan.call.directory)) hplan
    rw [hplanned, List.mem_singleton] at hmem
    exact Prod.mk.inj hmem
  have hroot : (rootOf ⟨"/"⟩ args).text = "/r" := by decide +kernel
  have hfits : Fits ⟨"/r"⟩ [⟨"out"⟩] ⟨"/"⟩ args t := by
    refine ⟨congrArg Path.mk hroot, List.mem_singleton_self _, rfl, fun plan hplan => ?_,
      fun plan hplan => ?_, fun plan hplan output ho name => ?_⟩
    · rw [(hplans plan hplan).1]
      decide
    · rw [(hplans plan hplan).1, hbase]
      decide +kernel
    · have hm : ((⟨"/r"⟩ : Path).join "m").location = ["r", "m"] := by decide +kernel
      rw [(hplans plan hplan).2, List.mem_singleton.1 ho, hbase, hm]
      simp
  obtain ⟨report, hok, -⟩ := exists_ok hran
  obtain ⟨text, htext, hplaces⟩ : ∃ text, t.readText (manifestPath ⟨"/r"⟩) = .ok text ∧
      (Manifest.read? text).map Manifest.places = some [("m", "out/m"), ("n", "out/n")] :=
    exists_ok (by decide +kernel)
  obtain ⟨m, hm, hplaces⟩ := Option.map_eq_some_iff.1 hplaces
  have hstart : ∀ {key dir output name}, Redirected ⟨"/r"⟩ [⟨"out"⟩] t key dir output name →
      output = ⟨"out"⟩ ∧ ((key, dir, name) = ("m", "out/m", "m") ∨
        (key, dir, name) = ("n", "out/n", "n")) := by
    rintro key dir output name ⟨hknown, ⟨m', hm', hmem⟩, hplace⟩
    have hcopies : ((⟨"/r"⟩ : Path).join "out/m").location = ["r", "out", "m"] ∧
      ((⟨"/r"⟩ : Path).join "out/n").location = ["r", "out", "n"] := by decide +kernel
    obtain rfl := List.mem_singleton.1 hknown
    rw [hm'.unique (.of_readText hs htext hm), hplaces] at hmem
    rw [hbase] at hplace
    refine ⟨rfl, ?_⟩
    rcases List.mem_cons.1 hmem with heq | hmem
    · cases heq
      rw [hcopies.1] at hplace
      cases hplace
      exact .inl rfl
    · cases List.mem_singleton.1 hmem
      rw [hcopies.2] at hplace
      cases hplace
      exact .inr rfl
  have hhistory : History ⟨"/r"⟩ [⟨"out"⟩] t final
      fun l => False ∨ Lost ⟨"/"⟩ args ⟨t, [], []⟩ l := .build (s := ⟨t, [], []⟩) .start hfits
  have hspelled : ∀ {key dir output name}, Redirected ⟨"/r"⟩ [⟨"out"⟩] t key dir output name →
      key = name ∧ dir = (output.join name).text := by
    intro key dir output name h
    obtain ⟨rfl, hcase | hcase⟩ := hstart h <;> cases hcase <;> decide +kernel
  have hthere : ∀ {key dir output name}, Redirected ⟨"/r"⟩ [⟨"out"⟩] t key dir output name →
      t.lookup? (copyAt ⟨"/r"⟩ output name) = some .directory := by
    intro key dir output name h
    obtain ⟨rfl, hcase | hcase⟩ := hstart h <;> cases hcase <;> rw [hbase] <;> rfl
  have hend := redirects_lead_somewhere hsep hs hspelled hthere hhistory
  refine ⟨hmanifest, hcleared, fun key dir output name h => ?_⟩
  rcases hend key dir output name h with hthere | ⟨⟨⟩⟩ | ⟨⟨e, he⟩, -⟩
  · exact hthere
  · rw [hok] at he
    cases he

end HclOverlay.Build
