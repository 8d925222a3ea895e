import HclOverlay.Proofs.Build.Runs
import HclOverlay.Proofs.FileTree.Listing

/-!
# Looking at two trees

A build goes on after a step that worked, and after one whose patch found no resource; every other
failure ends it. Two looks agree if they come to the same end wherever both let the build go on, and
looks agree as soon as the trees have the same files in the places that are looked at.

* `Recoverable` — the ends of a step after which a build goes on; `Firm` — steps that go on only if
  they worked.
* `Agree` — the same end, if the build goes on; `agree_bind` and its companions.
* `IsInput`, `agree_schedule` — **the plans of a build depend on its inputs alone**: the module files
  of the root configuration and the overlays.
* `Seen`, `agree_readModule` — **a module depends on its files outside the output directory alone**,
  if the output directory can be told from the texts of their paths.
-/

namespace HclOverlay.Build

open Work FileTree HclOverlay.Path

variable {α β : Type} {t t₁ t₂ t' : FileTree}

/-! ## Going on -/

/-- Ends after which a build goes on. -/
def Recoverable : Except Failure α → Prop
  | .ok _ => True
  | .error (.resourceNotFound _) => True
  | .error _ => False

theorem recoverable_error {e : Failure} (h : Recoverable (.error e : Except Failure α)) :
    Recoverable (.error e : Except Failure β) := by
  cases e <;> exact h

/-- Steps after which a build goes on only if they worked. -/
class Firm (w : Work α) : Prop where
  worked : ∀ {t r t'}, Does w t r t' → Recoverable r → ∃ a, r = .ok a

instance Firm.pure (a : α) : Firm (pure a : Work α) := ⟨fun h _ => ⟨a, (does_pure h).1⟩⟩

theorem Firm.throw {e : Failure} (he : ¬Recoverable (.error e : Except Failure α)) :
    Firm (throw e : Work α) :=
  ⟨fun h hr => absurd ((does_throw h).1 ▸ hr) he⟩

instance Firm.tree : Firm tree := ⟨fun h _ => ⟨_, (does_tree h).1⟩⟩

instance Firm.say (text : String) : Firm (say text) := ⟨fun h _ => ⟨_, (does_say h).1⟩⟩

instance Firm.warnAll (ns : List Notice) : Firm (warnAll ns) := ⟨fun h _ => ⟨_, (does_warnAll h).1⟩⟩

instance Firm.warn (n : Notice) : Firm (warn n) := ⟨fun h _ => ⟨_, (does_warn h).1⟩⟩

theorem Firm.look {wrap : FileError → Failure} {f : FileTree → Except FileError α}
    (hwrap : ∀ e, ¬Recoverable (.error (wrap e) : Except Failure α)) : Firm (look wrap f) := by
  refine ⟨fun {t r t'} h hr => ?_⟩
  obtain ⟨rfl, rfl⟩ := does_look h
  rcases hf : f t' with e | a <;> rw [hf] at hr
  · exact absurd hr (hwrap e)
  · exact ⟨a, rfl⟩

instance firm_look_file (p : Path) (f : FileTree → Except FileError α) : Firm (look (.file p) f) :=
  .look fun _ h => h

instance Firm.readText (p : Path) : Firm (readText p) := firm_look_file p _

instance firm_filesBelow (p : Path) : Firm (Build.filesBelow p) := .look fun _ h => h

instance Firm.onFile (p : Path) (e : Edit α) : Firm (onFile p e) := by
  refine ⟨fun {t r t'} h hr => ?_⟩
  obtain ⟨rfl, -⟩ := does_onFile h
  rcases hf : (outcome e t).1 with e | a <;> rw [hf] at hr
  · cases hr
  · exact ⟨a, rfl⟩

instance Firm.bind (w : Work α) (f : α → Work β) [hw : Firm w] [hf : ∀ a, Firm (f a)] :
    Firm (w >>= f) := by
  refine ⟨fun h hr => ?_⟩
  rcases does_bind h with ⟨e, hfirst, rfl⟩ | ⟨a, t₁, -, hsecond⟩
  · obtain ⟨a, ha⟩ := hw.worked hfirst (recoverable_error hr)
    cases ha
  · exact (hf a).worked hsecond hr

instance Firm.ite (c : Prop) [Decidable c] (w v : Work α) [hw : Firm w] [hv : Firm v] :
    Firm (if c then w else v) := by
  split
  · exact hw
  · exact hv

instance firm_moduleContents (dir : Path) : Firm (moduleContents dir) := by
  unfold moduleContents
  infer_instance

instance Firm.forM (f : α → Work PUnit) [∀ a, Firm (f a)] (l : List α) : Firm (l.forM f) := by
  induction l with
  | nil => exact Firm.pure PUnit.unit
  | cons a l ih => exact Firm.bind (f a) fun _ => l.forM f

/-! ## Agreement -/

/-- The same end, if a build goes on after both. -/
def Agree (x y : Except Failure α) : Prop := Recoverable x → Recoverable y → x = y

theorem agree_of_eq {x y : Except Failure α} (h : x = y) : Agree x y := fun _ _ => h

/-- A sequence of looks agrees if its parts do. -/
theorem agree_bind {w : Work α} {f : α → Work β} [Looks w] [∀ a, Looks (f a)]
    (hw : Agree (reads w t₁) (reads w t₂))
    (hf : ∀ a, reads w t₁ = .ok a → reads w t₂ = .ok a → Agree (reads (f a) t₁) (reads (f a) t₂)) :
    Agree (reads (w >>= f) t₁) (reads (w >>= f) t₂) := by
  rw [reads_bind, reads_bind]
  rcases h₁ : reads w t₁ with e₁ | a₁ <;> rcases h₂ : reads w t₂ with e₂ | a₂ <;> rw [h₁, h₂] at hw
  · intro hr₁ hr₂
    exact congrArg _ (Except.error.inj (hw (recoverable_error hr₁) (recoverable_error hr₂)))
  · intro hr₁ hr₂
    cases hw (recoverable_error hr₁) trivial
  · intro hr₁ hr₂
    cases hw trivial (recoverable_error hr₂)
  · obtain rfl := Except.ok.inj (hw trivial trivial)
    exact hf a₁ h₁ h₂

/-- After a firm look, what has been seen may differ as long as it makes no difference. -/
theorem agree_bind_firm {w : Work α} {f : α → Work β} [Looks w] [∀ a, Looks (f a)] [hw : Firm w]
    (hf : ∀ a₁ a₂, reads w t₁ = .ok a₁ → reads w t₂ = .ok a₂ →
      Agree (reads (f a₁) t₁) (reads (f a₂) t₂)) :
    Agree (reads (w >>= f) t₁) (reads (w >>= f) t₂) := by
  have hfirm : ∀ {t e}, reads w t = .error e → ¬Recoverable (.error e : Except Failure β) := by
    intro t e h hr
    obtain ⟨a, ha⟩ := hw.worked (h ▸ does_reads w t) (recoverable_error hr)
    cases ha
  rw [reads_bind, reads_bind]
  rcases h₁ : reads w t₁ with e₁ | a₁
  · exact fun hr₁ => absurd hr₁ (hfirm h₁)
  rcases h₂ : reads w t₂ with e₂ | a₂
  · exact fun _ hr₂ => absurd hr₂ (hfirm h₂)
  · exact hf a₁ a₂ h₁ h₂

theorem agree_firm {w : Work PUnit} [Looks w] [hw : Firm w] : Agree (reads w t₁) (reads w t₂) := by
  intro hr₁ hr₂
  obtain ⟨u₁, h₁⟩ := hw.worked (does_reads w t₁) hr₁
  obtain ⟨u₂, h₂⟩ := hw.worked (does_reads w t₂) hr₂
  rw [h₁, h₂]

theorem reads_tree_bind (f : FileTree → Work α) [∀ t, Looks (f t)] (t : FileTree) :
    reads (tree >>= f) t = reads (f t) t := by
  rw [reads_bind]
  rfl

/-- A look that needs something of a tree first. -/
theorem agree_unless {c : FileTree → Bool} {e : Failure} {w : Work α} [Looks w]
    (he : ¬Recoverable (.error e : Except Failure α))
    (h : c t₁ = true → c t₂ = true → Agree (reads w t₁) (reads w t₂)) :
    Agree (reads (tree >>= fun t => if !c t then throw e else w) t₁)
      (reads (tree >>= fun t => if !c t then throw e else w) t₂) := by
  rw [reads_tree_bind, reads_tree_bind]
  cases h₁ : c t₁ with
  | false => exact fun hr => absurd hr he
  | true =>
    cases h₂ : c t₂ with
    | false => exact fun _ hr => absurd hr he
    | true => exact h h₁ h₂

/-! ## Files -/

theorem agree_readText (ht₁ : t₁.Sound) (ht₂ : t₂.Sound) {p : Path}
    (h : t₁.fileAt? p.location = t₂.fileAt? p.location) :
    Agree (reads (readText p) t₁) (reads (readText p) t₂) := by
  intro hr₁ hr₂
  obtain ⟨text₁, h₁⟩ := Firm.worked (does_reads (readText p) t₁) hr₁
  obtain ⟨text₂, h₂⟩ := Firm.worked (does_reads (readText p) t₂) hr₂
  obtain ⟨bytes₁, hbytes₁, htext₁⟩ := readText_eq_ok ht₁ (reads_look_eq_ok h₁)
  obtain ⟨bytes₂, hbytes₂, htext₂⟩ := readText_eq_ok ht₂ (reads_look_eq_ok h₂)
  rw [hbytes₁, hbytes₂] at h
  cases h
  rw [htext₁] at htext₂
  cases htext₂
  rw [h₁, h₂]

section Lists

variable (ht₁ : t₁.Sound) (ht₂ : t₂.Sound) {ps : List Path}
  (hps : ∀ p ∈ ps, t₁.fileAt? p.location = t₂.fileAt? p.location)

include ht₁ ht₂ hps

theorem agree_callsIn (root : Path) :
    Agree (reads (callsIn root ps) t₁) (reads (callsIn root ps) t₂) := by
  induction ps with
  | nil => exact agree_of_eq rfl
  | cons p rest ih =>
    rw [List.forall_mem_cons] at hps
    unfold callsIn
    refine agree_bind (agree_readText ht₁ ht₂ hps.1) fun source _ _ => ?_
    refine agree_bind (agree_of_eq ?_) fun calls _ _ => ?_
    · rw [reads_lift, reads_lift]
    · exact agree_bind (ih hps.2) fun more _ _ => agree_of_eq rfl

theorem agree_patchesIn : Agree (reads (patchesIn ps) t₁) (reads (patchesIn ps) t₂) := by
  induction ps with
  | nil => exact agree_of_eq rfl
  | cons p rest ih =>
    rw [List.forall_mem_cons] at hps
    unfold patchesIn
    refine agree_bind (agree_readText ht₁ ht₂ hps.1) fun source _ _ => ?_
    refine agree_bind (agree_of_eq ?_) fun patches _ _ => ?_
    · rw [reads_lift, reads_lift]
    refine agree_bind (agree_of_eq rfl) fun u _ _ => ?_
    exact agree_bind (ih hps.2) fun more _ _ => agree_of_eq rfl

theorem agree_loadFiles (files : ModuleFiles) :
    Agree (reads (loadFiles files ps) t₁) (reads (loadFiles files ps) t₂) := by
  induction ps generalizing files with
  | nil => exact agree_of_eq rfl
  | cons p rest ih =>
    rw [List.forall_mem_cons] at hps
    unfold loadFiles
    refine agree_bind (agree_readText ht₁ ht₂ hps.1) fun source _ _ => ?_
    refine agree_bind (agree_of_eq ?_) fun file _ _ => ih hps.2 _
    rw [reads_lift, reads_lift]

end Lists

/-! ## Inputs -/

/-- The places of the inputs of a build: the module files of the root configuration, and the
overlays. -/
def IsInput (here : Path) (args : Arguments) (l : Location) : Prop :=
  (∃ name, IsName name ∧ ((rootOf here args).join name).hasModuleExtension = true ∧
      l = (rootOf here args).location ++ [name]) ∨
    ∃ row, (∀ name ∈ row, IsName name) ∧
      (((rootOf here args).join args.overlay.text).below row).isOverlay = true ∧
      l = ((rootOf here args).join args.overlay.text).location ++ row

theorem reads_rootFiles {root : Path} {files : List Path} (h : reads (rootFiles root) t = .ok files) :
    ∃ names, t.names root = .ok names ∧ files = t.entries root hasModuleExtension names := by
  obtain ⟨names, hnames, h⟩ := reads_bind_eq_ok h
  rw [reads_tree_bind] at h
  exact ⟨names, reads_look_eq_ok hnames, (Except.ok.inj h).symm⟩

/-- How a look for overlays goes on: with the one that was named, or with those below a directory. -/
theorem reads_overlayFiles (ht : t.Sound) {p : Path}
    (h : Recoverable (reads (overlayFiles p) t)) :
    (t.isFile p = true ∧ p.isOverlay = true ∧ reads (overlayFiles p) t = .ok [p]) ∨
      ∃ files, t.isDirectory p = true ∧ t.walk p = .ok files ∧
        reads (overlayFiles p) t = .ok (files.filter Path.isOverlay) := by
  unfold overlayFiles at h ⊢
  rw [reads_tree_bind] at h ⊢
  cases hthere : t.there p with
  | false =>
    rw [if_pos (by simp [hthere])] at h
    cases h
  | true =>
    rw [if_neg (by simp [hthere])] at h ⊢
    cases hfile : t.isFile p with
    | true =>
      rw [if_pos hfile] at h
      rw [if_pos rfl]
      cases hoverlay : p.isOverlay with
      | true => exact .inl ⟨rfl, rfl, rfl⟩
      | false =>
        rw [if_neg (by simp [hoverlay])] at h
        cases h
    | false =>
      rw [if_neg (by simp [hfile])] at h
      rw [if_neg Bool.false_ne_true]
      obtain ⟨found, hfound⟩ := Firm.worked (does_reads _ t) h
      obtain ⟨files, hwalk, hend⟩ := reads_bind_eq_ok hfound
      cases hend
      refine .inr ⟨files, ?_, reads_look_eq_ok hwalk, hfound⟩
      obtain ⟨hresolve, n, hn⟩ := (there_iff ht).1 hthere
      cases n with
      | directory => exact (isDirectory_iff ht).2 ⟨hresolve, hn⟩
      | file bytes =>
        rw [(isFile_iff ht).2 ⟨hresolve, bytes, fileAt?_eq_some.2 hn⟩] at hfile
        cases hfile

section Inputs

variable (ht₁ : t₁.Sound) (ht₂ : t₂.Sound)

include ht₁ ht₂

theorem agree_moduleCalls {root : Path} (hdir₁ : t₁.isDirectory root = true)
    (hdir₂ : t₂.isDirectory root = true)
    (hagree : ∀ name, IsName name → (root.join name).hasModuleExtension = true →
      t₁.fileAt? (root.location ++ [name]) = t₂.fileAt? (root.location ++ [name])) :
    Agree (reads (moduleCalls root) t₁) (reads (moduleCalls root) t₂) := by
  have hopen₁ := opens_of_isDirectory ht₁ hdir₁
  have hopen₂ := opens_of_isDirectory ht₂ hdir₂
  have hfiles : Agree (reads (rootFiles root) t₁) (reads (rootFiles root) t₂) := by
    refine agree_bind_firm fun names₁ names₂ hnames₁ hnames₂ => agree_of_eq ?_
    rw [reads_tree_bind, reads_tree_bind]
    exact congrArg Except.ok (entries_eq ht₁ ht₂ hopen₁ hopen₂ (reads_look_eq_ok hnames₁)
      (reads_look_eq_ok hnames₂) hasModuleExtension hagree)
  refine agree_bind hfiles fun files h _ => agree_callsIn ht₁ ht₂ (fun p hp => ?_) root
  obtain ⟨names, hnames, rfl⟩ := reads_rootFiles h
  obtain ⟨name, hname, rfl, hkeep, -⟩ := (mem_entries ht₁ hopen₁ hnames).1 hp
  rw [location_join_name root hname]
  exact hagree name hname hkeep

theorem agree_overlayFiles {p : Path}
    (hagree : ∀ row, (∀ name ∈ row, IsName name) → (p.below row).isOverlay = true →
      t₁.fileAt? (p.location ++ row) = t₂.fileAt? (p.location ++ row)) :
    Agree (reads (overlayFiles p) t₁) (reads (overlayFiles p) t₂) := by
  -- what is a file in one tree is no directory in the other
  have hmixed : ∀ {t t' : FileTree}, t.Sound → t'.Sound → t.isFile p = true →
      t'.isDirectory p = true → t.fileAt? p.location ≠ t'.fileAt? p.location := by
    intro t t' ht ht' hfile hdir heq
    obtain ⟨-, bytes, hbytes⟩ := (isFile_iff ht).1 hfile
    rw [hbytes, fileAt?_of_directory ((isDirectory_iff ht').1 hdir).2] at heq
    cases heq
  have hself : p.isOverlay = true → t₁.fileAt? p.location = t₂.fileAt? p.location := by
    intro hoverlay
    have h := hagree [] (by simp) hoverlay
    rwa [List.append_nil] at h
  intro hr₁ hr₂
  rcases reads_overlayFiles ht₁ hr₁ with ⟨hfile₁, hoverlay, h₁⟩ | ⟨files₁, hdir₁, hwalk₁, h₁⟩ <;>
    rcases reads_overlayFiles ht₂ hr₂ with ⟨hfile₂, hoverlay', h₂⟩ | ⟨files₂, hdir₂, hwalk₂, h₂⟩
  · rw [h₁, h₂]
  · exact absurd (hself hoverlay) (hmixed ht₁ ht₂ hfile₁ hdir₂)
  · exact absurd (hself hoverlay').symm (hmixed ht₂ ht₁ hfile₂ hdir₁)
  · rw [h₁, h₂, filter_walk_eq ht₁ ht₂ hdir₁ hdir₂ hwalk₁ hwalk₂ Path.isOverlay hagree]

/-- **The plans of a build** depend on its inputs alone. -/
theorem agree_schedule {here : Path} {args : Arguments}
    (hagree : ∀ l, IsInput here args l → t₁.fileAt? l = t₂.fileAt? l) :
    Agree (reads (schedule here args) t₁) (reads (schedule here args) t₂) := by
  have hoverlays : ∀ row, (∀ name ∈ row, IsName name) →
      (((rootOf here args).join args.overlay.text).below row).isOverlay = true →
      t₁.fileAt? (((rootOf here args).join args.overlay.text).location ++ row) =
        t₂.fileAt? (((rootOf here args).join args.overlay.text).location ++ row) :=
    fun row hrow hkeep => hagree _ (.inr ⟨row, hrow, hkeep, rfl⟩)
  unfold schedule
  refine agree_unless (fun h => h) fun hdir₁ hdir₂ => ?_
  have hcalls := agree_moduleCalls ht₁ ht₂ hdir₁ hdir₂ fun name hname hkeep =>
    hagree _ (.inl ⟨name, hname, hkeep, rfl⟩)
  have hannounce : Agree (reads (announce (rootOf here args) args.output) t₁)
      (reads (announce (rootOf here args) args.output) t₂) := by
    unfold announce
    refine agree_bind agree_firm fun _ _ _ => agree_bind agree_firm fun _ _ _ => ?_
    refine agree_bind hcalls fun calls _ _ => agree_bind agree_firm fun _ _ _ => ?_
    exact agree_bind agree_firm fun _ _ _ => agree_of_eq rfl
  refine agree_bind hannounce fun calls _ _ => ?_
  refine agree_bind (agree_overlayFiles ht₁ ht₂ hoverlays) fun files hfiles _ => ?_
  split
  · exact agree_of_eq rfl
  -- the overlays lie below a directory, or the path is that of a single one
  have hpatches : Agree (reads (loadPatches files) t₁) (reads (loadPatches files) t₂) := by
    unfold loadPatches
    refine agree_bind agree_firm fun _ _ _ => agree_patchesIn ht₁ ht₂ fun p hp => ?_
    have hr : Recoverable (reads (overlayFiles ((rootOf here args).join args.overlay.text)) t₁) := by
      rw [hfiles]
      trivial
    rcases reads_overlayFiles ht₁ hr with ⟨-, hoverlay, heq⟩ | ⟨found, hdir, hwalk, heq⟩
    · rw [hfiles] at heq
      cases heq
      have h := hoverlays [] (by simp) hoverlay
      rw [List.append_nil] at h
      rwa [List.mem_singleton.1 hp]
    · rw [hfiles] at heq
      cases heq
      obtain ⟨hmem, hkeep⟩ := List.mem_filter.1 hp
      obtain ⟨row, hrow, rfl, -⟩ := (mem_walk ht₁ hdir hwalk).1 hmem
      rw [location_below _ hrow]
      exact hoverlays row hrow hkeep
  exact agree_bind hpatches fun patches _ _ => agree_bind agree_firm fun _ _ _ => agree_of_eq rfl

end Inputs

/-! ## Modules -/

/-- A location that does not lie below another one. -/
def Outside (base l : Location) : Prop := l = base ∨ ¬base <+: l

instance (base l : Location) : Decidable (Outside base l) := inferInstanceAs (Decidable (_ ∨ _))

/-- Files of a module that lie in the output directory can be told by the texts of their paths. -/
def Seen (outputBase dir : Path) : Prop :=
  ∀ row, (∀ name ∈ row, IsName name) → outputBase.location <+: dir.location ++ row →
    (dir.below row).startsWith outputBase = true

/-- Paths without detours show where they lead. -/
theorem seen_of_plain {outputBase dir : Path} (hbase : outputBase.IsPlain) (hdir : dir.IsPlain) :
    Seen outputBase dir := by
  intro row hrow hbelow
  rwa [startsWith_iff (hdir.below hrow) hbase, location_below dir hrow]

theorem reads_moduleContents {dir : Path} {c : Contents}
    (h : reads (moduleContents dir) t = .ok c) :
    ∃ files, t.walk dir = .ok files ∧
      c = ⟨files.filter Path.isModuleFile, files.filter Path.isSupportFile⟩ := by
  obtain ⟨files, hwalk, h⟩ := reads_bind_eq_ok h
  exact ⟨files, reads_look_eq_ok hwalk, (Except.ok.inj h).symm⟩

theorem reads_patchFiles_eq (patches : List Patch) (files : ModuleFiles) (t₁ t₂ : FileTree) :
    reads (patchFiles patches files) t₁ = reads (patchFiles patches files) t₂ := by
  unfold patchFiles
  rcases (applyPatches patches).run files with ⟨_ | _, _⟩ <;> rfl

/-- **What is copied of a module** depends on its files outside the output directory alone. -/
theorem agree_readModule (ht₁ : t₁.Sound) (ht₂ : t₂.Sound) {outputBase : Path} {plan : Plan}
    (hseen : Seen outputBase plan.call.directory)
    (hagree : ∀ l, Outside outputBase.location l → t₁.fileAt? l = t₂.fileAt? l) :
    Agree (reads (readModule outputBase plan) t₁) (reads (readModule outputBase plan) t₂) := by
  have hfile : ∀ row, (∀ name ∈ row, IsName name) →
      (plan.call.directory.below row).startsWith outputBase = false →
      t₁.fileAt? (plan.call.directory.location ++ row) =
        t₂.fileAt? (plan.call.directory.location ++ row) := by
    intro row hrow hnot
    refine hagree _ (.inr fun hbelow => ?_)
    rw [hseen row hrow hbelow] at hnot
    cases hnot
  unfold readModule
  refine agree_unless (fun h => h) fun hdir₁ hdir₂ => ?_
  refine agree_bind_firm fun c₁ c₂ h₁ h₂ => ?_
  obtain ⟨files₁, hwalk₁, rfl⟩ := reads_moduleContents h₁
  obtain ⟨files₂, hwalk₂, rfl⟩ := reads_moduleContents h₂
  have hsame : ∀ kind : Path → Bool,
      (files₁.filter kind).filter (!·.startsWith outputBase) =
        (files₂.filter kind).filter (!·.startsWith outputBase) := by
    intro kind
    rw [List.filter_filter, List.filter_filter]
    refine filter_walk_eq ht₁ ht₂ hdir₁ hdir₂ hwalk₁ hwalk₂ _ fun row hrow hkeep => ?_
    exact hfile row hrow (by simpa using (Bool.and_eq_true_iff.1 hkeep).1)
  simp only [Contents.outside, hsame]
  refine agree_bind (agree_loadFiles ht₁ ht₂ (fun p hp => ?_) []) fun loaded _ _ =>
    agree_bind (agree_of_eq (reads_patchFiles_eq _ _ _ _)) fun files _ _ => agree_of_eq rfl
  obtain ⟨hmem, hnot⟩ := List.mem_filter.1 hp
  obtain ⟨row, hrow, rfl, -⟩ := (mem_walk ht₂ hdir₂ hwalk₂).1 (List.mem_of_mem_filter hmem)
  rw [location_below _ hrow]
  exact hfile row hrow (by simpa using hnot)

end HclOverlay.Build
