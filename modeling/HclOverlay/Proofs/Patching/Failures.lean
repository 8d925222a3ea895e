import HclOverlay.Proofs.Patching.Independence

/-!
# Missing resources

A patch of a missing resource ends patching. Whether a resource is missing is a matter of the files
as they were read: edits do not move blocks, and a block that was found stays there while the
attributes of its patch are written. So the first patch of a missing resource is where patching
ends, if nothing else ends it before, and the files are as the patches in front of it leave them.

* `Undeclared` — no file has a resource with the key; `locate_eq_none_iff`.
* `write_ne_notFound`, `writeAll_ne_notFound` — **writing finds its block**.
* `outcome_applyPatches_notFound` — what a missing resource means, by induction on the patches.
* `missing_resource_is_first` — the same for files that were read and patched by any calls before.
-/

namespace HclOverlay

open Hcl Patching

/-- A file as it was read. -/
def ModuleFile.Parsed (f : ModuleFile) : Prop :=
  ∃ source label notices, (ModuleFile.read source label).run = (.ok f, notices)

/-- No file has a resource with the key in its index. -/
def Undeclared (files : ModuleFiles) (key : ResourceKey) : Prop :=
  ∀ e ∈ files, e.2.index.resources.find? key = none

/-! ## Where resources are missing -/

theorem locate_eq_none_iff {files : ModuleFiles} {key : ResourceKey} :
    (locate files key).1 = none ↔ Undeclared files key := by
  refine ⟨locate_eq_none, fun h => ?_⟩
  cases hlocate : (locate files key).1 with
  | none => rfl
  | some found =>
    obtain ⟨pre, path, file, post, r, rfl, -, -, hfind, -⟩ := locate_eq_some hlocate
    rw [h (path, file) (by simp)] at hfind
    cases hfind

/-- A missing resource leaves no notice. -/
theorem locate_notices_of_none {files : ModuleFiles} {key : ResourceKey}
    (h : (locate files key).1 = none) : (locate files key).2 = [] := by
  unfold locate at h ⊢
  split at h
  · rfl
  · cases h

/-- Calls do not move resources. -/
theorem locate_runAll (calls : List (List Patch)) (files : ModuleFiles) (key : ResourceKey) :
    (locate (runAll files calls) key).1 = (locate files key).1 := by
  induction calls generalizing files with
  | nil => rfl
  | cons patches calls ih =>
    obtain ⟨notices, hrun⟩ := run_applyPatches files patches
    rw [runAll, ih, hrun, locate_patchAll]

theorem indexed_runAll {files : ModuleFiles} (hfiles : ∀ e ∈ files, e.2.Indexed)
    (calls : List (List Patch)) : ∀ e ∈ runAll files calls, e.2.Indexed := by
  induction calls generalizing files with
  | nil => exact hfiles
  | cons patches calls ih =>
    obtain ⟨notices, hrun⟩ := run_applyPatches files patches
    rw [runAll, hrun]
    exact ih (every_patchAll (fun hf hw => hf.write hw) files patches hfiles)

/-! ## Writing -/

/-- A write into a block that is there may fail, but not for lack of it. -/
theorem ModuleFile.write_ne_notFound {f : ModuleFile} {handle : BlockHandle} {b : Block}
    (hb : f.block? handle = some b) (key missing : ResourceKey) (name : String)
    (a : PatchAttribute) : f.write handle key name a ≠ .error (.resourceNotFound missing) := by
  intro h
  rw [write, hb] at h
  rcases except_bind_eq_error h with hread | ⟨e, -, h⟩
  · unfold readRendered at hread
    split at hread <;> cases hread
  · split at h <;> cases h

/-- Nor do the writes of a patch, each of which leaves the block in its place. -/
theorem Patching.writeAll_ne_notFound {files : ModuleFiles} {rank : Nat} {handle : BlockHandle}
    {path : Path} {f : ModuleFile} {b : Block} (hf : files[rank]? = some (path, f))
    (hb : f.block? handle = some b) (key missing : ResourceKey)
    (attrs : List (String × PatchAttribute)) :
    (writeAll rank handle key files attrs).1 ≠ .error (.resourceNotFound missing) := by
  induction attrs generalizing files f b with
  | nil => exact nofun
  | cons attr rest ih =>
    rw [writeAll, hf]
    dsimp only
    cases hw : f.write handle key attr.1 attr.2 with
    | error e =>
      rintro ⟨⟩
      exact f.write_ne_notFound hb key missing attr.1 attr.2 hw
    | ok g =>
      obtain ⟨c, -, rfl⟩ := (ModuleFile.write_eq_ok_iff hb).1 hw
      dsimp only
      rw [setFile_withBlock hf]
      exact ih (getElem?_putBlock hf handle.rank c true)
        (ModuleFile.block?_withBlock hb c true)

/-- A patch that is written leaves all resources where they are. -/
theorem Patching.locate_writeAll {files : ModuleFiles} {p : Patch} {rank : Nat}
    {handle : BlockHandle} (h : (locate files p.key).1 = some (rank, handle)) (key : ResourceKey) :
    (locate (writeAll rank handle p.key files p.attributes).2 key).1 = (locate files key).1 := by
  have hall := locate_patchAll [p] files key
  rw [patchAll, h] at hall
  rcases hw : writeAll rank handle p.key files p.attributes with ⟨_ | _, next⟩
  · simpa [hw] using hall
  · simpa [hw, patchAll] using hall

/-! ## Patching -/

/-- **A missing resource** is that of the first patch whose resource is missing; the patches in
front of it have been applied, and nothing else. -/
theorem Patching.outcome_applyPatches_notFound {patches : List Patch} {w w' : Workspace}
    (hfiles : ∀ e ∈ w.files, e.2.Indexed) {key : ResourceKey}
    (h : outcome (applyPatches patches) w = (.error (.resourceNotFound key), w')) :
    ∃ front p back, patches = front ++ p :: back ∧ p.key = key ∧
      (locate w.files key).1 = none ∧ (∀ q ∈ front, (locate w.files q.key).1 ≠ none) ∧
      outcome (applyPatches front) w = (.ok (), w') := by
  induction patches generalizing w with
  | nil => cases h
  | cons p rest ih =>
    have hcons : ∀ rest, applyPatches (p :: rest) = applyPatch p >>= fun _ => applyPatches rest :=
      fun _ => rfl
    rw [hcons, outcome_bind, outcome_applyPatch] at h
    cases hlocate : (locate w.files p.key).1 with
    | none =>
      rw [hlocate, locate_notices_of_none hlocate, List.append_nil] at h
      cases h
      exact ⟨[], p, rest, rfl, rfl, hlocate, by simp, rfl⟩
    | some found =>
      obtain ⟨rank, handle⟩ := found
      obtain ⟨f, b, htarget⟩ := Target.of_locate hfiles hlocate
      obtain ⟨path, hf⟩ := htarget.file
      -- the writes of the first patch do not move a resource, and do not fail for lack of one
      have hmoved := locate_writeAll hlocate
      have hindexed := every_writeAll (fun hf hw => ModuleFile.Indexed.write hf hw) rank handle
        p.key p.attributes w.files hfiles
      have hfound := writeAll_ne_notFound hf htarget.block p.key key p.attributes
      have hfirst := outcome_applyPatch p w
      rw [hlocate] at h hfirst
      dsimp only at h hfirst
      rcases hw : writeAll rank handle p.key w.files p.attributes with ⟨e | u, next⟩
      · rw [hw] at h hfound
        cases h
        exact absurd rfl hfound
      · rw [hw] at h hfirst hmoved hindexed
        obtain ⟨front, q, back, rfl, hq, hnone, hfront, hrun⟩ := ih hindexed h
        rw [hmoved] at hnone
        refine ⟨p :: front, q, back, rfl, hq, hnone, List.forall_mem_cons.2
          ⟨by rw [hlocate]; exact nofun, fun r hr => hmoved r.key ▸ hfront r hr⟩, ?_⟩
        rw [hcons, outcome_bind, hfirst]
        exact hrun

/-- **Missing resources are decided by the files as they were read.** Take files that were read,
any calls before, and a list of patches. If patching ends with a missing resource, it is the one of
the first patch whose resource none of the files declared when they were read; the files and the
notices are what the patches in front of it alone give. If the resources of all patches are
declared, patching never ends so. -/
theorem missing_resource_is_first {parsed : ModuleFiles} (hparsed : ∀ e ∈ parsed, e.2.Parsed)
    (calls : List (List Patch)) (patches : List Patch) :
    let files := runAll parsed calls
    let result := (applyPatches patches).run files
    (∀ key, result.1 = .error (.resourceNotFound key) →
      ∃ front p back, patches = front ++ p :: back ∧ p.key = key ∧ Undeclared parsed key ∧
        (∀ q ∈ front, ¬ Undeclared parsed q.key) ∧
        (applyPatches front).run files = (.ok (), result.2)) ∧
      ((∀ p ∈ patches, ¬ Undeclared parsed p.key) →
        ∀ key, result.1 ≠ .error (.resourceNotFound key)) := by
  intro files result
  have hindexed : ∀ e ∈ files, e.2.Indexed := by
    refine indexed_runAll (fun e he => ?_) calls
    obtain ⟨source, label, notices, hread⟩ := hparsed e he
    exact .of_read hread
  -- earlier calls do not change what the files declare
  have hdeclared : ∀ key, (locate files key).1 = none ↔ Undeclared parsed key := by
    intro key
    rw [locate_runAll, locate_eq_none_iff]
  have hfirst : ∀ key, result.1 = .error (.resourceNotFound key) →
      ∃ front p back, patches = front ++ p :: back ∧ p.key = key ∧ Undeclared parsed key ∧
        (∀ q ∈ front, ¬ Undeclared parsed q.key) ∧
        (applyPatches front).run files = (.ok (), result.2) := by
    intro key h
    have houtcome : outcome (applyPatches patches) ⟨files, []⟩ =
        (.error (.resourceNotFound key), (outcome (applyPatches patches) ⟨files, []⟩).2) :=
      Prod.ext h rfl
    obtain ⟨front, p, back, hsplit, hkey, hnone, hfront, hrun⟩ :=
      outcome_applyPatches_notFound hindexed houtcome
    refine ⟨front, p, back, hsplit, hkey, (hdeclared key).1 hnone,
      fun q hq => (hdeclared q.key).not.1 (hfront q hq), ?_⟩
    exact congrArg (fun r => (r.1, r.2.files, r.2.notices)) hrun
  refine ⟨hfirst, fun hall key h => ?_⟩
  obtain ⟨front, p, back, rfl, rfl, hmissing, -⟩ := hfirst key h
  exact hall p (by simp) hmissing

/-- The resource that patching did not find. -/
def missingOf? : Except Failure Unit → Option ResourceKey
  | .error (.resourceNotFound key) => some key
  | _ => none

theorem missingOf?_eq_some_iff {r : Except Failure Unit} {key : ResourceKey} :
    missingOf? r = some key ↔ r = .error (.resourceNotFound key) := by
  constructor
  · intro h
    unfold missingOf? at h
    split at h
    · cases h
      rfl
    · cases h
  · rintro rfl
    rfl

/-- After a call that failed at its second attribute, one more stops at its second patch, and one
fails for another reason. -/
theorem missing_resource_is_first_of_two :
    let f := (ModuleFile.read "resource k w \x7b\n\x7d\n" ⟨"main.tf"⟩).run.1.toOption.getD
      ⟨⟨""⟩, "", ⟨[], [], true⟩, .empty, false⟩
    let sets : String → List String → Patch :=
      fun resource names => ⟨"k", resource, none, names.map fun name => (name, ⟨.replace, .null⟩)⟩
    let files := Patching.runAll [(⟨"main.tf"⟩, f)] [[sets "w" ["a", ""]]]
    let patches := [sets "w" ["b"], sets "x" ["c"], sets "y" []]
    (∃ front p back, patches = front ++ p :: back ∧ p.key = ⟨"k.x"⟩ ∧
        (applyPatches front).run files = (.ok (), ((applyPatches patches).run files).2)) ∧
      ((applyPatches patches).run files).2.1.map (·.2.text) =
        ["resource k w \x7b\n  a = null\n  b = null\n\x7d\n"] ∧
      ∀ key, ((applyPatches [sets "w" ["b"], sets "w" [""]]).run files).1 ≠
        .error (.resourceNotFound key) := by
  intro f sets files patches
  have hread : (ModuleFile.read "resource k w \x7b\n\x7d\n" ⟨"main.tf"⟩).run.1.isOk = true := by
    decide +kernel
  have hok := eq_ok_of_isOk (d := ⟨⟨""⟩, "", ⟨[], [], true⟩, .empty, false⟩) hread
  have hfile : f.Parsed := ⟨_, _, _, hok⟩
  have hparsed : ∀ e ∈ [((⟨"main.tf"⟩ : Path), f)], e.2.Parsed := by simpa using hfile
  have hindex : (f.index.resources.find? ⟨"k.w"⟩).isSome = true := by decide +kernel
  have hdeclared : ¬ Undeclared [((⟨"main.tf"⟩ : Path), f)] ⟨"k.w"⟩ := by
    intro h
    have hnone : f.index.resources.find? ⟨"k.w"⟩ = none := by simpa [Undeclared] using h
    rw [hnone] at hindex
    cases hindex
  have hmissing : missingOf? ((applyPatches patches).run files).1 = some ⟨"k.x"⟩ := by
    decide +kernel
  have htexts : ((applyPatches patches).run files).2.1.map (·.2.text) =
      ["resource k w \x7b\n  a = null\n  b = null\n\x7d\n"] := by decide +kernel
  refine ⟨?_, htexts, (missing_resource_is_first hparsed [[sets "w" ["a", ""]]]
    [sets "w" ["b"], sets "w" [""]]).2 fun p hp => ?_⟩
  · obtain ⟨front, p, back, hsplit, hkey, -, -, hrun⟩ :=
      (missing_resource_is_first hparsed [[sets "w" ["a", ""]]] patches).1 ⟨"k.x"⟩
        (missingOf?_eq_some_iff.1 hmissing)
    exact ⟨front, p, back, hsplit, hkey, hrun⟩
  · rcases List.mem_cons.1 hp with rfl | hp
    · exact hdeclared
    · rw [List.mem_singleton.1 hp]
      exact hdeclared

end HclOverlay
