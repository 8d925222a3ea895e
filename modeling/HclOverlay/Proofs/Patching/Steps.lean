import HclOverlay.Module.Patching
import HclOverlay.Proofs.Outcome

/-!
# Patching step by step

`applyPatches` runs in a monad that fails, keeps the files as they are at a failure, and collects
notices. Here the same steps are plain functions of the files:

* `writeAll` — the attributes of one patch, written in order.
* `patchAll` — patches in order, each to the file and block that `locate` gives.
* `run_applyPatches` — the monad does exactly this.

Both stop at the first failure and give the files as they are then.
-/

namespace HclOverlay.Patching

open Hcl

/-! ## Writing the attributes of one patch -/

/-- Writes attributes in order into the block of a handle, up to the first failure. -/
def writeAll (rank : Nat) (handle : BlockHandle) (key : ResourceKey) (files : ModuleFiles) :
    List (String × PatchAttribute) → Except Failure Unit × ModuleFiles
  | [] => (.ok (), files)
  | attr :: rest =>
    match files[rank]? with
    | none => (.error (.resourceNotFound key), files)
    | some (_, file) =>
      match file.write handle key attr.1 attr.2 with
      | .ok file => writeAll rank handle key (setFile files rank file) rest
      | .error f => (.error f, files)

theorem outcome_writeAttribute (rank : Nat) (handle : BlockHandle) (key : ResourceKey)
    (attr : String × PatchAttribute) (w : Workspace) :
    outcome (writeAttribute rank handle key attr) w =
      match w.files[rank]? with
      | none => (.error (.resourceNotFound key), w)
      | some (_, file) =>
        match file.write handle key attr.1 attr.2 with
        | .ok file => (.ok (), { w with files := setFile w.files rank file })
        | .error f => (.error f, w) := by
  simp only [writeAttribute, outcome_bind, outcome_get]
  cases w.files[rank]? with
  | none => simp only [outcome_throw]
  | some entry =>
    simp only [outcome_bind, outcome_lift]
    cases entry.2.write handle key attr.1 attr.2 with
    | ok file => simp only [outcome_set]
    | error f => rfl

/-- Writing attributes leaves no notices. -/
theorem outcome_forM_writeAttribute (rank : Nat) (handle : BlockHandle) (key : ResourceKey)
    (attrs : List (String × PatchAttribute)) (w : Workspace) :
    outcome (attrs.forM (writeAttribute rank handle key)) w =
      ((writeAll rank handle key w.files attrs).1,
        { w with files := (writeAll rank handle key w.files attrs).2 }) := by
  induction attrs generalizing w with
  | nil => rfl
  | cons attr rest ih =>
    have hcons : (attr :: rest).forM (writeAttribute rank handle key) =
        writeAttribute rank handle key attr >>=
          fun _ => rest.forM (writeAttribute rank handle key) := rfl
    rw [hcons, outcome_bind, outcome_writeAttribute]
    simp only [writeAll]
    cases w.files[rank]? with
    | none => rfl
    | some entry =>
      cases hw : entry.2.write handle key attr.1 attr.2 with
      | error f => simp only [hw]
      | ok file =>
        simp only [hw]
        exact ih _

/-! ## Patches in order -/

/-- Applies patches in order, up to the first failure. -/
def patchAll (files : ModuleFiles) : List Patch → Except Failure Unit × ModuleFiles
  | [] => (.ok (), files)
  | p :: rest =>
    match (locate files p.key).1 with
    | none => (.error (.resourceNotFound p.key), files)
    | some (rank, handle) =>
      match writeAll rank handle p.key files p.attributes with
      | (.ok _, files) => patchAll files rest
      | (.error f, files) => (.error f, files)

theorem outcome_applyPatch (p : Patch) (w : Workspace) :
    outcome (applyPatch p) w =
      let w' : Workspace := { w with notices := w.notices ++ (locate w.files p.key).2 }
      match (locate w.files p.key).1 with
      | none => (.error (.resourceNotFound p.key), w')
      | some (rank, handle) =>
        ((writeAll rank handle p.key w.files p.attributes).1,
          { w' with files := (writeAll rank handle p.key w.files p.attributes).2 }) := by
  simp only [applyPatch, outcome_bind, outcome_get, outcome_set]
  rcases (locate w.files p.key).1 with _ | ⟨rank, handle⟩
  · rfl
  · exact outcome_forM_writeAttribute rank handle p.key p.attributes _

/-- Whatever the notices so far, patches end the same way and leave the same files. -/
theorem outcome_applyPatches (patches : List Patch) (w : Workspace) :
    (outcome (applyPatches patches) w).1 = (patchAll w.files patches).1 ∧
      (outcome (applyPatches patches) w).2.files = (patchAll w.files patches).2 := by
  induction patches generalizing w with
  | nil => exact ⟨rfl, rfl⟩
  | cons p rest ih =>
    have hcons : applyPatches (p :: rest) = applyPatch p >>= fun _ => applyPatches rest := rfl
    rw [hcons, outcome_bind, outcome_applyPatch]
    simp only [patchAll]
    rcases (locate w.files p.key).1 with _ | ⟨rank, handle⟩
    · exact ⟨rfl, rfl⟩
    · rcases hw : writeAll rank handle p.key w.files p.attributes with ⟨_ | _, files⟩
      · simp only [hw, and_self]
      · simpa only [hw] using ih ⟨files, w.notices ++ (locate w.files p.key).2⟩

/-- **Patching is `patchAll`**, apart from the notices. -/
theorem run_applyPatches (files : ModuleFiles) (patches : List Patch) :
    ∃ notices, (applyPatches patches).run files =
      ((patchAll files patches).1, (patchAll files patches).2, notices) := by
  obtain ⟨hr, hf⟩ := outcome_applyPatches patches ⟨files, []⟩
  exact ⟨(outcome (applyPatches patches) ⟨files, []⟩).2.notices,
    Prod.ext hr (Prod.ext hf rfl)⟩

/-- Patching that succeeds leaves what `patchAll` leaves. -/
theorem patchAll_of_run {files final : ModuleFiles} {patches : List Patch} {notices : List Notice}
    (h : (applyPatches patches).run files = (.ok (), final, notices)) :
    patchAll files patches = (.ok (), final) := by
  obtain ⟨found, hrun⟩ := run_applyPatches files patches
  rw [hrun] at h
  have hresult : (patchAll files patches).1 = .ok () := congrArg Prod.fst h
  have hleft : (patchAll files patches).2 = final := congrArg (fun r => r.2.1) h
  exact Prod.ext hresult hleft

/-! ## Paths -/

theorem keys_setFile (files : ModuleFiles) (rank : Nat) (file : ModuleFile) :
    (setFile files rank file).keys = files.keys := by
  rw [Table.keys, Table.keys, setFile]
  refine List.ext_getElem (by simp) fun i _ _ => ?_
  rw [List.getElem_map, List.getElem_map, List.getElem_modify]
  split <;> rfl

theorem keys_writeAll (rank : Nat) (handle : BlockHandle) (key : ResourceKey)
    (attrs : List (String × PatchAttribute)) (files : ModuleFiles) :
    (writeAll rank handle key files attrs).2.keys = files.keys := by
  induction attrs generalizing files with
  | nil => rfl
  | cons attr rest ih =>
    rw [writeAll]
    split
    · rfl
    · split
      · rw [ih, keys_setFile]
      · rfl

/-- Patching adds no file and removes none. -/
theorem keys_patchAll (files : ModuleFiles) (patches : List Patch) :
    (patchAll files patches).2.keys = files.keys := by
  induction patches generalizing files with
  | nil => rfl
  | cons p rest ih =>
    rw [patchAll]
    split
    · rfl
    · next rank handle _ =>
      have hkeys := keys_writeAll rank handle p.key p.attributes files
      split
      · next hw => rw [ih, ← hkeys, hw]
      · next hw => rw [← hkeys, hw]

end HclOverlay.Patching
