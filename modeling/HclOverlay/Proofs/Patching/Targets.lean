import HclOverlay.Proofs.Patching.Handles

/-!
# Patches hit their targets

A patch names a resource by two labels, but the resource is looked up by a key that joins them with a
point. So a patch reaches the blocks with its key: these are the blocks with its labels as long as no
other labels give the same key, as `"a.b"` `"c"` and `"a"` `"b.c"` do.

* `Block.Declares` — a block that declares a resource by its two labels.
* `ModuleFile.Made` — a file as it was read, or as writes left it.
* `hasKey_log` — **whatever is written has the key of a patch**, for all files and patches.
* `Patch.DistinctIn` — no other resource has the key of a patch; `distinctIn_of_no_point`.
* `patches_hit_targets` — then only blocks with the labels of a patch change, and a patch without
  such a block fails before it changes anything.
-/

namespace HclOverlay

open Hcl

/-! ## Labels and keys -/

/-- A block declares the resource with the given labels. -/
def Hcl.Block.Declares (type name : String) (b : Block) : Prop :=
  b.kind = "resource" ∧ b.labelTexts = [type, name]

theorem resourceKey?_eq_some {b : Block} {key : ResourceKey} :
    resourceKey? b = some key ↔ ∃ type name, b.Declares type name ∧ .of type name = key := by
  constructor
  · intro h
    obtain ⟨r, hr, hkey⟩ := Option.map_eq_some_iff.1 h
    rw [resourceOf?] at hr
    split at hr
    · next type name hlabels =>
      split at hr
      · next hkind =>
        cases hr
        exact ⟨type, name, ⟨hkind, hlabels⟩, hkey⟩
      · cases hr
    · cases hr
  · rintro ⟨type, name, ⟨hkind, hlabels⟩, rfl⟩
    simp only [resourceKey?, resourceOf?, hlabels, hkind, if_true]
    rfl

/-- A type without a point can be read off a key. -/
theorem ResourceKey.of_inj {type type' name name' : String} (h : '.' ∉ type.toList)
    (h' : '.' ∉ type'.toList) (hkey : ResourceKey.of type name = .of type' name') :
    type = type' ∧ name = name' := by
  have hbefore : ∀ {type name : String}, '.' ∉ type.toList →
      (ResourceKey.of type name).text.toList.takeWhile (· != '.') = type.toList := by
    intro type name htype
    have hall : ∀ c ∈ type.toList, (c != '.') = true :=
      fun c hc => bne_iff_ne.2 fun heq => htype (heq ▸ hc)
    simp [ResourceKey.of, List.takeWhile_append_of_pos hall]
  have htype : type = type' := String.toList_inj.1 (by rw [← hbefore h, hkey, hbefore h'])
  subst htype
  have htext := congrArg (fun key => key.text.toList) hkey
  simp only [ResourceKey.of, String.toList_append] at htext
  exact ⟨rfl, String.toList_inj.1 (List.append_cancel_left htext)⟩

/-- With a point in a type it cannot. -/
example : ResourceKey.of "a.b" "c" = .of "a" "b.c" := by decide

/-- No resource of the files has the key of a patch without having its labels. -/
def Patch.DistinctIn (files : ModuleFiles) (p : Patch) : Prop :=
  ∀ e ∈ files, ∀ b ∈ e.2.document.blocks, ∀ type name, b.Declares type name →
    ResourceKey.of type name = p.key → type = p.type ∧ name = p.name

/-- Types without points are enough. -/
theorem Patch.distinctIn_of_no_point {files : ModuleFiles} {p : Patch} (hp : '.' ∉ p.type.toList)
    (hfiles : ∀ e ∈ files, ∀ b ∈ e.2.document.blocks, b.kind = "resource" →
      ∀ type ∈ b.labelTexts.take 1, '.' ∉ type.toList) : p.DistinctIn files := by
  intro e he b hb type name ⟨hkind, hlabels⟩ hkey
  have htype : '.' ∉ type.toList := hfiles e he b hb hkind type (by simp [hlabels])
  exact ResourceKey.of_inj htype hp hkey

/-! ## Files -/

/-- A file as it was read, or as writes left it. -/
inductive ModuleFile.Made : ModuleFile → Prop
  | read {source : String} {path : Path} {f : ModuleFile} {notices : List Notice}
      (h : (ModuleFile.read source path).run = (.ok f, notices)) : Made f
  | write {f g : ModuleFile} {handle : BlockHandle} {key : ResourceKey} {name : String}
      {a : PatchAttribute} (hf : Made f) (hw : f.write handle key name a = .ok g) : Made g

theorem ModuleFile.Made.indexed {f : ModuleFile} (h : f.Made) : f.Indexed := by
  induction h with
  | read h => exact .of_read h
  | write _ hw ih => exact ih.write hw

/-! ## What is written -/

/-- All attributes of a patch go to one block. -/
theorem eq_of_mem_attributeLog {rank : Nat} {handle : BlockHandle} {key : ResourceKey}
    {attrs : List (String × PatchAttribute)} {files : ModuleFiles} {w : Nat × Nat}
    (h : w ∈ Patching.attributeLog rank handle key files attrs) : w = (rank, handle.rank) := by
  induction attrs generalizing files with
  | nil => cases h
  | cons attr rest ih =>
    rw [Patching.attributeLog] at h
    split at h
    · cases h
    · split at h
      · rcases List.mem_cons.1 h with rfl | h
        · rfl
        · exact ih h
      · cases h

/-- The block with the given ranks has a key. -/
def HasKey (files : ModuleFiles) (w : Nat × Nat) (key : ResourceKey) : Prop :=
  ∃ path f b, files[w.1]? = some (path, f) ∧ f.document.blocks[w.2]? = some b ∧
    resourceKey? b = some key

/-- The block that is found for a key has this key. -/
theorem hasKey_locate {files : ModuleFiles} (hfiles : ∀ e ∈ files, e.2.Indexed)
    {key : ResourceKey} {rank : Nat} {handle : BlockHandle}
    (h : (locate files key).1 = some (rank, handle)) : HasKey files (rank, handle.rank) key := by
  obtain ⟨pre, path, file, post, r, rfl, rfl, -, hfind, rfl⟩ := locate_eq_some h
  have hrank : resourceRank? key file.document.blocks = some r.block.rank := by
    rw [← hfiles (path, file) (by simp) key, hfind, Option.map_some]
  obtain ⟨before, b, after, hblocks, hlength, -, hkey⟩ := resourceRank?_eq_some hrank
  exact ⟨path, file, b, by simp, by simp [hblocks, ← hlength], hkey⟩

/-- Writes do not change keys. -/
theorem Rewritten.hasKey {files final : ModuleFiles} {writes : List (Nat × Nat)}
    (h : Rewritten writes files final) (hlen : final.length = files.length) {w : Nat × Nat}
    {key : ResourceKey} (hkey : HasKey final w key) : HasKey files w key := by
  obtain ⟨path, g, c, hg, hc, hkey⟩ := hkey
  have hbound : w.1 < files.length := hlen ▸ (List.getElem?_eq_some_iff.1 hg).1
  have hf : files[w.1]? = some (files[w.1].1, files[w.1].2) := List.getElem?_eq_getElem hbound
  obtain ⟨g', hg', hfg⟩ := h w.1 _ _ hf
  obtain ⟨-, rfl⟩ := Prod.mk.inj (Option.some.inj (hg.symm.trans hg'))
  have hbare : (files[w.1].2.document.blocks.map Block.bare)[w.2]? = some c.bare := by
    rw [← hfg.map_bare, List.getElem?_map, hc, Option.map_some]
  rw [List.getElem?_map, Option.map_eq_some_iff] at hbare
  obtain ⟨b, hb, hbc⟩ := hbare
  refine ⟨_, _, b, hf, hb, ?_⟩
  rw [← hkey]
  exact resourceKey?_congr (b := b.bare) (c := c.bare) (by rw [hbc]) (by rw [hbc])

/-- **Whatever patches write has the key of one of them.** -/
theorem hasKey_log {patches : List Patch} {files : ModuleFiles}
    (hfiles : ∀ e ∈ files, e.2.Indexed) {w : Nat × Nat} (hw : w ∈ Patching.log files patches) :
    ∃ p ∈ patches, HasKey files w p.key := by
  induction patches generalizing files with
  | nil => cases hw
  | cons p rest ih =>
    rw [Patching.log] at hw
    split at hw
    · cases hw
    · next rank handle hlocate =>
      rcases List.mem_append.1 hw with hw | hw
      · rw [eq_of_mem_attributeLog hw]
        exact ⟨p, List.mem_cons_self, hasKey_locate hfiles hlocate⟩
      -- the rest starts from other files, in which all blocks have the keys they had
      · split at hw
        · next next hwrite =>
          have hfirst := rewritten_writeAll rank handle p.key p.attributes files
          have hlen := length_writeAll rank handle p.key p.attributes files
          have hindexed := every_writeAll (fun hf hw => hf.write hw) rank handle p.key
            p.attributes files hfiles
          rw [hwrite] at hfirst hlen hindexed
          obtain ⟨q, hq, hkey⟩ := ih hindexed hw
          exact ⟨q, List.mem_cons_of_mem p hq, hfirst.hasKey hlen hkey⟩
        · cases hw

/-! ## What changes -/

/-- A structure that is the same, or a block with some property that got another body. -/
inductive Hcl.Structure.ChangedIf (P : Block → Prop) : Structure → Structure → Prop
  | same (s : Structure) : ChangedIf P s s
  | body (b : Block) (body : List Structure) (h : P b) :
      ChangedIf P (.block b) (.block { b with body := body })

/-- Only written blocks change. -/
theorem Hcl.Edited.changedIf {P : Block → Prop} {written : List Nat} {rank : Nat}
    {ss ts : List Structure} (h : Edited written rank ss ts)
    (hP : ∀ n b, rank + n ∈ written → (blocksOf ss)[n]? = some b → P b) :
    List.Forall₂ (Structure.ChangedIf P) ss ts := by
  induction h with
  | nil => exact .nil
  | @cons rank s t ss ts hst _ ih =>
    have hhead : s.ChangedIf P t := by
      cases hst with
      | same => exact .same s
      | body b body hb => exact .body b body (hP 0 b hb rfl)
    refine .cons hhead (ih fun n b hn hb => ?_)
    cases s with
    | attr a => exact hP n b hn hb
    | block c => exact hP (n + 1) b (by rwa [← Nat.add_assoc, Nat.add_right_comm]) hb

/-- A resource that no block declares is not found. -/
theorem locate_eq_none_of_not_declared {files : ModuleFiles} (hfiles : ∀ e ∈ files, e.2.Indexed)
    {key : ResourceKey} (h : ∀ e ∈ files, ∀ b ∈ e.2.document.blocks, resourceKey? b ≠ some key) :
    (locate files key).1 = none := by
  cases hlocate : (locate files key).1 with
  | none => rfl
  | some found =>
    obtain ⟨rank, handle⟩ := found
    obtain ⟨path, f, b, hf, hb, hkey⟩ := hasKey_locate hfiles hlocate
    exact absurd hkey (h _ (List.mem_of_getElem? hf) b (List.mem_of_getElem? hb))

/-- Patching does not move resources. -/
theorem locate_patchAll (patches : List Patch) (files : ModuleFiles) (key : ResourceKey) :
    (locate (Patching.patchAll files patches).2 key).1 = (locate files key).1 := by
  have hlen : (Patching.patchAll files patches).2.length = files.length := by
    simpa [Table.keys] using congrArg List.length (Patching.keys_patchAll files patches)
  rw [locate, locate, (rewritten_patchAll patches files).declarations_eq hlen]

/-- A list of patches goes on from what its first part leaves. -/
theorem patchAll_append (files : ModuleFiles) (front back : List Patch) :
    Patching.patchAll files (front ++ back) =
      match Patching.patchAll files front with
      | (.ok _, files) => Patching.patchAll files back
      | (.error f, files) => (.error f, files) := by
  induction front generalizing files with
  | nil => rfl
  | cons p front ih =>
    rw [List.cons_append, Patching.patchAll, Patching.patchAll]
    rcases (locate files p.key).1 with _ | ⟨rank, handle⟩
    · rfl
    · rcases hw : Patching.writeAll rank handle p.key files p.attributes with ⟨_ | _, next⟩
      · simp only [hw]
      · simp only [hw, ih]

/-- **Patches hit their targets.** Take files as they were read or as writes left them, and patches
with keys that no other resources have. However patching ends, the files keep their paths, and a
structure of a file is the same or a block with the labels of one of the patches. When patching comes
to a patch without a block of its labels, it stops there and leaves the files as they are. -/
theorem patches_hit_targets {files : ModuleFiles} (hfiles : ∀ e ∈ files, e.2.Made)
    {patches : List Patch} (hkeys : ∀ p ∈ patches, p.DistinctIn files) :
    let final := ((applyPatches patches).run files).2.1
    final.keys = files.keys ∧
      (∀ (i : Nat) (path : Path) (f : ModuleFile), files[i]? = some (path, f) →
        ∃ g, final[i]? = some (path, g) ∧ List.Forall₂
          (Structure.ChangedIf fun b => ∃ p ∈ patches, b.Declares p.type p.name)
          f.document.structures g.document.structures) ∧
      ∀ front p back, patches = front ++ p :: back →
        (∀ e ∈ files, ∀ b ∈ e.2.document.blocks, ¬ b.Declares p.type p.name) →
        ((applyPatches front).run files).1 = .ok () →
        ((applyPatches patches).run files).1 = .error (.resourceNotFound p.key) ∧
          final = ((applyPatches front).run files).2.1 := by
  intro final
  have hindexed : ∀ e ∈ files, e.2.Indexed := fun e he => (hfiles e he).indexed
  obtain ⟨notices, hrun⟩ := Patching.run_applyPatches files patches
  have hfinal : final = (Patching.patchAll files patches).2 := congrArg (fun r => r.2.1) hrun
  refine ⟨?_, fun i path f hf => ?_, fun front p back hpatches hnone hfront => ?_⟩
  · rw [hfinal, Patching.keys_patchAll]
  · obtain ⟨g, hg, hfg⟩ := rewritten_patchAll patches files i path f hf
    refine ⟨g, hfinal ▸ hg, hfg.structures.changedIf fun n b hn hb => ?_⟩
    -- a block that differs was written, so it has the key of a patch
    have hmem : (i, n) ∈ Patching.log files patches := by
      rw [Nat.zero_add] at hn
      simpa [ranksIn] using hn
    obtain ⟨p, hp, path', f', b', hf', hb', hkey⟩ := hasKey_log hindexed hmem
    obtain ⟨-, rfl⟩ := Prod.mk.inj (Option.some.inj (hf.symm.trans hf'))
    obtain rfl := Option.some.inj (hb.symm.trans hb')
    obtain ⟨type, name, hdeclares, htype⟩ := resourceKey?_eq_some.1 hkey
    obtain ⟨rfl, rfl⟩ :=
      hkeys p hp _ (List.mem_of_getElem? hf) b (List.mem_of_getElem? hb) type name hdeclares htype
    exact ⟨p, hp, hdeclares⟩
  · obtain ⟨notices', hrun'⟩ := Patching.run_applyPatches files front
    have hpatch : p ∈ patches := by simp [hpatches]
    -- writes in front of it declare no resource
    have hmissing : (locate files p.key).1 = none := by
      refine locate_eq_none_of_not_declared hindexed fun e he b hb hkey => ?_
      obtain ⟨type, name, hdeclares, htype⟩ := resourceKey?_eq_some.1 hkey
      obtain ⟨rfl, rfl⟩ := hkeys p hpatch e he b hb type name hdeclares htype
      exact hnone e he b hb hdeclares
    have hstill := locate_patchAll front files p.key
    rw [hrun'] at hfront
    rw [hfinal, hrun, hrun', hpatches, patchAll_append]
    rcases hleft : Patching.patchAll files front with ⟨_ | _, next⟩
    · rw [hleft] at hfront
      cases hfront
    · rw [hleft, hmissing] at hstill
      simp only [Patching.patchAll, hstill, and_self]

/-- A data source, a resource with a third label and a resource of another type are no targets. -/
theorem patches_hit_targets_only :
    let others := "data k w \x7b\x7d\nresource k w x \x7b\x7d\nresource l w \x7b\x7d\n"
    let source := others ++ "resource k w \x7b\n  a = 1\n\x7d\n"
    let f := (ModuleFile.read source ⟨"main.tf"⟩).run.1.toOption.getD
      ⟨⟨""⟩, "", ⟨[], [], true⟩, .empty, false⟩
    let attributes : Table String PatchAttribute := [("a", ⟨.replace, .bool true⟩)]
    let patches : List Patch := [⟨"k", "w", none, attributes⟩, ⟨"k", "v", none, attributes⟩]
    let final := ((applyPatches patches).run [(⟨"main.tf"⟩, f)]).2.1
    final.map (·.2.text) = [others ++ "resource k w \x7b\n  a = true\n\x7d\n"] ∧
      ((applyPatches patches).run [(⟨"main.tf"⟩, f)]).1 = .error (.resourceNotFound ⟨"k.v"⟩) ∧
      ∃ g, final[0]? = some (⟨"main.tf"⟩, g) ∧ List.Forall₂
        (Structure.ChangedIf fun b => ∃ p ∈ patches, b.Declares p.type p.name)
        f.document.structures g.document.structures := by
  intro others source f attributes patches final
  obtain ⟨hread, hpoints, hlabels, htexts, hfirst⟩ :
      (ModuleFile.read source ⟨"main.tf"⟩).run.1.isOk = true ∧
      (∀ b ∈ f.document.blocks, ∀ type ∈ b.labelTexts.take 1, '.' ∉ type.toList) ∧
      (∀ b ∈ f.document.blocks, b.labelTexts ≠ ["k", "v"]) ∧
      final.map (·.2.text) = [others ++ "resource k w \x7b\n  a = true\n\x7d\n"] ∧
      ((applyPatches [⟨"k", "w", none, attributes⟩]).run [(⟨"main.tf"⟩, f)]).1.isOk = true := by
    decide +kernel
  have hfile := eq_ok_of_isOk (d := ⟨⟨""⟩, "", ⟨[], [], true⟩, .empty, false⟩) hread
  have hmade : ∀ e ∈ [((⟨"main.tf"⟩ : Path), f)], e.2.Made := by
    intro e he
    rw [List.mem_singleton.1 he]
    exact .read hfile
  have hkeys : ∀ p ∈ patches, p.DistinctIn [(⟨"main.tf"⟩, f)] := by
    intro p hp
    have hp : '.' ∉ p.type.toList := by
      revert p
      decide +kernel
    refine Patch.distinctIn_of_no_point hp fun e he b hb _ => ?_
    rw [List.mem_singleton.1 he] at hb
    exact hpoints b hb
  obtain ⟨-, hchanged, hmissing⟩ := patches_hit_targets hmade hkeys
  refine ⟨htexts, ?_, hchanged 0 _ _ rfl⟩
  refine (hmissing [⟨"k", "w", none, attributes⟩] _ [] rfl (fun e he b hb hdeclares => ?_)
    (congrArg Prod.fst (patchingRun_eq_of_isOk hfirst))).1
  rw [List.mem_singleton.1 he] at hb
  exact hlabels b hb hdeclares.2

end HclOverlay
