import HclOverlay.Proofs.Patching.Refinement
import HclOverlay.Proofs.Patching.Targets

/-!
# Patches of different blocks

What a patch writes is computed from the block it writes to and from the text that the file was read
from. A write to another block changes neither. So a patch that succeeds amounts to putting a block
in a place, and patches of different resources put different blocks in different places.

* `ModuleFile.rewriteBlock?` — a block with one attribute written; `write_eq_ok_iff`.
* `putBlock` — the files with a block put in a place. Puts in different places commute.
* `writeAll_eq_ok_iff` — the attributes of one patch, by induction over them.
* `Target` — the block that a patch is for. Puts in other places leave it there.
* `patchAll_swap`, `patchAll_perm` — **patches of different resources** can be swapped, and so be
  applied in any order.
-/

namespace HclOverlay

open Hcl

/-! ## One block among structures -/

namespace Hcl

theorem modifyNthBlock_comm {m n : Nat} (h : m ≠ n) (f g : Block → Block)
    (body : List Structure) :
    modifyNthBlock f m (modifyNthBlock g n body) =
      modifyNthBlock g n (modifyNthBlock f m body) := by
  induction body generalizing m n with
  | nil => rfl
  | cons s rest ih =>
    cases s with
    | attr a => exact congrArg (Structure.attr a :: ·) (ih h)
    | block b =>
      cases m with
      | zero =>
        cases n with
        | zero => exact absurd rfl h
        | succ n => rfl
      | succ m =>
        cases n with
        | zero => rfl
        | succ n => exact congrArg (Structure.block b :: ·) (ih fun heq => h (heq ▸ rfl))

theorem modifyNthBlock_modifyNthBlock (f g : Block → Block) (n : Nat) (body : List Structure) :
    modifyNthBlock f n (modifyNthBlock g n body) = modifyNthBlock (f ∘ g) n body := by
  induction body generalizing n with
  | nil => rfl
  | cons s rest ih =>
    cases s with
    | attr a => exact congrArg (Structure.attr a :: ·) (ih n)
    | block b =>
      cases n with
      | zero => rfl
      | succ n => exact congrArg (Structure.block b :: ·) (ih n)

/-- A block with a rank, and what stands around it. -/
theorem exists_append_of_blocksOf {n : Nat} {b : Block} {body : List Structure}
    (hb : (blocksOf body)[n]? = some b) :
    ∃ pre post, body = pre ++ .block b :: post ∧ (blocksOf pre).length = n := by
  induction body generalizing n with
  | nil => cases hb
  | cons s rest ih =>
    cases s with
    | attr a =>
      obtain ⟨pre, post, rfl, hn⟩ := ih hb
      exact ⟨.attr a :: pre, post, rfl, hn⟩
    | block c =>
      cases n with
      | zero =>
        obtain rfl : c = b := Option.some.inj hb
        exact ⟨[], rest, rfl, rfl⟩
      | succ n =>
        obtain ⟨pre, post, rfl, rfl⟩ := ih hb
        exact ⟨.block c :: pre, post, rfl, rfl⟩

/-- What becomes of a block is all that counts. -/
theorem modifyNthBlock_congr {f g : Block → Block} {n : Nat} {b : Block} {body : List Structure}
    (hb : (blocksOf body)[n]? = some b) (h : f b = g b) :
    modifyNthBlock f n body = modifyNthBlock g n body := by
  obtain ⟨pre, post, rfl, rfl⟩ := exists_append_of_blocksOf hb
  rw [modifyNthBlock_append, modifyNthBlock_append, h]

/-- A block that stays what it is leaves everything as it is. -/
theorem modifyNthBlock_self {f : Block → Block} {n : Nat} {b : Block} {body : List Structure}
    (hb : (blocksOf body)[n]? = some b) (h : f b = b) : modifyNthBlock f n body = body := by
  obtain ⟨pre, post, rfl, rfl⟩ := exists_append_of_blocksOf hb
  rw [modifyNthBlock_append, h]

end Hcl

/-! ## One block of a file -/

namespace ModuleFile

variable {f g : ModuleFile} {b c : Block} {handle : BlockHandle}

/-- A block with an attribute of a patch written, if the write succeeds. -/
def rewriteBlock? (f : ModuleFile) (b : Block) (attr : String × PatchAttribute) : Option Block :=
  if Text.isIdentifier attr.1 then
    (Expr.read? ((newValue b attr.1 attr.2).chars (f.indentFor b attr.1))).map fun e =>
      { b with body := setAttribute (f.indentFor b attr.1) (f.onOneLine b) attr.1 e b.body }
  else none

/-- A file with another block in the place of one of its own; `touched` says whether this counts as
a change. -/
def withBlock (f : ModuleFile) (n : Nat) (c : Block) (touched : Bool) : ModuleFile :=
  { f with document := f.document.modifyBlock n fun _ => c, modified := f.modified || touched }

/-- The text that a file was read from is all that enters besides the block. -/
theorem rewriteBlock?_congr (h : g.source = f.source) : g.rewriteBlock? = f.rewriteBlock? := by
  cases f
  cases g
  cases h
  rfl

/-- **A write** that succeeds puts the rewritten block in the place of the block. -/
theorem write_eq_ok_iff (hb : f.block? handle = some b) {key : ResourceKey} {name : String}
    {a : PatchAttribute} :
    f.write handle key name a = .ok g ↔
      ∃ c, f.rewriteBlock? b (name, a) = some c ∧ g = f.withBlock handle.rank c true := by
  have hput : ∀ e, f.put handle b name e = f.withBlock handle.rank
      { b with body := setAttribute (f.indentFor b name) (f.onOneLine b) name e b.body } true := by
    intro e
    rw [put, withBlock, Bool.or_true]
    refine congrArg (fun d => { f with document := d, modified := true }) ?_
    refine congrArg (fun ss => { f.document with structures := ss }) (modifyNthBlock_congr hb ?_)
    rfl
  constructor
  · intro h
    obtain ⟨b', e, hb', hread, hname, rfl⟩ := write_eq_ok h
    obtain rfl := Option.some.inj (hb.symm.trans hb')
    refine ⟨_, ?_, hput e⟩
    rw [rewriteBlock?, if_pos hname, hread, Option.map_some]
  · rintro ⟨c, hc, rfl⟩
    rw [rewriteBlock?] at hc
    split at hc
    · next hname =>
      obtain ⟨e, hread, rfl⟩ := Option.map_eq_some_iff.1 hc
      rw [← hput, write, hb]
      simp only [readRendered, hread, hname, if_true]
      rfl
    · cases hc

/-- Nothing changes if a block is put in its own place. -/
theorem withBlock_self (hb : f.block? handle = some b) :
    f.withBlock handle.rank b false = f := by
  rw [withBlock, Document.modifyBlock, modifyNthBlock_self hb rfl, Bool.or_false]

theorem withBlock_withBlock (f : ModuleFile) (n : Nat) (b c : Block) (touched : Bool) :
    (f.withBlock n b true).withBlock n c touched = f.withBlock n c true := by
  simp only [withBlock, Document.modifyBlock, modifyNthBlock_modifyNthBlock, Bool.or_true,
    Bool.true_or]
  rfl

theorem withBlock_comm {m n : Nat} (h : m ≠ n) (f : ModuleFile) (b c : Block) (s t : Bool) :
    (f.withBlock m b s).withBlock n c t = (f.withBlock n c t).withBlock m b s := by
  simp only [withBlock, Document.modifyBlock, Bool.or_right_comm,
    modifyNthBlock_comm h fun _ => b]

@[simp] theorem source_withBlock (f : ModuleFile) (n : Nat) (c : Block) (touched : Bool) :
    (f.withBlock n c touched).source = f.source := rfl

@[simp] theorem index_withBlock (f : ModuleFile) (n : Nat) (c : Block) (touched : Bool) :
    (f.withBlock n c touched).index = f.index := rfl

theorem block?_withBlock (hb : f.block? handle = some b) (c : Block) (touched : Bool) :
    (f.withBlock handle.rank c touched).block? handle = some c := by
  rw [block?, withBlock, Document.blocks_modifyBlock, List.getElem?_modify_eq,
    show f.document.blocks[handle.rank]? = some b from hb]
  rfl

theorem block?_withBlock_of_ne {n : Nat} (h : n ≠ handle.rank) (f : ModuleFile) (c : Block)
    (touched : Bool) : (f.withBlock n c touched).block? handle = f.block? handle := by
  rw [block?, withBlock, Document.blocks_modifyBlock, List.getElem?_modify_ne _ _ h, block?]

end ModuleFile

/-! ## One block of the files -/

/-- The files with another block in the place that two ranks give: those of the file and of the
block in it. -/
def putBlock (files : ModuleFiles) (rank n : Nat) (c : Block) (touched : Bool) : ModuleFiles :=
  List.modify files rank fun e => (e.1, e.2.withBlock n c touched)

section Puts

variable {files final : ModuleFiles} {rank : Nat} {handle : BlockHandle} {path : Path}
  {f : ModuleFile} {b : Block} {key : ResourceKey}

theorem getElem?_putBlock (hf : files[rank]? = some (path, f)) (n : Nat) (c : Block)
    (touched : Bool) :
    (putBlock files rank n c touched)[rank]? = some (path, f.withBlock n c touched) := by
  rw [putBlock, List.getElem?_modify_eq, hf]
  rfl

/-- What becomes of the member of a list is all that counts. -/
theorem modify_congr {α : Type} {l : List α} {n : Nat} {a : α} (ha : l[n]? = some a) {f g : α → α}
    (h : f a = g a) : l.modify n f = l.modify n g := by
  refine List.ext_getElem? fun i => ?_
  rw [List.getElem?_modify, List.getElem?_modify]
  by_cases hi : n = i
  · subst hi
    simp [ha, h]
  · simp [hi]

/-- Setting a file to one with another block is putting this block in its place. -/
theorem setFile_withBlock (hf : files[rank]? = some (path, f)) (n : Nat) (c : Block)
    (touched : Bool) :
    setFile files rank (f.withBlock n c touched) = putBlock files rank n c touched :=
  modify_congr hf rfl

theorem putBlock_self (hf : files[rank]? = some (path, f)) (hb : f.block? handle = some b) :
    putBlock files rank handle.rank b false = files := by
  have hsame : (path, f.withBlock handle.rank b false) = id (path, f) := by
    rw [ModuleFile.withBlock_self hb, id]
  exact (modify_congr hf hsame).trans (List.modify_id rank files)

theorem putBlock_putBlock (files : ModuleFiles) (rank n : Nat) (b c : Block) (touched : Bool) :
    putBlock (putBlock files rank n b true) rank n c touched = putBlock files rank n c true := by
  rw [putBlock, putBlock, List.modify_modify_eq, putBlock]
  congr 1
  funext e
  exact congrArg (Prod.mk e.1) (e.2.withBlock_withBlock n b c touched)

/-- **Blocks in different places** can be put in any order. -/
theorem putBlock_comm {rank' n n' : Nat} (h : (rank, n) ≠ (rank', n')) (files : ModuleFiles)
    (b c : Block) (s t : Bool) :
    putBlock (putBlock files rank n b s) rank' n' c t =
      putBlock (putBlock files rank' n' c t) rank n b s := by
  refine List.ext_getElem? fun i => ?_
  simp only [putBlock, List.getElem?_modify, Option.map_eq_map, Option.map_map]
  congr 1
  funext e
  -- only a file that both puts are for has two blocks to change
  by_cases hi : rank = i
  · by_cases hi' : rank' = i
    · have hn : n ≠ n' := by
        rintro rfl
        exact h (by rw [hi, hi'])
      simp [hi, hi', ModuleFile.withBlock_comm hn]
    · simp [hi']
  · simp [hi]

theorem locate_putBlock (files : ModuleFiles) (rank n : Nat) (c : Block) (touched : Bool)
    (key : ResourceKey) :
    (locate (putBlock files rank n c touched) key).1 = (locate files key).1 := by
  have hindex : (putBlock files rank n c touched).map (fun e => (e.1, e.2.index)) =
      files.map fun e => (e.1, e.2.index) := by
    refine List.ext_getElem? fun i => ?_
    rw [List.getElem?_map, List.getElem?_map, putBlock, List.getElem?_modify]
    cases files[i]? with
    | none => simp
    | some e => split <;> simp
  rw [locate, locate, declarations_congr key 0 hindex]

/-- **The attributes of a patch**: all writes succeed if the block can be rewritten with each of them
in turn, and what comes of it is put in the place of the block. -/
theorem writeAll_eq_ok_iff (hf : files[rank]? = some (path, f)) (hb : f.block? handle = some b)
    (attrs : List (String × PatchAttribute)) :
    Patching.writeAll rank handle key files attrs = (.ok (), final) ↔
      ∃ c, attrs.foldlM f.rewriteBlock? b = some c ∧
        final = putBlock files rank handle.rank c (!attrs.isEmpty) := by
  induction attrs generalizing files f b with
  | nil =>
    simp only [Patching.writeAll, List.foldlM_nil, List.isEmpty_nil, Bool.not_true, Prod.mk.injEq,
      true_and, Option.pure_def, Option.some.injEq, exists_eq_left', putBlock_self hf hb]
    exact eq_comm
  | cons attr rest ih =>
    rw [Patching.writeAll, hf, List.foldlM_cons]
    dsimp only
    cases hw : f.write handle key attr.1 attr.2 with
    | error e =>
      refine iff_of_false (by simp) ?_
      rintro ⟨d, hd, -⟩
      obtain ⟨c, hc, -⟩ := Option.bind_eq_some_iff.1 hd
      rw [(ModuleFile.write_eq_ok_iff hb).2 ⟨c, hc, rfl⟩] at hw
      cases hw
    | ok g =>
      obtain ⟨c, hc, rfl⟩ := (ModuleFile.write_eq_ok_iff hb).1 hw
      have hrest := ih (getElem?_putBlock hf handle.rank c true)
        (ModuleFile.block?_withBlock hb c true)
      rw [ModuleFile.rewriteBlock?_congr (f.source_withBlock handle.rank c true)] at hrest
      simp only [setFile_withBlock hf, hrest, putBlock_putBlock, hc, Option.bind_eq_bind,
        Option.bind_some, List.isEmpty_cons, Bool.not_false]

end Puts

/-! ## Targets -/

/-- The block that a patch of a resource is for, and the file it is in. -/
structure Target (files : ModuleFiles) (key : ResourceKey) (rank : Nat) (handle : BlockHandle)
    (f : ModuleFile) (b : Block) : Prop where
  located : (locate files key).1 = some (rank, handle)
  file : ∃ path, files[rank]? = some (path, f)
  block : f.block? handle = some b
  declares : resourceKey? b = some key

namespace Target

variable {files final : ModuleFiles} {key key' : ResourceKey} {rank rank' : Nat}
  {handle handle' : BlockHandle} {f g : ModuleFile} {b c : Block}

theorem of_locate (hfiles : ∀ e ∈ files, e.2.Indexed)
    (h : (locate files key).1 = some (rank, handle)) : ∃ f b, Target files key rank handle f b := by
  obtain ⟨path, f, b, hf, hb, hkey⟩ := hasKey_locate hfiles h
  exact ⟨f, b, h, ⟨path, hf⟩, hb, hkey⟩

/-- Blocks of different resources stand in different places. -/
theorem place_ne (h : Target files key rank handle f b) (h' : Target files key' rank' handle' g c)
    (hne : key ≠ key') : (rank, handle.rank) ≠ (rank', handle'.rank) := by
  intro heq
  obtain ⟨rfl, hrank⟩ := Prod.mk.inj heq
  obtain ⟨path, hf⟩ := h.file
  obtain ⟨path', hg⟩ := h'.file
  obtain ⟨-, rfl⟩ := Prod.mk.inj (Option.some.inj (hf.symm.trans hg))
  have hb := h.block
  rw [ModuleFile.block?, hrank] at hb
  obtain rfl := Option.some.inj (hb.symm.trans h'.block)
  exact hne (Option.some.inj (h.declares.symm.trans h'.declares))

/-- A block that is put elsewhere leaves a target where it is, and in a file from the same text. -/
theorem putBlock (h : Target files key rank handle f b) {rank' n : Nat}
    (hne : (rank', n) ≠ (rank, handle.rank)) (c : Block) (touched : Bool) :
    ∃ g, Target (putBlock files rank' n c touched) key rank handle g b ∧ g.source = f.source := by
  obtain ⟨path, hf⟩ := h.file
  have hlocated := (locate_putBlock files rank' n c touched key).trans h.located
  by_cases hrank : rank' = rank
  · subst hrank
    have hn : n ≠ handle.rank := fun heq => hne (by rw [heq])
    refine ⟨f.withBlock n c touched, ⟨hlocated, ⟨path, getElem?_putBlock hf n c touched⟩, ?_,
      h.declares⟩, rfl⟩
    rw [ModuleFile.block?_withBlock_of_ne hn, h.block]
  · refine ⟨f, ⟨hlocated, ⟨path, ?_⟩, h.block, h.declares⟩, rfl⟩
    rw [HclOverlay.putBlock, List.getElem?_modify_ne _ _ hrank, hf]

/-- A patch that succeeds puts its block in place. -/
theorem patchAll_cons_eq_ok_iff {p : Patch} (h : Target files p.key rank handle f b)
    (rest : List Patch) :
    Patching.patchAll files (p :: rest) = (.ok (), final) ↔
      ∃ c, p.attributes.foldlM f.rewriteBlock? b = some c ∧
        Patching.patchAll
          (HclOverlay.putBlock files rank handle.rank c (!p.attributes.isEmpty)) rest =
            (.ok (), final) := by
  obtain ⟨path, hf⟩ := h.file
  rw [Patching.patchAll, h.located]
  dsimp only
  rcases hw : Patching.writeAll rank handle p.key files p.attributes with ⟨e | u, next⟩
  · refine iff_of_false (by simp) ?_
    rintro ⟨c, hc, -⟩
    rw [(writeAll_eq_ok_iff hf h.block p.attributes).2 ⟨c, hc, rfl⟩] at hw
    cases hw
  · obtain ⟨c, hc, rfl⟩ := (writeAll_eq_ok_iff hf h.block p.attributes).1 hw
    simp only [hc, Option.some.injEq, exists_eq_left']

end Target

/-! ## Two patches -/

theorem exists_locate_of_patchAll {files final : ModuleFiles} {p : Patch} {rest : List Patch}
    (h : Patching.patchAll files (p :: rest) = (.ok (), final)) :
    ∃ rank handle, (locate files p.key).1 = some (rank, handle) := by
  rw [Patching.patchAll] at h
  cases hlocate : (locate files p.key).1 with
  | none =>
    rw [hlocate] at h
    cases h
  | some found => exact ⟨found.1, found.2, rfl⟩

/-- **Patches of different resources** can be swapped. -/
theorem patchAll_swap {files final : ModuleFiles} (hfiles : ∀ e ∈ files, e.2.Indexed)
    {p q : Patch} (hne : p.key ≠ q.key)
    (h : Patching.patchAll files [p, q] = (.ok (), final)) :
    Patching.patchAll files [q, p] = (.ok (), final) := by
  obtain ⟨rank, handle, hlocate⟩ := exists_locate_of_patchAll h
  obtain ⟨f, b, hp⟩ := Target.of_locate hfiles hlocate
  obtain ⟨c, hc, h⟩ := (hp.patchAll_cons_eq_ok_iff [q]).1 h
  obtain ⟨rank', handle', hlocate'⟩ := exists_locate_of_patchAll h
  rw [locate_putBlock] at hlocate'
  obtain ⟨f', b', hq⟩ := Target.of_locate hfiles hlocate'
  have hplace := hp.place_ne hq hne
  obtain ⟨g', hq', hsource'⟩ := hq.putBlock hplace c (!p.attributes.isEmpty)
  obtain ⟨c', hc', h⟩ := (hq'.patchAll_cons_eq_ok_iff []).1 h
  rw [ModuleFile.rewriteBlock?_congr hsource'] at hc'
  cases h
  -- now the same two puts, the other one first
  refine (hq.patchAll_cons_eq_ok_iff [p]).2 ⟨c', hc', ?_⟩
  obtain ⟨g, hp', hsource⟩ := hp.putBlock hplace.symm c' (!q.attributes.isEmpty)
  rw [hp'.patchAll_cons_eq_ok_iff []]
  refine ⟨c, ?_, ?_⟩
  · rw [ModuleFile.rewriteBlock?_congr hsource, hc]
  · rw [putBlock_comm hplace.symm]
    rfl

/-! ## Lists of patches -/

/-- Patches that are all applied go through what their first part leaves. -/
theorem patchAll_append_eq_ok_iff {files final : ModuleFiles} (front : List Patch)
    {back : List Patch} :
    Patching.patchAll files (front ++ back) = (.ok (), final) ↔
      ∃ next, Patching.patchAll files front = (.ok (), next) ∧
        Patching.patchAll next back = (.ok (), final) := by
  rw [patchAll_append]
  rcases Patching.patchAll files front with ⟨e | u, next⟩ <;> simp

/-- **Patches of different resources** can be applied in any order. -/
theorem patchAll_perm {patches patches' : List Patch} (hperm : patches.Perm patches')
    (hne : patches.Pairwise fun p q => p.key ≠ q.key) {files final : ModuleFiles}
    (hfiles : ∀ e ∈ files, e.2.Indexed)
    (h : Patching.patchAll files patches = (.ok (), final)) :
    Patching.patchAll files patches' = (.ok (), final) := by
  induction hperm generalizing files final with
  | nil => exact h
  | @cons p patches patches' _ ih =>
    obtain ⟨next, hp, hrest⟩ := (patchAll_append_eq_ok_iff [p]).1 h
    have hnext := every_patchAll (fun hf hw => ModuleFile.Indexed.write hf hw) files [p] hfiles
    rw [hp] at hnext
    exact (patchAll_append_eq_ok_iff [p]).2
      ⟨next, hp, ih (List.pairwise_cons.1 hne).2 hnext hrest⟩
  | swap p q rest =>
    obtain ⟨next, hqp, hrest⟩ := (patchAll_append_eq_ok_iff [q, p]).1 h
    have hdifferent : q.key ≠ p.key := (List.pairwise_cons.1 hne).1 p List.mem_cons_self
    exact (patchAll_append_eq_ok_iff [p, q]).2
      ⟨next, patchAll_swap hfiles hdifferent hqp, hrest⟩
  | trans hperm _ ih ih' =>
    exact ih' (hne.perm hperm fun h => h.symm) hfiles (ih hne hfiles h)

end HclOverlay
