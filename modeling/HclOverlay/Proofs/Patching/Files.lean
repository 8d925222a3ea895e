import HclOverlay.Proofs.Patching.Steps
import Mathlib.Data.List.Basic

/-!
# The files of a module while it is patched

A module is read once and patched any number of times. What patching relies on from one write to the
next is stated here as one invariant.

* `ModuleFile.write_eq_ok` — what a successful write did.
* `resourceKey?`, `ModuleFile.Indexed` — **the index is about the tree as it is now**: it gives the
  rank of the first block that declares a resource. Writing keeps it, since it changes neither the
  kind nor the labels of a block.
* `readFiles`, `Patched` — the files that are read from texts and then patched, by calls that may
  fail; `Patched.indexed` is the invariant for all of them.
* `locate_eq_some`, `locate_eq_none` — where a resource is found.
-/

namespace HclOverlay

open Hcl

/-! ## The key of a block -/

/-- The resource that the block with a given rank declares. -/
def resourceOf? (rank : Nat) (b : Block) : Option ResourceHandle :=
  match b.labelTexts with
  | [type, name] => if b.kind = "resource" then some ⟨type, name, rank, b.span⟩ else none
  | _ => none

/-- The key of the resource that a block declares. -/
def resourceKey? (b : Block) : Option ResourceKey := (resourceOf? 0 b).map ResourceHandle.key

theorem resourceOf?_rank (rank : Nat) (b : Block) {r : ResourceHandle}
    (h : resourceOf? rank b = some r) : r.block.rank = rank := by
  unfold resourceOf? at h
  split at h
  · split at h
    · cases h
      rfl
    · cases h
  · cases h

/-- The rank of a block does not enter its key. -/
theorem map_key_resourceOf? (rank : Nat) (b : Block) :
    (resourceOf? rank b).map ResourceHandle.key = resourceKey? b := by
  unfold resourceKey? resourceOf?
  split
  · split <;> rfl
  · rfl

/-- A block keeps its key as long as it keeps its kind and its labels. -/
theorem resourceKey?_congr {b c : Block} (hk : b.kind = c.kind) (hl : b.labels = c.labels) :
    resourceKey? b = resourceKey? c := by
  simp only [resourceKey?, resourceOf?, Block.labelTexts, hk, hl]
  split
  · split <;> rfl
  · rfl

/-- The rank of the first block that declares a resource. -/
def resourceRank? (key : ResourceKey) (blocks : List Block) : Option Nat :=
  (blocks.map resourceKey?).idxOf? (some key)

theorem resourceRank?_cons (key : ResourceKey) (b : Block) (rest : List Block) :
    resourceRank? key (b :: rest) =
      if resourceKey? b = some key then some 0 else (resourceRank? key rest).map (· + 1) := by
  simp [resourceRank?, List.idxOf?_cons]

/-- The block with the rank of a resource comes behind others that do not declare it. -/
theorem resourceRank?_eq_some {key : ResourceKey} {blocks : List Block} {n : Nat}
    (h : resourceRank? key blocks = some n) :
    ∃ pre b post, blocks = pre ++ b :: post ∧ pre.length = n ∧
      (∀ c ∈ pre, resourceKey? c ≠ some key) ∧ resourceKey? b = some key := by
  induction blocks generalizing n with
  | nil => cases h
  | cons b rest ih =>
    rw [resourceRank?_cons] at h
    split at h
    · next hb =>
      cases h
      exact ⟨[], b, rest, rfl, rfl, by simp, hb⟩
    · next hb =>
      obtain ⟨m, hm, rfl⟩ := Option.map_eq_some_iff.1 h
      obtain ⟨pre, c, post, rfl, rfl, hpre, hc⟩ := ih hm
      refine ⟨b :: pre, c, post, rfl, rfl, fun d hd => ?_, hc⟩
      rcases List.mem_cons.1 hd with rfl | hd
      · exact hb
      · exact hpre d hd

theorem resourceRank?_eq_none {key : ResourceKey} {blocks : List Block}
    (h : resourceRank? key blocks = none) : ∀ b ∈ blocks, resourceKey? b ≠ some key := by
  intro b hb hk
  rw [resourceRank?, List.idxOf?_eq_none_iff] at h
  exact h (List.mem_map.2 ⟨b, hb, hk⟩)

/-- Changing bodies keeps the ranks of resources. -/
theorem resourceRank?_modify (key : ResourceKey) (blocks : List Block) (n : Nat)
    {f : Block → Block} (hf : ∀ b, resourceKey? (f b) = resourceKey? b) :
    resourceRank? key (blocks.modify n f) = resourceRank? key blocks := by
  have hmap : (blocks.modify n f).map resourceKey? = blocks.map resourceKey? := by
    induction blocks generalizing n with
    | nil => simp
    | cons b rest ih => cases n <;> simp [hf, ih]
  rw [resourceRank?, hmap, resourceRank?]

/-! ## The index of a file that was read -/

/-- The first resource with a key among blocks, the first of which has the given rank. -/
def firstResource? (key : ResourceKey) (rank : Nat) : List Block → Option ResourceHandle
  | [] => none
  | b :: rest =>
    if resourceKey? b = some key then resourceOf? rank b else firstResource? key (rank + 1) rest

theorem Table.find?_insertNew {κ α : Type} [BEq κ] [LawfulBEq κ] (t : Table κ α) (key other : κ)
    (value : α) :
    (t.insertNew key value).find? other =
      (t.find? other).or (if key == other then some value else none) := by
  unfold Table.insertNew
  split
  · next h =>
    obtain ⟨v, hv⟩ := Option.isSome_iff_exists.1 h
    split
    · next heq => rw [← eq_of_beq heq, hv, Option.some_or]
    · next => rw [Option.or_none]
  · next h =>
    induction t with
    | nil => simp [Table.find?]
    | cons e rest ih =>
      have hrest : ¬ Table.contains rest key = true := by
        intro hc
        apply h
        simp only [Table.contains, Table.find?] at hc ⊢
        split
        · rfl
        · exact hc
      simp only [List.cons_append, Table.find?]
      split
      · rfl
      · exact ih hrest

/-- A resource is added as a new entry, whether or not there is a notice about it. -/
theorem Index.addResource_two (kind : String) (table : Table ResourceKey ResourceHandle)
    (type name : String) (handle : BlockHandle) :
    (addResource kind table [type, name] handle).1 =
      table.insertNew (.of type name) ⟨type, name, handle⟩ := by
  simp only [addResource, ResourceHandle.key]
  by_cases hc : table.contains (ResourceKey.of type name) = true
  · simp [hc, Table.insertNew]
  · simp [hc]

/-- What adding a block does to the resources of an index. -/
theorem Index.find?_addBlock (index : Index) (rank : Nat) (b : Block) (key : ResourceKey) :
    (index.addBlock rank b).1.resources.find? key =
      (index.resources.find? key).or
        (if resourceKey? b = some key then resourceOf? rank b else none) := by
  by_cases hk : b.kind = "resource"
  · have hadd : (index.addBlock rank b).1.resources =
        (addResource "resource" index.resources b.labelTexts ⟨rank, b.span⟩).1 := by
      simp only [addBlock, hk, if_true]
    rw [hadd]
    by_cases htwo : ∃ type name, b.labelTexts = [type, name]
    · obtain ⟨type, name, hl⟩ := htwo
      rw [hl, addResource_two, Table.find?_insertNew]
      simp [resourceKey?, resourceOf?, hl, hk, ResourceHandle.key]
    · have hnone : resourceOf? rank b = none := by
        unfold resourceOf?
        split
        · next type name hl => exact absurd ⟨type, name, hl⟩ htwo
        · rfl
      have hsame : (addResource "resource" index.resources b.labelTexts ⟨rank, b.span⟩).1 =
          index.resources := by
        unfold addResource
        split
        · next type name hl => exact absurd ⟨type, name, hl⟩ htwo
        · rfl
      rw [hsame, hnone, ite_self, Option.or_none]
  · have hadd : (index.addBlock rank b).1.resources = index.resources := by
      simp only [addBlock, hk, if_false]
      split_ifs <;> rfl
    have hnone : resourceOf? rank b = none := by
      unfold resourceOf?
      split <;> simp [hk]
    rw [hadd, hnone, ite_self, Option.or_none]

/-- What adding blocks does to the resources of an index. -/
theorem Index.find?_addBlocks (index : Index) (rank : Nat) (blocks : List Block)
    (key : ResourceKey) :
    (index.addBlocks rank blocks).1.resources.find? key =
      (index.resources.find? key).or (firstResource? key rank blocks) := by
  induction blocks generalizing index rank with
  | nil => rw [firstResource?, Option.or_none, addBlocks]
  | cons b rest ih =>
    simp only [addBlocks]
    rw [ih, find?_addBlock, Option.or_assoc, firstResource?]
    congr 1
    split
    · next hb =>
      obtain ⟨r, hr, -⟩ := Option.map_eq_some_iff.1 ((map_key_resourceOf? rank b).trans hb)
      rw [hr, Option.some_or]
    · rw [Option.none_or]

/-- The first resource with a key is that of the block with its rank. -/
theorem firstResource?_rank (key : ResourceKey) (rank : Nat) (blocks : List Block) :
    (firstResource? key rank blocks).map (·.block.rank) =
      (resourceRank? key blocks).map (· + rank) := by
  induction blocks generalizing rank with
  | nil => rfl
  | cons b rest ih =>
    rw [firstResource?, resourceRank?_cons]
    split
    · next hb =>
      obtain ⟨r, hr, -⟩ := Option.map_eq_some_iff.1 ((map_key_resourceOf? rank b).trans hb)
      rw [hr, Option.map_some, resourceOf?_rank rank b hr, Option.map_some, Nat.zero_add]
    · rw [ih, Option.map_map]
      congr 1
      funext n
      simp only [Function.comp_apply]
      omega

/-! ## Reading and writing a file -/

namespace ModuleFile

theorem outcome_forM_note (ns s : List Notice) : outcome (ns.forM note) s = (.ok (), s ++ ns) := by
  induction ns generalizing s with
  | nil =>
    rw [List.append_nil]
    rfl
  | cons n ns ih =>
    change outcome (note n >>= fun _ => ns.forM note) s = _
    rw [outcome_bind, note, outcome_modify]
    change outcome (ns.forM note) (s ++ [n]) = _
    rw [ih, List.append_assoc, List.singleton_append]

/-- Whatever the notices so far, a text that is a document is read as a file. -/
theorem outcome_read {source : String} {d : Document} (h : Document.read? source = some d)
    (path : Path) (s : List Notice) :
    outcome (read source path) s =
      (.ok ⟨path, source, d, (Index.ofDocument d).1, false⟩, s ++ (Index.ofDocument d).2) := by
  have hdocument : Overlay.readDocument source path = .ok d := by
    rw [Overlay.readDocument, h]
  rw [read, outcome_bind, hdocument, outcome_lift]
  change outcome ((Index.ofDocument d).2.forM note >>= fun _ => _) s = _
  rw [outcome_bind, outcome_forM_note]
  rfl

/-- What a file that was read is. -/
theorem read_eq_ok {source : String} {path : Path} {f : ModuleFile} {s t : List Notice}
    (h : outcome (read source path) s = (.ok f, t)) :
    ∃ d, Document.read? source = some d ∧ f = ⟨path, source, d, (Index.ofDocument d).1, false⟩ := by
  obtain ⟨d, u, hd, h⟩ := outcome_bind_eq_ok h
  obtain ⟨-, v, -, h⟩ := outcome_bind_eq_ok h
  cases h
  have hread : Overlay.readDocument source path = .ok d :=
    congrArg Prod.fst ((outcome_lift _ s).symm.trans hd)
  unfold Overlay.readDocument at hread
  split at hread
  · next e he =>
    cases hread
    exact ⟨d, he, rfl⟩
  · cases hread

/-- A file with an expression put under the name of an attribute of a block. -/
def put (f : ModuleFile) (h : BlockHandle) (b : Block) (name : String) (e : Expr) : ModuleFile :=
  { f with
    document := f.document.modifyBlock h.rank fun c =>
      { c with body := setAttribute (f.indentFor b name) (f.onOneLine b) name e c.body }
    modified := true }

/-- What a write did, if it succeeded: the block is there, the new value reads back as an
expression, and this expression is put under the name of the attribute. -/
theorem write_eq_ok {f g : ModuleFile} {h : BlockHandle} {key : ResourceKey} {name : String}
    {a : PatchAttribute} (hw : f.write h key name a = .ok g) :
    ∃ b e, f.block? h = some b ∧
      Expr.read? ((newValue b name a).chars (f.indentFor b name)) = some e ∧
      Text.isIdentifier name = true ∧ g = f.put h b name e := by
  unfold write at hw
  split at hw
  · cases hw
  · next b hb =>
    cases he : Expr.read? ((newValue b name a).chars (f.indentFor b name)) with
    | none =>
      simp [readRendered, he, bind, Except.bind] at hw
    | some e =>
      simp only [readRendered, he, bind, Except.bind] at hw
      split at hw
      · next hn =>
        cases hw
        exact ⟨b, e, hb, he, hn, rfl⟩
      · cases hw

/-- **The index is about the tree as it is now**: for every resource it has the rank of the first
block that declares it. -/
def Indexed (f : ModuleFile) : Prop :=
  ∀ key, (f.index.resources.find? key).map (·.block.rank) = resourceRank? key f.document.blocks

/-- A file that was read is indexed. -/
theorem Indexed.of_read {source : String} {path : Path} {f : ModuleFile} {s t : List Notice}
    (h : outcome (read source path) s = (.ok f, t)) : f.Indexed := by
  obtain ⟨d, -, rfl⟩ := read_eq_ok h
  intro key
  simp only [Index.ofDocument]
  rw [Index.find?_addBlocks, Index.empty, Table.find?_nil, Option.none_or, firstResource?_rank]
  simp

/-- Writing keeps a file indexed. -/
theorem Indexed.write {f g : ModuleFile} (hf : f.Indexed) {h : BlockHandle} {key : ResourceKey}
    {name : String} {a : PatchAttribute} (hw : f.write h key name a = .ok g) : g.Indexed := by
  obtain ⟨b, e, -, -, -, rfl⟩ := write_eq_ok hw
  intro k
  rw [put, Document.blocks_modifyBlock, resourceRank?_modify]
  · exact hf k
  · intro c
    exact resourceKey?_congr rfl rfl

end ModuleFile

/-! ## Files from texts, patched any number of times -/

/-- Reads files in load order; of two texts with one path the later one counts. -/
def readFiles (sources : List (Path × String)) : Noted ModuleFiles :=
  sources.foldlM (fun files entry => do
    let file ← ModuleFile.read entry.2 entry.1
    return Table.insert files entry.1 file) []

/-- The files that are read from texts and then patched, by calls that may fail. -/
inductive Patched : ModuleFiles → Prop
  /-- files as they were read -/
  | read {sources : List (Path × String)} {files : ModuleFiles} {notices : List Notice}
      (h : (readFiles sources).run = (.ok files, notices)) : Patched files
  /-- what a call leaves, whether or not it fails -/
  | patch {files : ModuleFiles} (patches : List Patch) (h : Patched files) :
      Patched ((applyPatches patches).run files).2.1

section Every

variable {P : ModuleFile → Prop}

theorem every_insert {files : ModuleFiles} {path : Path} {file : ModuleFile}
    (hall : ∀ e ∈ files, P e.2) (hfile : P file) : ∀ e ∈ Table.insert files path file, P e.2 := by
  induction files with
  | nil => simpa [Table.insert] using hfile
  | cons e rest ih =>
    have hrest := ih fun x hx => hall x (List.mem_cons_of_mem e hx)
    have hhead := hall e List.mem_cons_self
    simp only [Table.insert]
    split
    · intro x hx
      rcases List.mem_cons.1 hx with rfl | hx
      · exact hfile
      · exact hall x (List.mem_cons_of_mem e hx)
    · intro x hx
      rcases List.mem_cons.1 hx with rfl | hx
      · exact hhead
      · exact hrest x hx

theorem every_setFile {files : ModuleFiles} {rank : Nat} {file : ModuleFile}
    (hall : ∀ e ∈ files, P e.2) (hfile : P file) : ∀ e ∈ setFile files rank file, P e.2 := by
  intro e he
  obtain ⟨i, hi, rfl⟩ := List.mem_iff_getElem.1 he
  simp only [setFile, List.getElem_modify]
  split
  · exact hfile
  · exact hall _ (List.getElem_mem _)

/-- A property of single files that every write keeps is kept while a patch is written. -/
theorem every_writeAll
    (hwrite : ∀ {f g h key name a}, P f → f.write h key name a = .ok g → P g)
    (rank : Nat) (handle : BlockHandle) (key : ResourceKey) (attrs : List (String × PatchAttribute))
    (files : ModuleFiles) (hall : ∀ e ∈ files, P e.2) :
    ∀ e ∈ (Patching.writeAll rank handle key files attrs).2, P e.2 := by
  induction attrs generalizing files with
  | nil => exact hall
  | cons attr rest ih =>
    rw [Patching.writeAll]
    split
    · exact hall
    · next path file hfile =>
      split
      · next g hg => exact ih _ (every_setFile hall (hwrite (hall _ (List.mem_of_getElem? hfile)) hg))
      · exact hall

/-- A property of single files that every write keeps is kept by every call. -/
theorem every_patchAll
    (hwrite : ∀ {f g h key name a}, P f → f.write h key name a = .ok g → P g)
    (files : ModuleFiles) (patches : List Patch) (hall : ∀ e ∈ files, P e.2) :
    ∀ e ∈ (Patching.patchAll files patches).2, P e.2 := by
  induction patches generalizing files with
  | nil => exact hall
  | cons p rest ih =>
    rw [Patching.patchAll]
    split
    · exact hall
    · next rank handle _ =>
      have hnext := every_writeAll hwrite rank handle p.key p.attributes files hall
      split
      · next g hg => exact ih _ (by rwa [hg] at hnext)
      · next g hg => rwa [hg] at hnext

/-- **Induction over the life of a file**: what holds of a file as it was read and is kept by every
write holds of all files from then on. -/
theorem Patched.every
    (hread : ∀ {source path f} {s t : List Notice},
      outcome (ModuleFile.read source path) s = (.ok f, t) → P f)
    (hwrite : ∀ {f g h key name a}, P f → f.write h key name a = .ok g → P g)
    {files : ModuleFiles} (hp : Patched files) : ∀ e ∈ files, P e.2 := by
  induction hp with
  | @read sources files notices h =>
    have hfold : ∀ (sources : List (Path × String)) (start : ModuleFiles) (s t : List Notice),
        (∀ e ∈ start, P e.2) →
        outcome (sources.foldlM (fun files entry => do
          let file ← ModuleFile.read entry.2 entry.1
          return Table.insert files entry.1 file) start) s = (.ok files, t) →
        ∀ e ∈ files, P e.2 := by
      intro sources
      induction sources with
      | nil =>
        intro start s t hstart h
        cases h
        exact hstart
      | cons entry rest ih =>
        intro start s t hstart h
        rw [List.foldlM_cons] at h
        obtain ⟨files₁, u, h₁, h⟩ := outcome_bind_eq_ok h
        obtain ⟨file, v, hfile, h₁⟩ := outcome_bind_eq_ok h₁
        cases h₁
        exact ih _ _ _ (every_insert hstart (hread hfile)) h
    exact hfold sources [] [] notices (by simp) h
  | @patch files patches _ ih =>
    obtain ⟨notices, hrun⟩ := Patching.run_applyPatches files patches
    rw [hrun]
    exact every_patchAll hwrite files patches ih

end Every

/-- Files stay indexed however often they are patched. -/
theorem Patched.indexed {files : ModuleFiles} (h : Patched files) :
    ∀ e ∈ files, e.2.Indexed :=
  h.every ModuleFile.Indexed.of_read fun hf hw => hf.write hw

/-! ## Where a resource is found -/

theorem declarations_eq_cons {key : ResourceKey} {start rank : Nat} {files : ModuleFiles}
    {path : Path} {handle : BlockHandle} {others : List (Nat × Path × BlockHandle)}
    (h : declarations key start files = (rank, path, handle) :: others) :
    ∃ pre file post r, files = pre ++ (path, file) :: post ∧ start + pre.length = rank ∧
      (∀ e ∈ pre, e.2.index.resources.find? key = none) ∧
      file.index.resources.find? key = some r ∧ handle = r.block := by
  induction files generalizing start with
  | nil => cases h
  | cons entry rest ih =>
    rw [declarations] at h
    split at h
    · next r hr =>
      cases h
      exact ⟨[], entry.2, rest, r, rfl, rfl, by simp, hr, rfl⟩
    · next hr =>
      obtain ⟨pre, file, post, r, rfl, hrank, hpre, hfile, hhandle⟩ := ih h
      refine ⟨entry :: pre, file, post, r, rfl, ?_, ?_, hfile, hhandle⟩
      · rw [List.length_cons]
        omega
      · intro e he
        rcases List.mem_cons.1 he with rfl | he
        · exact hr
        · exact hpre e he

theorem declarations_eq_nil {key : ResourceKey} {start : Nat} {files : ModuleFiles}
    (h : declarations key start files = []) :
    ∀ e ∈ files, e.2.index.resources.find? key = none := by
  induction files generalizing start with
  | nil => simp
  | cons entry rest ih =>
    rw [declarations] at h
    split at h
    · cases h
    · next hr =>
      intro e he
      rcases List.mem_cons.1 he with rfl | he
      · exact hr
      · exact ih h e he

/-- A resource is found in the first file whose index has it. -/
theorem locate_eq_some {files : ModuleFiles} {key : ResourceKey} {rank : Nat}
    {handle : BlockHandle} (h : (locate files key).1 = some (rank, handle)) :
    ∃ pre path file post r, files = pre ++ (path, file) :: post ∧ pre.length = rank ∧
      (∀ e ∈ pre, e.2.index.resources.find? key = none) ∧
      file.index.resources.find? key = some r ∧ handle = r.block := by
  unfold locate at h
  split at h
  · cases h
  · next path _ _ hd =>
    cases h
    obtain ⟨pre, file, post, r, hfiles, hrank, hpre, hfile, hhandle⟩ := declarations_eq_cons hd
    exact ⟨pre, path, file, post, r, hfiles, by omega, hpre, hfile, hhandle⟩

theorem locate_eq_none {files : ModuleFiles} {key : ResourceKey}
    (h : (locate files key).1 = none) : ∀ e ∈ files, e.2.index.resources.find? key = none := by
  unfold locate at h
  split at h
  · next hd => exact declarations_eq_nil hd
  · cases h

end HclOverlay
