import HclOverlay.Proofs.Patching.Locality

/-!
# Handles stay valid

The index of a file is made once, when the file is read, and finds a block by its rank. It is not
made again when attributes are written, however many calls there are and however they end. It stays
right because a write changes the body of a block and nothing else of the file.

* `Block.bare` — a block without its body: all that the index depends on.
* `Index.Resolves` — every handle leads to the block it was made for; `Index.resolves_ofDocument`.
* `Patching.runAll`, `Patching.logAll` — calls one after the other, and what they have written.
* `handles_stay_valid` — **the invariant of a file**, from when it was read through all calls.
-/

namespace HclOverlay

open Hcl

/-! ## What a handle leads to -/

/-- A block without its body. -/
def Hcl.Block.bare (b : Block) : Block := { b with body := [] }

/-- A handle leads to a block of the given kind with the given labels, read from the span of the
handle. -/
def BlockHandle.LeadsTo (h : BlockHandle) (blocks : List Block) (kind : String)
    (labels : List String) : Prop :=
  ∃ b, blocks[h.rank]? = some b ∧ b.span = h.span ∧ b.kind = kind ∧ b.labelTexts = labels

/-- All handles of an index lead to blocks that declare what the handles are kept under. -/
structure Index.Resolves (index : Index) (blocks : List Block) : Prop where
  resources : ∀ key r, (key, r) ∈ index.resources →
    key = r.key ∧ r.block.LeadsTo blocks "resource" [r.type, r.name]
  data : ∀ key r, (key, r) ∈ index.data →
    key = r.key ∧ r.block.LeadsTo blocks "data" [r.type, r.name]
  inputs : ∀ name h, (name, h) ∈ index.inputs → h.LeadsTo blocks "variable" [name]
  outputs : ∀ name h, (name, h) ∈ index.outputs → h.LeadsTo blocks "output" [name]
  locals : ∀ name h, (name, h) ∈ index.locals →
    name = localsName ∧ ∃ labels, h.LeadsTo blocks "locals" labels

/-- Bodies do not matter to a handle. -/
theorem BlockHandle.LeadsTo.congr {h : BlockHandle} {blocks others : List Block} {kind : String}
    {labels : List String} (hleads : h.LeadsTo blocks kind labels)
    (hbare : others.map Block.bare = blocks.map Block.bare) : h.LeadsTo others kind labels := by
  obtain ⟨b, hb, hspan, hkind, hlabels⟩ := hleads
  have hother : (others.map Block.bare)[h.rank]? = some b.bare := by
    rw [hbare, List.getElem?_map, hb, Option.map_some]
  rw [List.getElem?_map, Option.map_eq_some_iff] at hother
  obtain ⟨c, hc, hcb⟩ := hother
  refine ⟨c, hc, ?_, ?_, ?_⟩
  · exact (congrArg Block.span hcb).trans hspan
  · exact (congrArg Block.kind hcb).trans hkind
  · exact (congrArg Block.labelTexts hcb).trans hlabels

/-- Bodies do not matter to an index. -/
theorem Index.Resolves.congr {index : Index} {blocks others : List Block}
    (h : index.Resolves blocks) (hbare : others.map Block.bare = blocks.map Block.bare) :
    index.Resolves others where
  resources key r hr := ⟨(h.resources key r hr).1, (h.resources key r hr).2.congr hbare⟩
  data key r hr := ⟨(h.data key r hr).1, (h.data key r hr).2.congr hbare⟩
  inputs name handle hh := (h.inputs name handle hh).congr hbare
  outputs name handle hh := (h.outputs name handle hh).congr hbare
  locals name handle hh := by
    obtain ⟨hname, labels, hleads⟩ := h.locals name handle hh
    exact ⟨hname, labels, hleads.congr hbare⟩

/-! ## The index of a document -/

namespace Index

/-- A table of resources gains at most the resource that is added. -/
theorem mem_addResource {kind : String} {table : Table ResourceKey ResourceHandle}
    {labels : List String} {handle : BlockHandle} {key : ResourceKey} {r : ResourceHandle}
    (h : (key, r) ∈ (addResource kind table labels handle).1) :
    key = r.key ∧ r.block = handle ∧ labels = [r.type, r.name] ∨ (key, r) ∈ table := by
  match labels with
  | [type, name] =>
    rw [addResource_two] at h
    refine (Table.mem_insertNew h).imp_left fun he => ?_
    obtain ⟨rfl, rfl⟩ := Prod.mk.inj he
    exact ⟨rfl, rfl, rfl⟩
  | [] => exact .inr h
  | [_] => exact .inr h
  | _ :: _ :: _ :: _ => exact .inr h

/-- A table of names gains at most the name that is added. -/
theorem mem_addNamed {table : Table String BlockHandle} {labels : List String}
    {handle : BlockHandle} {name : String} {h : BlockHandle}
    (hmem : (name, h) ∈ addNamed table labels handle) :
    h = handle ∧ labels = [name] ∨ (name, h) ∈ table := by
  match labels with
  | [other] =>
    refine (Table.mem_insertNew hmem).imp_left fun he => ?_
    obtain ⟨rfl, rfl⟩ := Prod.mk.inj he
    exact ⟨rfl, rfl⟩
  | [] => exact .inr hmem
  | _ :: _ :: _ => exact .inr hmem

variable {index : Index} {blocks : List Block}

/-- One more block. -/
theorem Resolves.addBlock (h : index.Resolves blocks) {rank : Nat} {b : Block}
    (hb : blocks[rank]? = some b) : (index.addBlock rank b).1.Resolves blocks := by
  have hleads : ∀ {kind labels}, b.kind = kind → b.labelTexts = labels →
      BlockHandle.LeadsTo ⟨rank, b.span⟩ blocks kind labels :=
    fun hkind hlabels => ⟨b, hb, rfl, hkind, hlabels⟩
  -- whatever the kind of the block, only one table changes
  rw [Index.addBlock]
  split
  · next hkind =>
    refine { h with resources := fun key r hr => ?_ }
    rcases mem_addResource hr with ⟨hkey, hhandle, hlabels⟩ | hr
    · exact ⟨hkey, hhandle ▸ hleads hkind hlabels⟩
    · exact h.resources key r hr
  split
  · next hkind =>
    refine { h with data := fun key r hr => ?_ }
    rcases mem_addResource hr with ⟨hkey, hhandle, hlabels⟩ | hr
    · exact ⟨hkey, hhandle ▸ hleads hkind hlabels⟩
    · exact h.data key r hr
  split
  · next hkind =>
    refine { h with inputs := fun name handle hh => ?_ }
    rcases mem_addNamed hh with ⟨rfl, hlabels⟩ | hh
    · exact hleads hkind hlabels
    · exact h.inputs name handle hh
  split
  · next hkind =>
    refine { h with outputs := fun name handle hh => ?_ }
    rcases mem_addNamed hh with ⟨rfl, hlabels⟩ | hh
    · exact hleads hkind hlabels
    · exact h.outputs name handle hh
  split
  · next hkind =>
    refine { h with locals := fun name handle hh => ?_ }
    rcases Table.mem_insert hh with he | hh
    · obtain ⟨rfl, rfl⟩ := Prod.mk.inj he
      exact ⟨rfl, _, hleads hkind rfl⟩
    · exact h.locals name handle hh
  · exact h

/-- Blocks in order; those before them have been added. -/
theorem Resolves.addBlocks {front rest : List Block} (h : index.Resolves (front ++ rest)) :
    (index.addBlocks front.length rest).1.Resolves (front ++ rest) := by
  induction rest generalizing index front with
  | nil => exact h
  | cons b rest ih =>
    have hb : (front ++ b :: rest)[front.length]? = some b := by simp
    have hnext : (index.addBlock front.length b).1.Resolves ((front ++ [b]) ++ rest) := by
      simpa using h.addBlock hb
    simpa [Index.addBlocks] using ih hnext

/-- **The index of a document** leads to the blocks it was made from. -/
theorem resolves_ofDocument (d : Document) : (ofDocument d).1.Resolves d.blocks := by
  have hempty : Index.empty.Resolves ([] ++ d.blocks) := ⟨nofun, nofun, nofun, nofun, nofun⟩
  exact hempty.addBlocks

end Index

/-! ## Rewritten files -/

theorem Hcl.Edited.map_bare {written : List Nat} {rank : Nat} {ss ts : List Structure}
    (h : Edited written rank ss ts) :
    (blocksOf ts).map Block.bare = (blocksOf ss).map Block.bare := by
  induction h with
  | nil => rfl
  | @cons rank s t ss ts hst _ ih =>
    cases hst with
    | same =>
      cases s with
      | attr a => exact ih
      | block b => exact congrArg (b.bare :: ·) ih
    | body b body _ => exact congrArg (b.bare :: ·) ih

theorem Hcl.Edited.eq_of_nil {rank : Nat} {ss ts : List Structure} (h : Edited [] rank ss ts) :
    ts = ss := by
  induction h with
  | nil => rfl
  | @cons rank s t ss ts hst _ ih =>
    have hs : s.isWritten [] rank = false := by cases s <;> rfl
    rw [hst.eq_of_not_written hs, ih]

namespace ModuleFile.RewrittenTo

variable {f g : ModuleFile} {written : List Nat}

/-- Writes keep the top-level blocks apart from their bodies. -/
theorem map_bare (h : f.RewrittenTo written g) :
    g.document.blocks.map Block.bare = f.document.blocks.map Block.bare :=
  h.structures.map_bare

/-- Without a write the tree stays. -/
theorem document_eq (h : f.RewrittenTo [] g) : g.document = f.document := by
  cases hf : f.document
  cases hg : g.document
  have hstructures := h.structures.eq_of_nil
  have hclosing := h.closing
  have hends := h.endsLine
  simp only [hf, hg] at hstructures hclosing hends
  rw [hstructures, hclosing, hends]

end ModuleFile.RewrittenTo

theorem ranksIn_eq_nil {i : Nat} {writes : List (Nat × Nat)} :
    ranksIn i writes = [] ↔ ∀ w ∈ writes, w.1 ≠ i := by
  simp [ranksIn, List.filterMap_eq_nil_iff]

/-! ## Calls one after the other -/

/-- The files after calls, each of which finds what the ones before it left, failed or not. -/
def Patching.runAll (files : ModuleFiles) : List (List Patch) → ModuleFiles
  | [] => files
  | patches :: calls => runAll ((applyPatches patches).run files).2.1 calls

/-- The blocks that calls have written, once for every attribute. -/
def Patching.logAll (files : ModuleFiles) : List (List Patch) → List (Nat × Nat)
  | [] => []
  | patches :: calls =>
    log files patches ++ logAll ((applyPatches patches).run files).2.1 calls

theorem rewritten_runAll (files : ModuleFiles) (calls : List (List Patch)) :
    Rewritten (Patching.logAll files calls) files (Patching.runAll files calls) := by
  induction calls generalizing files with
  | nil => exact .refl files
  | cons patches calls ih =>
    obtain ⟨notices, hrun⟩ := Patching.run_applyPatches files patches
    rw [Patching.logAll, Patching.runAll, hrun]
    exact (rewritten_patchAll patches files).trans (ih _)

/-- **The invariant of a file.** Take a file as it was read, among any files, and any calls. The
file keeps its top-level blocks apart from their bodies, and its index; every handle leads to the
block it was made for. The file counts as modified if and only if an attribute of it was written, and
otherwise its tree is the tree of its text, which is given back as it was. -/
theorem handles_stay_valid {source : String} {label path : Path} {f : ModuleFile}
    {notices : List Notice} (hread : (ModuleFile.read source label).run = (.ok f, notices))
    {files : ModuleFiles} {i : Nat} (hf : files[i]? = some (path, f))
    (calls : List (List Patch)) :
    ∃ g, (Patching.runAll files calls)[i]? = some (path, g) ∧
      g.document.blocks.map Block.bare = f.document.blocks.map Block.bare ∧
      g.index = f.index ∧ g.index.Resolves g.document.blocks ∧
      (g.modified = true ↔ ∃ w ∈ Patching.logAll files calls, w.1 = i) ∧
      (g.modified = false → Document.read? source = some g.document ∧ g.text = source) := by
  obtain ⟨g, hg, hfg⟩ := rewritten_runAll files calls i path f hf
  obtain ⟨d, hd, rfl⟩ := ModuleFile.read_eq_ok hread
  have hresolves := Index.resolves_ofDocument d
  refine ⟨g, hg, hfg.map_bare, hfg.index, ?_, ?_, fun hmodified => ?_⟩
  · rw [hfg.index]
    exact hresolves.congr hfg.map_bare
  · rw [hfg.modified, Bool.false_or, Bool.not_eq_true', List.isEmpty_eq_false_iff, Ne,
      ranksIn_eq_nil]
    simp
  · have hnone := hmodified
    rw [hfg.modified, Bool.false_or, Bool.not_eq_false', List.isEmpty_iff] at hnone
    rw [hnone] at hfg
    exact ⟨by rw [hfg.document_eq, hd],
      (ModuleFile.text_of_not_modified hmodified).trans hfg.source⟩

/-- A file with blocks of all kinds keeps its handles through a call that fails at its second patch
and one that fails at its second attribute; a file beside it is not touched. -/
theorem handles_stay_valid_after_failures :
    let source := "resource k w \x7b a = 1 \x7d\ndata k w \x7b\x7d\nlocals \x7b\x7d\nvariable v \x7b\x7d" ++
      "\nlocals \x7b\x7d\noutput o \x7b\x7d\nresource k w \x7b\x7d\n"
    let f := (ModuleFile.read source ⟨"main.tf"⟩).run.1.toOption.getD
      ⟨⟨""⟩, "", ⟨[], [], true⟩, .empty, false⟩
    let files : ModuleFiles := [(⟨"main.tf"⟩, f), (⟨"copy.tf"⟩, f)]
    let calls : List (List Patch) :=
      [[⟨"k", "w", none, [("a", ⟨.replace, .bool true⟩)]⟩, ⟨"k", "x", none, []⟩],
        [⟨"k", "w", none, [("b", ⟨.replace, .bool true⟩), ("", ⟨.replace, .bool true⟩)]⟩]]
    Patching.logAll files calls = [(0, 0), (0, 0)] ∧
      (Patching.runAll files calls).map (fun e => e.2.index.locals.map (·.2.rank)) = [[4], [4]] ∧
      (∃ g, (Patching.runAll files calls)[0]? = some (⟨"main.tf"⟩, g) ∧ g.modified = true ∧
        g.index.Resolves g.document.blocks) ∧
      ∃ g, (Patching.runAll files calls)[1]? = some (⟨"copy.tf"⟩, g) ∧ g.modified = false ∧
        g.text = source := by
  intro source f files calls
  obtain ⟨hread, hlog, hlocals⟩ : (ModuleFile.read source ⟨"main.tf"⟩).run.1.isOk = true ∧
      Patching.logAll files calls = [(0, 0), (0, 0)] ∧
      (Patching.runAll files calls).map (fun e => e.2.index.locals.map (·.2.rank)) =
        [[4], [4]] := by
    decide +kernel
  refine ⟨hlog, hlocals, ?_, ?_⟩
  · obtain ⟨g, hg, -, -, hresolves, hmodified, -⟩ :=
      handles_stay_valid (eq_ok_of_isOk hread) (show files[0]? = some (⟨"main.tf"⟩, f) from rfl) calls
    exact ⟨g, hg, hmodified.2 (by simp [hlog]), hresolves⟩
  · obtain ⟨g, hg, -, -, -, hmodified, hsame⟩ :=
      handles_stay_valid (eq_ok_of_isOk hread) (show files[1]? = some (⟨"copy.tf"⟩, f) from rfl) calls
    have hnot : g.modified = false := by
      rw [← Bool.not_eq_true, hmodified, hlog]
      simp
    exact ⟨g, hg, hnot, (hsame hnot).2⟩

end HclOverlay
