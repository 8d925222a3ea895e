import HclOverlay.Proofs.Documents.Values
import HclOverlay.Proofs.Patching.Shape

/-!
# What is emitted is what the tree says

The text of a file is read again as a file with the same blocks, the same names and values of
attributes and the same index, whatever was written into it, provided that each single value and
each label is read back from the text it is printed as. That is not so for all of them: the printer
loses the separator of an object entry that takes the place of an earlier one, for instance, and new
line ends change the text of a heredoc.

* `Index.SameKeys` — two indexes with the same keys; `ModuleFile.indexed_as` — the index of a file
  has the keys of its document.
* `ModuleFile.lineEnds`, `ModuleFile.Kept` — how the text is printed, and what must be read back.
* `emitted_text_reads` — **what is emitted is what the tree says**.
-/

namespace HclOverlay

open Hcl Hcl.Reader

/-! ## Keys of indexes -/

section Keys

variable {κ α β : Type} [BEq κ]

theorem Table.contains_congr {t : Table κ α} {u : Table κ β} (h : t.keys = u.keys) (key : κ) :
    t.contains key = u.contains key := by
  have hkeys : ∀ {γ : Type} (t : Table κ γ), t.contains key = t.keys.any (· == key) := by
    intro γ t
    induction t with
    | nil => rfl
    | cons e rest ih =>
      obtain ⟨k, v⟩ := e
      simp only [contains, find?, keys, List.map_cons, List.any_cons] at ih ⊢
      cases hk : k == key with
      | true => simp
      | false => simpa using ih
  rw [hkeys, hkeys, h]

theorem Table.keys_insertNew_congr {t : Table κ α} {u : Table κ β} (h : t.keys = u.keys) (key : κ)
    (v : α) (w : β) : (t.insertNew key v).keys = (u.insertNew key w).keys := by
  unfold insertNew
  rw [contains_congr h key]
  split
  · exact h
  · have happend : ∀ {γ : Type} (t : Table κ γ) (x : γ), keys (t ++ [(key, x)]) = t.keys ++ [key] :=
      fun t x => by simp [keys]
    rw [happend, happend, h]

theorem Table.keys_insert_congr [LawfulBEq κ] {t : Table κ α} {u : Table κ β} (h : t.keys = u.keys) (key : κ)
    (v : α) (w : β) : (t.insert key v).keys = (u.insert key w).keys := by
  have hcontains := contains_congr h key
  cases hu : u.contains key with
  | true =>
    rw [keys_insert_of_contains u w hu, keys_insert_of_contains t v (hcontains.trans hu), h]
  | false =>
    rw [keys_insert_of_not_contains u w hu, keys_insert_of_not_contains t v (hcontains.trans hu), h]

end Keys

/-- Two indexes with the same keys in every table, in the same order. -/
structure Index.SameKeys (i j : Index) : Prop where
  resources : i.resources.keys = j.resources.keys
  data : i.data.keys = j.data.keys
  inputs : i.inputs.keys = j.inputs.keys
  outputs : i.outputs.keys = j.outputs.keys
  locals : i.locals.keys = j.locals.keys

/-- What an index sees of a block besides its place. -/
def Hcl.Block.head (b : Block) : String × List String := (b.kind, b.labelTexts)

theorem Index.keys_addResource_congr {t u : Table ResourceKey ResourceHandle}
    (h : t.keys = u.keys) (kind : String) (labels : List String) (x y : BlockHandle) :
    (addResource kind t labels x).1.keys = (addResource kind u labels y).1.keys := by
  match labels with
  | [type, name] =>
    rw [addResource_two, addResource_two]
    exact Table.keys_insertNew_congr h _ _ _
  | [] => exact h
  | [_] => exact h
  | _ :: _ :: _ :: _ => exact h

theorem Index.keys_addNamed_congr {t u : Table String BlockHandle} (h : t.keys = u.keys)
    (labels : List String) (x y : BlockHandle) :
    (addNamed t labels x).keys = (addNamed u labels y).keys := by
  unfold addNamed
  split
  · exact Table.keys_insertNew_congr h _ _ _
  · exact h

/-- Blocks with the same heads add the same keys. -/
theorem Index.SameKeys.addBlock {i j : Index} (h : i.SameKeys j) {b c : Block}
    (hbc : b.head = c.head) (m n : Nat) : (i.addBlock m b).1.SameKeys (j.addBlock n c).1 := by
  obtain ⟨hkind, hlabels⟩ := Prod.mk.inj hbc
  unfold Index.addBlock
  rw [hkind, hlabels]
  split
  · exact ⟨keys_addResource_congr h.resources _ _ _ _, h.data, h.inputs, h.outputs, h.locals⟩
  · split
    · exact ⟨h.resources, keys_addResource_congr h.data _ _ _ _, h.inputs, h.outputs, h.locals⟩
    · split
      · exact ⟨h.resources, h.data, keys_addNamed_congr h.inputs _ _ _, h.outputs, h.locals⟩
      · split
        · exact ⟨h.resources, h.data, h.inputs, keys_addNamed_congr h.outputs _ _ _, h.locals⟩
        · split
          · exact ⟨h.resources, h.data, h.inputs, h.outputs,
              Table.keys_insert_congr h.locals _ _ _⟩
          · exact h

theorem Index.SameKeys.addBlocks {i j : Index} (h : i.SameKeys j) {bs cs : List Block}
    (hheads : bs.map Block.head = cs.map Block.head) (m n : Nat) :
    (i.addBlocks m bs).1.SameKeys (j.addBlocks n cs).1 := by
  induction bs generalizing i j m n cs with
  | nil =>
    cases cs with
    | nil => exact h
    | cons c cs => cases hheads
  | cons b bs ih =>
    cases cs with
    | nil => cases hheads
    | cons c cs =>
      obtain ⟨hhead, hrest⟩ := List.cons.inj hheads
      exact ih (h.addBlock hhead m n) hrest (m + 1) (n + 1)

/-- Documents whose blocks have the same heads have indexes with the same keys. -/
theorem Index.sameKeys_ofDocument {d e : Document}
    (h : d.blocks.map Block.head = e.blocks.map Block.head) :
    (ofDocument d).1.SameKeys (ofDocument e).1 :=
  SameKeys.addBlocks ⟨rfl, rfl, rfl, rfl, rfl⟩ h 0 0

theorem heads_of_outlines {ss ts : List Structure} (h : outlines ss = outlines ts) :
    (blocksOf ss).map Block.head = (blocksOf ts).map Block.head := by
  induction ss generalizing ts with
  | nil =>
    cases ts with
    | nil => rfl
    | cons t ts => cases h
  | cons s ss ih =>
    cases ts with
    | nil => cases h
    | cons t ts =>
      obtain ⟨hst, hrest⟩ := List.cons.inj h
      have hrest : (blocksOf ss).map Block.head = (blocksOf ts).map Block.head := ih hrest
      cases s with
      | attr a =>
        cases t with
        | attr b => exact hrest
        | block c =>
          rw [Structure.outline, Structure.outline, Block.outline_eq] at hst
          cases hst
      | block b =>
        rw [Structure.outline, Block.outline_eq] at hst
        cases t with
        | attr a => cases hst
        | block c =>
          rw [Structure.outline, Block.outline_eq] at hst
          obtain ⟨hkind, hlabels, -⟩ := Outline.block.inj hst
          rw [blocksOf_block, blocksOf_block, List.map_cons, List.map_cons, hrest]
          exact congrArg (· :: _) (Prod.ext hkind hlabels)

/-- The heads of the blocks of a document can be read off its outline. -/
theorem heads_of_outline {d e : Document} (h : d.outline = e.outline) :
    d.blocks.map Block.head = e.blocks.map Block.head :=
  heads_of_outlines h

/-! ## Files -/

namespace ModuleFile

/-- How the line ends of the text of a file are changed when it is printed. -/
def lineEnds (f : ModuleFile) : List Char → List Char :=
  if allCarriageReturns f.source.toList then restoreReturns else id

theorem changesEnds_lineEnds (f : ModuleFile) : ChangesEnds f.lineEnds := by
  unfold lineEnds
  split
  · exact changesEnds_restoreReturns
  · exact changesEnds_id

theorem text_of_modified {f : ModuleFile} (h : f.modified = true) :
    f.text = String.ofList (f.lineEnds f.document.print) := by
  rw [text, if_pos h, lineEnds]
  split <;> rfl

/-- All values and labels of a file are read back from the text that is emitted. A file that was not
written is emitted as it was read. -/
def Kept (f : ModuleFile) : Prop :=
  f.modified = true → (∀ e ∈ valuesOf f.document.structures, e.KeptBy f.lineEnds) ∧
    ∀ l ∈ labelsOf f.document.structures, l.Kept

/-- What holds of a file from when it was read on: a file that was not written has the document of
its text, and its index has the keys of its document. -/
structure Settled (f : ModuleFile) : Prop where
  unwritten : f.modified = false → Document.read? f.source = some f.document
  index : ∃ d, f.index = (Index.ofDocument d).1 ∧
    d.blocks.map Block.head = f.document.blocks.map Block.head

theorem settled_of_read {source : String} {path : Path} {f : ModuleFile} {s t : List Notice}
    (h : outcome (read source path) s = (.ok f, t)) : f.Settled := by
  obtain ⟨d, hd, rfl⟩ := read_eq_ok h
  exact ⟨fun _ => hd, d, rfl, rfl⟩

theorem settled_write {f g : ModuleFile} (hf : f.Settled) {h : BlockHandle} {key : ResourceKey}
    {name : String} {a : PatchAttribute} (hw : f.write h key name a = .ok g) : g.Settled := by
  obtain ⟨b, e, -, -, -, rfl⟩ := write_eq_ok hw
  obtain ⟨d, hindex, hheads⟩ := hf.index
  refine ⟨nofun, d, hindex, hheads.trans ?_⟩
  rw [put, Document.blocks_modifyBlock]
  refine List.ext_getElem (by simp) fun i _ _ => ?_
  rw [List.getElem_map, List.getElem_map, List.getElem_modify]
  split <;> rfl

/-- A text that is a document is read as a file. -/
theorem read_ok {source : String} {d : Document} (h : Document.read? source = some d) (path : Path) :
    ∃ notices, (read source path).run =
      (.ok ⟨path, source, d, (Index.ofDocument d).1, false⟩, notices) :=
  ⟨_, outcome_read h path []⟩

end ModuleFile

/-- **What is emitted is what the tree says.** However files were patched, the text of each of them
is read again as a file with the same names, labels and values in the same order and with the same
keys in its index, if its values and labels are read back one by one. -/
theorem emitted_text_reads {files : ModuleFiles} (h : Patched files) :
    ∀ e ∈ files, e.2.Kept → ∀ path, ∃ g notices,
      (ModuleFile.read e.2.text path).run = (.ok g, notices) ∧
      g.document.outline = e.2.document.outline ∧ g.index.SameKeys e.2.index := by
  intro e he hkept path
  have hsettled := h.every ModuleFile.settled_of_read (fun hf hw => ModuleFile.settled_write hf hw) e he
  obtain ⟨f₀, hindex, hheads⟩ := hsettled.index
  have hread : ∃ d, Document.read? e.2.text = some d ∧ d.outline = e.2.document.outline := by
    cases hmodified : e.2.modified with
    | true =>
      rw [ModuleFile.text_of_modified hmodified]
      obtain ⟨hvalues, hlabels⟩ := hkept hmodified
      exact Document.read?_conv e.2.changesEnds_lineEnds (h.shaped e he)
        (keptBy_of_all _ hvalues hlabels)
    | false =>
      rw [ModuleFile.text_of_not_modified hmodified]
      exact ⟨_, hsettled.unwritten hmodified, rfl⟩
  obtain ⟨d, hd, houtline⟩ := hread
  obtain ⟨notices, hrun⟩ := ModuleFile.read_ok hd path
  refine ⟨_, notices, hrun, houtline, ?_⟩
  rw [hindex]
  exact Index.sameKeys_ofDocument ((heads_of_outline houtline).trans hheads.symm)

/-- A second attribute on the line of a block moves both to lines of their own. -/
theorem emitted_text_reads_oneLine :
    let source := "resource k w \x7b a = true \x7d\n"
    let files := (readFiles [(⟨"main.tf"⟩, source)]).run.1.toOption.getD []
    let patches : List Patch := [⟨"k", "w", none, [("b", ⟨.replace, .bool true⟩)]⟩]
    let patched := ((applyPatches patches).run files).2.1
    patched.map (·.2.text) = ["resource k w \x7b\n  a = true\n  b = true\n\x7d\n"] ∧
      ∀ e ∈ patched, ∀ path, ∃ g notices, (ModuleFile.read e.2.text path).run = (.ok g, notices) ∧
        g.document.outline = e.2.document.outline ∧ g.index.SameKeys e.2.index := by
  intro source files patches patched
  have hread : (readFiles [(⟨"main.tf"⟩, source)]).run.1.isOk = true := by decide +kernel
  have hvalues : ∀ e ∈ patched, ∀ v ∈ valuesOf e.2.document.structures, v.isTrue = true := by
    decide +kernel
  have hlabels : ∀ e ∈ patched, ∀ l ∈ labelsOf e.2.document.structures, l.quoted = false := by
    decide +kernel
  refine ⟨by decide +kernel, fun e he => ?_⟩
  refine emitted_text_reads (.patch patches (.read (eq_ok_of_isOk hread))) e he fun _ => ?_
  exact ⟨fun v hv => Expr.keptBy_of_isTrue e.2.changesEnds_lineEnds (hvalues e he v hv),
    fun l hl => Label.kept_of_bare (hlabels e he l hl)⟩

end HclOverlay
