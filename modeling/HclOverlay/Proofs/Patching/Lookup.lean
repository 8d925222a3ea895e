import HclOverlay.Proofs.Patching.Failures
import HclOverlay.Proofs.Tables

/-!
# Resources are looked up by first match

The index of a file is built block by block, and the first block with a key wins; of `locals` the
last one does. Every block that loses leaves a notice. Among the files of a module the first one in
load order wins, and one notice names the others.

* `declaredIn`, `namedIn`, `localsIn` — what the blocks of a file declare, all of it, in order.
* `Table.KeepsFirst` — a table that keeps the first entry of each key.
* `Index.FirstMatch`, `ambiguities` — the index that blocks should have, and the notices about what
  it leaves out; `Index.firstMatch_addBlock` is one block, `Index.firstMatch_ofDocument` all of them.
* `lookup_is_first_match` — **lookup in the files of a module**, and its notices.
-/

namespace HclOverlay

open Hcl

/-! ## What blocks declare -/

/-- What a block with two labels declares, if it is of the given kind; it comes with its rank. -/
def declared? (kind : String) (e : Block × Nat) : Option (ResourceKey × ResourceHandle) :=
  match e.1.labelTexts with
  | [type, name] =>
    if e.1.kind = kind then some (.of type name, ⟨type, name, ⟨e.2, e.1.span⟩⟩) else none
  | _ => none

/-- What a block with one label declares, if it is of the given kind. -/
def named? (kind : String) (e : Block × Nat) : Option (String × BlockHandle) :=
  match e.1.labelTexts with
  | [name] => if e.1.kind = kind then some (name, ⟨e.2, e.1.span⟩) else none
  | _ => none

/-- All resources or data sources that blocks declare, in order. -/
def declaredIn (kind : String) (blocks : List Block) : Table ResourceKey ResourceHandle :=
  blocks.zipIdx.filterMap (declared? kind)

/-- All inputs or outputs that blocks declare, in order. -/
def namedIn (kind : String) (blocks : List Block) : Table String BlockHandle :=
  blocks.zipIdx.filterMap (named? kind)

/-- The `locals` among blocks, in order. -/
def localsIn (blocks : List Block) : List BlockHandle :=
  blocks.zipIdx.filterMap fun e => if e.1.kind = "locals" then some ⟨e.2, e.1.span⟩ else none

section Append

variable (kind : String) (front : List Block) (b : Block)

theorem declaredIn_concat :
    declaredIn kind (front ++ [b]) =
      declaredIn kind front ++ (declared? kind (b, front.length)).toList := by
  simp [declaredIn, List.zipIdx_append, List.filterMap_cons]
  cases declared? kind (b, front.length) <;> rfl

theorem namedIn_concat :
    namedIn kind (front ++ [b]) = namedIn kind front ++ (named? kind (b, front.length)).toList := by
  simp [namedIn, List.zipIdx_append, List.filterMap_cons]
  cases named? kind (b, front.length) <;> rfl

theorem localsIn_concat :
    localsIn (front ++ [b]) =
      localsIn front ++ if b.kind = "locals" then [⟨front.length, b.span⟩] else [] := by
  by_cases hb : b.kind = "locals" <;> simp [localsIn, List.zipIdx_append, hb]

end Append

/-! ## Tables that keep the first entry -/

namespace Table

variable {κ α : Type} [BEq κ]

/-- A table that has of all entries with one key the first, with the keys in the order in which they
first appear. -/
structure KeepsFirst (t entries : Table κ α) : Prop where
  keys : t.keys = entries.keys.eraseDups
  find? : ∀ key, t.find? key = entries.find? key

omit [BEq κ] in
theorem keys_append (t u : Table κ α) : keys (t ++ u) = t.keys ++ u.keys := List.map_append

omit [BEq κ] in
theorem keys_singleton (key : κ) (v : α) : keys [(key, v)] = [key] := rfl

theorem find?_append (t u : Table κ α) (key : κ) :
    find? (t ++ u) key = (t.find? key).or (u.find? key) := by
  induction t with
  | nil => rfl
  | cons e rest ih =>
    rw [List.cons_append, find?_cons, find?_cons, ih]
    split <;> rfl

variable [LawfulBEq κ]

/-- One more entry, which counts if its key is new. -/
theorem KeepsFirst.insertNew {t entries : Table κ α} (h : t.KeepsFirst entries) (key : κ) (v : α) :
    (t.insertNew key v).KeepsFirst (entries ++ [(key, v)]) where
  keys := by
    rw [keys_append, keys_singleton, List.eraseDups_append, ← h.keys, Table.insertNew]
    cases hc : t.contains key with
    | true =>
      have hmem : key ∈ entries.keys := by
        rw [← List.mem_eraseDups, ← h.keys]
        exact contains_iff_mem_keys.1 hc
      simp [List.removeAll, hmem]
    | false =>
      have hnew : key ∉ entries.keys := by
        rw [← List.mem_eraseDups, ← h.keys, ← contains_iff_mem_keys, hc]
        exact Bool.false_ne_true
      simp [keys_append, keys_singleton, List.removeAll, hnew, List.eraseDups_cons]
  find? other := by
    rw [find?_insertNew, find?_append, h.find?]
    rfl

theorem KeepsFirst.contains_iff {t entries : Table κ α} (h : t.KeepsFirst entries) (key : κ) :
    t.contains key = true ↔ key ∈ entries.keys := by
  rw [contains_iff_mem_keys, h.keys, List.mem_eraseDups]

end Table

/-! ## The index of a file -/

/-- The index that blocks should have: resources, data sources, inputs and outputs are those that
are declared first, `locals` are those that come last. -/
structure Index.FirstMatch (index : Index) (blocks : List Block) : Prop where
  resources : index.resources.KeepsFirst (declaredIn "resource" blocks)
  data : index.data.KeepsFirst (declaredIn "data" blocks)
  inputs : index.inputs.KeepsFirst (namedIn "variable" blocks)
  outputs : index.outputs.KeepsFirst (namedIn "output" blocks)
  locals : index.locals = ((localsIn blocks).getLast?.map fun h => (localsName, h)).toList

/-- The notice about a block whose place in the index another block has or had, given the blocks
before it. -/
def noticesOf (before : List Block) (b : Block) : List Notice :=
  if b.kind = "locals" then if (localsIn before).isEmpty then [] else [.severalLocals]
  else if b.kind = "resource" ∨ b.kind = "data" then
    (declared? b.kind (b, 0)).toList.filterMap fun e =>
      if e.1 ∈ (declaredIn b.kind before).keys then some (.duplicateBlock b.kind e.1) else none
  else []

/-- The notices about blocks that come behind others. -/
def ambiguities (before : List Block) : List Block → List Notice
  | [] => []
  | b :: rest => noticesOf before b ++ ambiguities (before ++ [b]) rest

namespace Index

variable {front : List Block} {b : Block}

/-- A resource whose key is taken leaves a notice. -/
theorem addResource_notices (kind : String) (table : Table ResourceKey ResourceHandle)
    (type name : String) (handle : BlockHandle) :
    (addResource kind table [type, name] handle).2 =
      if table.contains (.of type name) then [.duplicateBlock kind (.of type name)] else [] := by
  simp only [addResource, ResourceHandle.key]
  by_cases hc : table.contains (ResourceKey.of type name) = true <;> simp [hc]

/-- A block with two labels adds what it declares. -/
theorem keepsFirst_addResource {kind : String} {table : Table ResourceKey ResourceHandle}
    (h : table.KeepsFirst (declaredIn kind front)) (hkind : b.kind = kind) :
    (addResource kind table b.labelTexts ⟨front.length, b.span⟩).1.KeepsFirst
        (declaredIn kind (front ++ [b])) ∧
      (addResource kind table b.labelTexts ⟨front.length, b.span⟩).2 =
        (declared? kind (b, 0)).toList.filterMap fun e =>
          if e.1 ∈ (declaredIn kind front).keys then some (.duplicateBlock kind e.1) else none := by
  rw [declaredIn_concat]
  match hlabels : b.labelTexts with
  | [type, name] =>
    rw [addResource_two]
    have hnew := h.insertNew (.of type name) ⟨type, name, ⟨front.length, b.span⟩⟩
    refine ⟨by simpa [declared?, hlabels, hkind] using hnew, ?_⟩
    have hcontains := h.contains_iff (.of type name)
    rw [addResource_notices]
    simp only [declared?, hlabels, hkind, if_true, Option.toList_some, List.filterMap_cons,
      List.filterMap_nil]
    by_cases hmem : ResourceKey.of type name ∈ (declaredIn kind front).keys
    · rw [if_pos (hcontains.2 hmem), if_pos hmem]
    · rw [if_neg (mt hcontains.1 hmem), if_neg hmem]
  | [] => simpa [declared?, hlabels, addResource] using h
  | [_] => simpa [declared?, hlabels, addResource] using h
  | _ :: _ :: _ :: _ => simpa [declared?, hlabels, addResource] using h

/-- A block with one label adds what it declares. -/
theorem keepsFirst_addNamed {kind : String} {table : Table String BlockHandle}
    (h : table.KeepsFirst (namedIn kind front)) (hkind : b.kind = kind) :
    (addNamed table b.labelTexts ⟨front.length, b.span⟩).KeepsFirst
      (namedIn kind (front ++ [b])) := by
  rw [namedIn_concat]
  match hlabels : b.labelTexts with
  | [name] => simpa [named?, hlabels, hkind, addNamed] using h.insertNew name ⟨front.length, b.span⟩
  | [] => simpa [named?, hlabels, addNamed] using h
  | _ :: _ :: _ => simpa [named?, hlabels, addNamed] using h

theorem declaredIn_concat_of_ne {kind : String} (front : List Block) (hkind : b.kind ≠ kind) :
    declaredIn kind (front ++ [b]) = declaredIn kind front := by
  have hnone : declared? kind (b, front.length) = none := by
    unfold declared?
    split <;> simp [hkind]
  rw [declaredIn_concat, hnone, Option.toList_none, List.append_nil]

theorem namedIn_concat_of_ne {kind : String} (front : List Block) (hkind : b.kind ≠ kind) :
    namedIn kind (front ++ [b]) = namedIn kind front := by
  have hnone : named? kind (b, front.length) = none := by
    unfold named?
    split <;> simp [hkind]
  rw [namedIn_concat, hnone, Option.toList_none, List.append_nil]

/-- One more block: it takes its place unless another block has it, and then there is a notice. -/
theorem firstMatch_addBlock {index : Index} (h : index.FirstMatch front) (b : Block) :
    (index.addBlock front.length b).1.FirstMatch (front ++ [b]) ∧
      (index.addBlock front.length b).2 = noticesOf front b := by
  -- whatever the kind of the block, the tables of other kinds are about the same blocks as before
  have hdeclared : ∀ kind, b.kind ≠ kind →
      declaredIn kind (front ++ [b]) = declaredIn kind front := fun _ => declaredIn_concat_of_ne front
  have hnamed : ∀ kind, b.kind ≠ kind →
      namedIn kind (front ++ [b]) = namedIn kind front := fun _ => namedIn_concat_of_ne front
  have hlocals : b.kind ≠ "locals" → localsIn (front ++ [b]) = localsIn front := fun hne => by
    rw [localsIn_concat, if_neg hne, List.append_nil]
  obtain ⟨hresources, hdata, hinputs, houtputs, hlast⟩ := h
  unfold addBlock noticesOf
  by_cases hr : b.kind = "resource"
  · obtain ⟨htable, hnotice⟩ := keepsFirst_addResource hresources hr
    have hkind : b.kind ≠ "locals" ∧ b.kind ≠ "data" ∧ b.kind ≠ "variable" ∧ b.kind ≠ "output" := by
      rw [hr]
      decide
    rw [if_pos hr, if_neg hkind.1, if_pos (.inl hr), hr, ← hnotice]
    exact ⟨⟨htable, hdeclared _ hkind.2.1 ▸ hdata, hnamed _ hkind.2.2.1 ▸ hinputs,
      hnamed _ hkind.2.2.2 ▸ houtputs, hlocals hkind.1 ▸ hlast⟩, rfl⟩
  rw [if_neg hr]
  by_cases hd : b.kind = "data"
  · obtain ⟨htable, hnotice⟩ := keepsFirst_addResource hdata hd
    have hkind : b.kind ≠ "locals" ∧ b.kind ≠ "variable" ∧ b.kind ≠ "output" := by
      rw [hd]
      decide
    rw [if_pos hd, if_neg hkind.1, if_pos (.inr hd), hd, ← hnotice]
    exact ⟨⟨hdeclared _ hr ▸ hresources, htable, hnamed _ hkind.2.1 ▸ hinputs,
      hnamed _ hkind.2.2 ▸ houtputs, hlocals hkind.1 ▸ hlast⟩, rfl⟩
  rw [if_neg hd, if_neg (not_or.2 ⟨hr, hd⟩)]
  have hrest := And.intro (hdeclared _ hr ▸ hresources) (hdeclared _ hd ▸ hdata)
  by_cases hv : b.kind = "variable"
  · have hkind : b.kind ≠ "locals" ∧ b.kind ≠ "output" := by
      rw [hv]
      decide
    rw [if_pos hv, if_neg hkind.1]
    exact ⟨⟨hrest.1, hrest.2, keepsFirst_addNamed hinputs hv, hnamed _ hkind.2 ▸ houtputs,
      hlocals hkind.1 ▸ hlast⟩, rfl⟩
  rw [if_neg hv]
  by_cases ho : b.kind = "output"
  · have hkind : b.kind ≠ "locals" := by
      rw [ho]
      decide
    rw [if_pos ho, if_neg hkind]
    exact ⟨⟨hrest.1, hrest.2, hnamed _ hv ▸ hinputs, keepsFirst_addNamed houtputs ho,
      hlocals hkind ▸ hlast⟩, rfl⟩
  rw [if_neg ho]
  by_cases hl : b.kind = "locals"
  · rw [if_pos hl, if_pos hl]
    refine ⟨⟨hrest.1, hrest.2, hnamed _ hv ▸ hinputs, hnamed _ ho ▸ houtputs, ?_⟩, ?_⟩
    · rw [localsIn_concat, if_pos hl, List.getLast?_concat, hlast]
      cases (localsIn front).getLast? with
      | none => rfl
      | some other => simp [Table.insert]
    · rw [hlast]
      cases hfront : localsIn front with
      | nil => rfl
      | cons first rest => simp [Table.contains, Table.find?, List.getLast?_cons]
  · rw [if_neg hl, if_neg hl]
    exact ⟨⟨hrest.1, hrest.2, hnamed _ hv ▸ hinputs, hnamed _ ho ▸ houtputs, hlocals hl ▸ hlast⟩, rfl⟩

/-- **The index of a file** is that of first matches, and its notices are those about the others. -/
theorem firstMatch_addBlocks {index : Index} (h : index.FirstMatch front) (rest : List Block) :
    (index.addBlocks front.length rest).1.FirstMatch (front ++ rest) ∧
      (index.addBlocks front.length rest).2 = ambiguities front rest := by
  induction rest generalizing index front with
  | nil => exact ⟨by rwa [List.append_nil, addBlocks], rfl⟩
  | cons b rest ih =>
    obtain ⟨hindex, hnotices⟩ := firstMatch_addBlock h b
    obtain ⟨hall, hmore⟩ := ih hindex
    rw [List.length_append, List.length_singleton] at hall hmore
    rw [List.append_assoc, List.singleton_append] at hall
    exact ⟨hall, by rw [addBlocks, ambiguities, ← hnotices, ← hmore]⟩

theorem firstMatch_ofDocument (d : Document) :
    (ofDocument d).1.FirstMatch d.blocks ∧ (ofDocument d).2 = ambiguities [] d.blocks := by
  have hempty : empty.FirstMatch [] := by
    constructor <;> first | rfl | exact ⟨rfl, fun _ => rfl⟩
  exact firstMatch_addBlocks hempty d.blocks

end Index

/-! ## The files of a module -/

/-- The resource that a file declares first under a key. -/
def ModuleFile.resource? (f : ModuleFile) (key : ResourceKey) : Option ResourceHandle :=
  (declaredIn "resource" f.document.blocks).find? key

/-- What reading files notes is what each text asks for, in order. -/
theorem readFiles_notices {sources : List (Path × String)} {files : ModuleFiles}
    {notices : List Notice} (h : (readFiles sources).run = (.ok files, notices)) :
    ∃ documents : List Document,
      sources.map (fun s => Document.read? s.2) = documents.map some ∧
      notices = documents.flatMap fun d => ambiguities [] d.blocks := by
  have hfold : ∀ (sources : List (Path × String)) (start : ModuleFiles) (s t : List Notice),
      outcome (sources.foldlM (fun files entry => do
        let file ← ModuleFile.read entry.2 entry.1
        return Table.insert files entry.1 file) start) s = (.ok files, t) →
      ∃ documents : List Document,
        sources.map (fun s => Document.read? s.2) = documents.map some ∧
        t = s ++ documents.flatMap fun d => ambiguities [] d.blocks := by
    intro sources
    induction sources with
    | nil =>
      intro start s t h
      cases h
      exact ⟨[], rfl, (List.append_nil s).symm⟩
    | cons entry rest ih =>
      intro start s t h
      rw [List.foldlM_cons] at h
      obtain ⟨files₁, u, h₁, h⟩ := outcome_bind_eq_ok h
      obtain ⟨file, v, hfile, h₁⟩ := outcome_bind_eq_ok h₁
      cases h₁
      obtain ⟨d, hd, -⟩ := ModuleFile.read_eq_ok hfile
      rw [ModuleFile.outcome_read hd, (Index.firstMatch_ofDocument d).2] at hfile
      obtain ⟨documents, hmore, ht⟩ := ih _ _ _ h
      refine ⟨d :: documents, by rw [List.map_cons, hd, hmore, List.map_cons], ?_⟩
      have hu : u = s ++ ambiguities [] d.blocks := (congrArg Prod.snd hfile).symm
      rw [ht, hu, List.flatMap_cons, List.append_assoc]
  obtain ⟨documents, hmap, ht⟩ := hfold sources [] [] notices h
  exact ⟨documents, hmap, ht⟩

/-- Bodies do not matter to what blocks declare. -/
theorem Index.FirstMatch.congr {index : Index} {blocks others : List Block}
    (h : index.FirstMatch blocks) (hbare : others.map Block.bare = blocks.map Block.bare) :
    index.FirstMatch others := by
  have hall : ∀ {α : Type} (f : Block × Nat → Option α), (∀ b n, f (b.bare, n) = f (b, n)) →
      others.zipIdx.filterMap f = blocks.zipIdx.filterMap f := by
    intro α f hf
    have hmap : ∀ bs : List Block, bs.zipIdx.filterMap f = (bs.map Block.bare).zipIdx.filterMap f := by
      intro bs
      rw [List.zipIdx_map, List.filterMap_map]
      exact List.filterMap_congr fun e _ => (hf e.1 e.2).symm
    rw [hmap, hbare, ← hmap]
  have hdeclared : ∀ kind, declaredIn kind others = declaredIn kind blocks :=
    fun kind => hall _ fun _ _ => rfl
  have hnamed : ∀ kind, namedIn kind others = namedIn kind blocks :=
    fun kind => hall _ fun _ _ => rfl
  have hlocals : localsIn others = localsIn blocks := hall _ fun _ _ => rfl
  obtain ⟨hresources, hdata, hinputs, houtputs, hlast⟩ := h
  exact ⟨hdeclared _ ▸ hresources, hdeclared _ ▸ hdata, hnamed _ ▸ hinputs, hnamed _ ▸ houtputs,
    hlocals ▸ hlast⟩

/-- **Files have the index of first matches**, as they were read and however they are patched. -/
theorem Patched.firstMatch {files : ModuleFiles} (h : Patched files) :
    ∀ e ∈ files, e.2.index.FirstMatch e.2.document.blocks := by
  refine h.every (P := fun f => f.index.FirstMatch f.document.blocks) (fun hread => ?_)
    fun {f g handle key name a} hf hw => ?_
  · obtain ⟨d, -, rfl⟩ := ModuleFile.read_eq_ok hread
    exact (Index.firstMatch_ofDocument d).1
  · have hrewritten := ModuleFile.RewrittenTo.of_write hw
    rw [hrewritten.index]
    exact hf.congr hrewritten.map_bare

theorem Patching.runAll_nil (files : ModuleFiles) : runAll files [] = files := rfl

theorem patched_runAll {files : ModuleFiles} (h : Patched files) (calls : List (List Patch)) :
    Patched (Patching.runAll files calls) := by
  induction calls generalizing files with
  | nil => exact h
  | cons patches calls ih => exact ih (.patch patches h)

/-! ## Where a resource is found -/

section Locate

variable {files : ModuleFiles} {key : ResourceKey}

/-- The paths of the files that declare a resource. -/
theorem paths_declarations (key : ResourceKey) (start : Nat) (files : ModuleFiles) :
    (declarations key start files).map (·.2.1) =
      (files.filter fun e => (e.2.index.resources.find? key).isSome).map Prod.fst := by
  induction files generalizing start with
  | nil => rfl
  | cons e rest ih =>
    rw [declarations, List.filter_cons]
    cases he : e.2.index.resources.find? key with
    | some r => simp only [Option.isSome_some, if_true, List.map_cons, ih]
    | none => simpa only [he, Option.isSome_none, Bool.false_eq_true, if_false] using ih (start + 1)

/-- There is a notice if and only if at least two files declare the resource. -/
theorem locate_notices (files : ModuleFiles) (key : ResourceKey) :
    (locate files key).2 =
      match (files.filter fun e => (e.2.index.resources.find? key).isSome).map Prod.fst with
      | winner :: second :: more => [.shadowedResource key winner (second :: more)]
      | _ => [] := by
  rw [← paths_declarations key 0, locate]
  rcases declarations key 0 files with _ | ⟨_, _ | ⟨_, _⟩⟩
  · rfl
  · rfl
  · rfl

/-- The first file that declares a resource is found. -/
theorem locate_eq_some_iff {rank : Nat} {handle : BlockHandle} :
    (locate files key).1 = some (rank, handle) ↔
      ∃ path f r, files[rank]? = some (path, f) ∧ f.index.resources.find? key = some r ∧
        r.block = handle ∧
        ∀ earlier < rank, ∀ e, files[earlier]? = some e → e.2.index.resources.find? key = none := by
  have hfirst : ∀ {rank handle}, (locate files key).1 = some (rank, handle) →
      ∃ path f r, files[rank]? = some (path, f) ∧ f.index.resources.find? key = some r ∧
        r.block = handle ∧
        ∀ earlier < rank, ∀ e, files[earlier]? = some e → e.2.index.resources.find? key = none := by
    intro rank handle h
    obtain ⟨pre, path, f, post, r, rfl, rfl, hpre, hr, rfl⟩ := locate_eq_some h
    refine ⟨path, f, r, by simp, hr, rfl, fun earlier hlt e he => hpre e ?_⟩
    rw [List.getElem?_append_left hlt] at he
    exact List.mem_of_getElem? he
  refine ⟨hfirst, fun ⟨path, f, r, hf, hr, hhandle, hbefore⟩ => ?_⟩
  cases hlocate : (locate files key).1 with
  | none =>
    have hnone := locate_eq_none hlocate _ (List.mem_of_getElem? hf)
    rw [hr] at hnone
    cases hnone
  | some found =>
    obtain ⟨other, handle'⟩ := found
    obtain ⟨path', f', r', hf', hr', rfl, hbefore'⟩ := hfirst hlocate
    -- of two files none of which comes before the other there is only one
    have hrank : other = rank := by
      rcases Nat.lt_trichotomy other rank with hlt | heq | hgt
      · rw [hbefore other hlt _ hf'] at hr'
        cases hr'
      · exact heq
      · rw [hbefore' rank hgt _ hf] at hr
        cases hr
    subst hrank
    obtain ⟨rfl, rfl⟩ := Prod.mk.inj (Option.some.inj (hf.symm.trans hf'))
    rw [← hhandle, Option.some.inj (hr.symm.trans hr')]

end Locate

/-- **Lookup is by first match, and never silent about ambiguity.** Read any files, and patch them by
any calls. Reading notes every block whose place another one has. The index of each file is that of
first matches. A resource is found in the first file that declares it, in load order, by the handle
of the block that declares it first there; it is not found if and only if no file declares it; and
there is a notice if and only if other files declare it as well, with the paths of all of them. -/
theorem lookup_is_first_match {sources : List (Path × String)} {files : ModuleFiles}
    {notices : List Notice} (hread : (readFiles sources).run = (.ok files, notices)) :
    (∃ documents : List Document,
      sources.map (fun s => Document.read? s.2) = documents.map some ∧
      notices = documents.flatMap fun d => ambiguities [] d.blocks) ∧
    (∀ e ∈ files, Document.read? e.2.source = some e.2.document) ∧
    ∀ calls, let now := Patching.runAll files calls
      (∀ e ∈ now, e.2.index.FirstMatch e.2.document.blocks) ∧
      ∀ key,
        (∀ rank handle, (locate now key).1 = some (rank, handle) ↔
          ∃ path f r, now[rank]? = some (path, f) ∧ f.resource? key = some r ∧ r.block = handle ∧
            ∀ earlier < rank, ∀ e, now[earlier]? = some e → e.2.resource? key = none) ∧
        ((locate now key).1 = none ↔ ∀ e ∈ now, e.2.resource? key = none) ∧
        (locate now key).2 =
          match (now.filter fun e => (e.2.resource? key).isSome).map Prod.fst with
          | winner :: second :: more => [.shadowedResource key winner (second :: more)]
          | _ => [] := by
  refine ⟨readFiles_notices hread, fun e he => (readFiles_fresh hread e he).2, fun calls => ?_⟩
  intro now
  have hmatch := (patched_runAll (.read hread) calls).firstMatch
  -- what the index finds is what the blocks say
  have hfind : ∀ e ∈ now, ∀ key, e.2.index.resources.find? key = e.2.resource? key :=
    fun e he key => (hmatch e he).resources.find? key
  refine ⟨hmatch, fun key => ⟨fun rank handle => ?_, ?_, ?_⟩⟩
  · rw [locate_eq_some_iff]
    refine exists_congr fun path => exists_congr fun f => exists_congr fun r => ?_
    refine and_congr_right fun hf => ?_
    rw [hfind _ (List.mem_of_getElem? hf)]
    refine and_congr_right fun _ => and_congr_right fun _ => ?_
    exact forall₃_congr fun earlier _ e => forall_congr' fun he => by
      rw [hfind e (List.mem_of_getElem? he)]
  · rw [locate_eq_none_iff]
    exact forall₂_congr fun e he => by rw [hfind e he]
  · rw [locate_notices]
    congr 2
    exact List.filter_congr fun e he => by rw [hfind e he]

/-- Two files declare a resource, and one of them declares it twice, behind `locals` that are not the
last ones. The second block of the first file is found, and the other file is named. -/
theorem lookup_is_first_match_shadowed :
    let sources := [((⟨"a.tf"⟩ : Path), "locals \x7b\x7d\nresource k w \x7b\x7d\nlocals \x7b\x7d" ++
      "\nresource k w \x7b\x7d\n"), (⟨"b.tf"⟩, "resource k w \x7b\x7d\nresource k \x7b\x7d\n")]
    let result := (readFiles sources).run
    let files := result.1.toOption.getD []
    let key := ResourceKey.of "k" "w"
    result.2.map Notice.message = [Notice.severalLocals.message, (Notice.duplicateBlock "" key).message] ∧
      (locate files key).1.map (fun found => (found.1, found.2.rank)) = some (0, 1) ∧
      (locate files key).2 = [.shadowedResource key ⟨"a.tf"⟩ [⟨"b.tf"⟩]] ∧
      ∀ e ∈ files, e.2.index.FirstMatch e.2.document.blocks := by
  intro sources result files key
  obtain ⟨hread, htexts, hnoted, hfound⟩ : result.1.isOk = true ∧
      (files.filter fun e => (e.2.resource? key).isSome).map (fun e => e.1.text) =
        ["a.tf", "b.tf"] ∧
      result.2.map Notice.message =
        [Notice.severalLocals.message, (Notice.duplicateBlock "" key).message] ∧
      (locate files key).1.map (fun found => (found.1, found.2.rank)) = some (0, 1) := by
    decide +kernel
  have hpaths : (files.filter fun e => (e.2.resource? key).isSome).map Prod.fst =
      [⟨"a.tf"⟩, ⟨"b.tf"⟩] := by
    have hmap := congrArg (List.map Path.mk) htexts
    rwa [List.map_map] at hmap
  obtain ⟨-, -, hlookup⟩ := lookup_is_first_match (eq_ok_of_isOk (d := []) hread)
  have hnow := hlookup []
  rw [Patching.runAll_nil] at hnow
  obtain ⟨hmatch, hlocate⟩ := hnow
  refine ⟨hnoted, hfound, ?_, hmatch⟩
  rw [(hlocate key).2.2, hpaths]

end HclOverlay
