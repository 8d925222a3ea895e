import HclOverlay.Proofs.Documents.Copying
import HclOverlay.Proofs.Patching.Emission

/-!
# Patching is local

A file that was written is printed anew from its tree, and yet most of its text is copied: what
stands between top-level structures always, the structures that were not written if they print as
they were written. A file that was not written is given back as it was.

* `Patching.writes` — the blocks that patches write, each by the ranks of its file and its own.
* `Patching.log` — the blocks that have been written when patching stops, be it at a failure.
* `ModuleFile.RewrittenTo`, `Rewritten` — what writes to these blocks leave of a file and of files;
  `rewritten_patchAll` is the run.
* `patched_text_local` — **the text outside of the written blocks stays**.
-/

namespace HclOverlay

open Hcl Source

/-! ## Writes -/

/-- The blocks that patches write, once for every attribute: the rank of the file, and the rank of
the block among those of the file. -/
def Patching.writes (files : ModuleFiles) (patches : List Patch) : List (Nat × Nat) :=
  patches.flatMap fun p =>
    match (locate files p.key).1 with
    | none => []
    | some (rank, handle) => p.attributes.map fun _ => (rank, handle.rank)

/-- The blocks that the attributes of one patch have been written to when writing stops. -/
def Patching.attributeLog (rank : Nat) (handle : BlockHandle) (key : ResourceKey)
    (files : ModuleFiles) : List (String × PatchAttribute) → List (Nat × Nat)
  | [] => []
  | attr :: rest =>
    match files[rank]? with
    | none => []
    | some (_, file) =>
      match file.write handle key attr.1 attr.2 with
      | .ok file =>
        (rank, handle.rank) :: attributeLog rank handle key (setFile files rank file) rest
      | .error _ => []

/-- The blocks that patches have been written to when patching stops, once for every attribute. -/
def Patching.log (files : ModuleFiles) : List Patch → List (Nat × Nat)
  | [] => []
  | p :: rest =>
    match (locate files p.key).1 with
    | none => []
    | some (rank, handle) =>
      attributeLog rank handle p.key files p.attributes ++
        match writeAll rank handle p.key files p.attributes with
        | (.ok _, files) => log files rest
        | (.error _, _) => []

/-- Attributes that are written without failure are all in the log. -/
theorem attributeLog_eq_map {rank : Nat} {handle : BlockHandle} {key : ResourceKey}
    {attrs : List (String × PatchAttribute)} {files : ModuleFiles}
    (h : (Patching.writeAll rank handle key files attrs).1 = .ok ()) :
    Patching.attributeLog rank handle key files attrs = attrs.map fun _ => (rank, handle.rank) := by
  induction attrs generalizing files with
  | nil => rfl
  | cons attr rest ih =>
    rw [Patching.writeAll] at h
    rw [Patching.attributeLog, List.map_cons]
    rcases hf : files[rank]? with _ | ⟨path, f⟩
    · simp only [hf] at h
      cases h
    · cases hw : f.write handle key attr.1 attr.2 with
      | ok g =>
        simp only [hf, hw] at h
        simp only [hw, ih h]
      | error e =>
        simp only [hf, hw] at h
        cases h

/-- The ranks of the written blocks of one file. -/
def ranksIn (rank : Nat) (writes : List (Nat × Nat)) : List Nat :=
  writes.filterMap fun w => if w.1 = rank then some w.2 else none

/-- What writes to the blocks with the given ranks leave of a file. -/
structure ModuleFile.RewrittenTo (written : List Nat) (f g : ModuleFile) : Prop where
  source : g.source = f.source
  index : g.index = f.index
  structures : Edited written 0 f.document.structures g.document.structures
  endsLine : g.document.endsLine = f.document.endsLine
  closing : g.document.closing = f.document.closing
  modified : g.modified = (f.modified || !written.isEmpty)

namespace ModuleFile.RewrittenTo

variable {f g h : ModuleFile} {written more : List Nat}

theorem refl (f : ModuleFile) : f.RewrittenTo [] f :=
  ⟨rfl, rfl, .refl _ _ _, rfl, rfl, (Bool.or_false _).symm⟩

theorem trans (hf : f.RewrittenTo written g) (hg : g.RewrittenTo more h) :
    f.RewrittenTo (written ++ more) h where
  source := hg.source.trans hf.source
  index := hg.index.trans hf.index
  structures := (hf.structures.mono fun _ => List.mem_append_left _).trans
    (hg.structures.mono fun _ => List.mem_append_right _)
  endsLine := hg.endsLine.trans hf.endsLine
  closing := hg.closing.trans hf.closing
  modified := by
    rw [hg.modified, hf.modified]
    cases written <;> cases more <;> simp

/-- One write. -/
theorem of_write {handle : BlockHandle} {key : ResourceKey} {name : String} {a : PatchAttribute}
    (hw : f.write handle key name a = .ok g) : f.RewrittenTo [handle.rank] g := by
  obtain ⟨b, e, -, -, -, rfl⟩ := write_eq_ok hw
  refine ⟨rfl, rfl, ?_, rfl, rfl, (Bool.or_true _).symm⟩
  exact edited_modifyNthBlock (fun c => ⟨_, rfl⟩) (by simp) _

end ModuleFile.RewrittenTo

/-! ## Files -/

/-- What writes leave of files. -/
def Rewritten (writes : List (Nat × Nat)) (files final : ModuleFiles) : Prop :=
  ∀ (i : Nat) (path : Path) (f : ModuleFile), files[i]? = some (path, f) →
    ∃ g, final[i]? = some (path, g) ∧ f.RewrittenTo (ranksIn i writes) g

theorem Rewritten.refl (files : ModuleFiles) : Rewritten [] files files :=
  fun _ _ f hf => ⟨f, hf, .refl f⟩

theorem Rewritten.trans {files next final : ModuleFiles} {writes more : List (Nat × Nat)}
    (h : Rewritten writes files next) (h' : Rewritten more next final) :
    Rewritten (writes ++ more) files final := by
  intro i path f hf
  obtain ⟨g, hg, hfg⟩ := h i path f hf
  obtain ⟨k, hk, hgk⟩ := h' i path g hg
  rw [ranksIn, List.filterMap_append]
  exact ⟨k, hk, hfg.trans hgk⟩

/-- One write changes one file. -/
theorem Rewritten.of_write {files : ModuleFiles} {rank : Nat} {path : Path} {f g : ModuleFile}
    {handle : BlockHandle} {key : ResourceKey} {name : String} {a : PatchAttribute}
    (hf : files[rank]? = some (path, f)) (hw : f.write handle key name a = .ok g) :
    Rewritten [(rank, handle.rank)] files (setFile files rank g) := by
  intro i path' f' hf'
  rw [setFile, List.getElem?_modify, hf']
  by_cases hi : rank = i
  · subst hi
    obtain ⟨rfl, rfl⟩ := Prod.mk.inj (Option.some.inj (hf.symm.trans hf'))
    exact ⟨g, by simp, by simpa [ranksIn] using ModuleFile.RewrittenTo.of_write hw⟩
  · exact ⟨f', by simp [hi], by simpa [ranksIn, hi] using ModuleFile.RewrittenTo.refl f'⟩

/-- The attributes of one patch, as far as they are written. -/
theorem rewritten_writeAll (rank : Nat) (handle : BlockHandle) (key : ResourceKey)
    (attrs : List (String × PatchAttribute)) (files : ModuleFiles) :
    Rewritten (Patching.attributeLog rank handle key files attrs) files
      (Patching.writeAll rank handle key files attrs).2 := by
  induction attrs generalizing files with
  | nil => exact .refl _
  | cons attr rest ih =>
    rw [Patching.writeAll, Patching.attributeLog]
    cases hf : files[rank]? with
    | none => exact .refl _
    | some entry =>
      obtain ⟨path, f⟩ := entry
      cases hw : f.write handle key attr.1 attr.2 with
      | ok g =>
        have hall := (Rewritten.of_write hf hw).trans (ih (setFile files rank g))
        simpa only [hw, List.singleton_append] using hall
      | error e => simpa only [hw] using .refl _

/-- Where a resource is found depends on the paths and the indices of the files alone. -/
theorem declarations_congr (key : ResourceKey) (start : Nat) {files final : ModuleFiles}
    (h : final.map (fun e => (e.1, e.2.index)) = files.map fun e => (e.1, e.2.index)) :
    declarations key start final = declarations key start files := by
  induction files generalizing final start with
  | nil => rw [List.map_eq_nil_iff.1 h]
  | cons e rest ih =>
    cases final with
    | nil => cases h
    | cons e' rest' =>
      obtain ⟨hhead, htail⟩ := List.cons.inj h
      obtain ⟨hpath, hindex⟩ := Prod.mk.inj hhead
      rw [declarations, declarations, hpath, hindex, ih _ htail]

/-- Writes do not move resources. -/
theorem Rewritten.declarations_eq {files final : ModuleFiles} {writes : List (Nat × Nat)}
    (h : Rewritten writes files final) (hlen : final.length = files.length) (key : ResourceKey)
    (start : Nat) : declarations key start final = declarations key start files := by
  refine declarations_congr key start (List.ext_getElem (by simpa using hlen) fun i hi hi' => ?_)
  rw [List.length_map] at hi hi'
  obtain ⟨g, hg, hfg⟩ := h i files[i].1 files[i].2 (List.getElem?_eq_getElem hi')
  rw [List.getElem_map, List.getElem_map, (List.getElem?_eq_some_iff.1 hg).2, hfg.index]

theorem length_writeAll (rank : Nat) (handle : BlockHandle) (key : ResourceKey)
    (attrs : List (String × PatchAttribute)) (files : ModuleFiles) :
    (Patching.writeAll rank handle key files attrs).2.length = files.length := by
  induction attrs generalizing files with
  | nil => rfl
  | cons attr rest ih =>
    rw [Patching.writeAll]
    split
    · rfl
    · split
      · rw [ih, setFile, List.length_modify]
      · rfl

/-- **Patches in order** leave the blocks alone that they are not written to, also when they stop at
a failure. -/
theorem rewritten_patchAll (patches : List Patch) (files : ModuleFiles) :
    Rewritten (Patching.log files patches) files (Patching.patchAll files patches).2 := by
  induction patches generalizing files with
  | nil => exact .refl _
  | cons p rest ih =>
    rw [Patching.patchAll, Patching.log]
    rcases (locate files p.key).1 with _ | ⟨rank, handle⟩
    · exact .refl _
    · have hfirst := rewritten_writeAll rank handle p.key p.attributes files
      rcases hw : Patching.writeAll rank handle p.key files p.attributes with ⟨_ | _, next⟩
      all_goals
        rw [hw] at hfirst
        simp only [hw]
      · simpa only [List.append_nil] using hfirst
      · exact hfirst.trans (ih next)

/-- Patches that do not fail write the blocks that declare their resources, which are where they
were before the first of them. -/
theorem log_eq_writes {patches : List Patch} {files : ModuleFiles}
    (h : (Patching.patchAll files patches).1 = .ok ()) :
    Patching.log files patches = Patching.writes files patches := by
  induction patches generalizing files with
  | nil => rfl
  | cons p rest ih =>
    rw [Patching.patchAll] at h
    rw [Patching.log, Patching.writes, List.flatMap_cons]
    rcases hlocate : (locate files p.key).1 with _ | ⟨rank, handle⟩
    · simp only [hlocate] at h
      cases h
    · have hfirst := rewritten_writeAll rank handle p.key p.attributes files
      have hlen := length_writeAll rank handle p.key p.attributes files
      rcases hw : Patching.writeAll rank handle p.key files p.attributes with ⟨_ | _, next⟩
      all_goals
        rw [hw] at hfirst hlen
        simp only [hlocate, hw] at h
      · cases h
      · have hwrites : Patching.writes next rest = Patching.writes files rest := by
          refine List.flatMap_congr fun q _ => ?_
          rw [locate, locate, hfirst.declarations_eq hlen]
        have hmore := ih h
        rw [hwrites] at hmore
        simp only [attributeLog_eq_map (congrArg Prod.fst hw), hw, hmore]
        rfl

/-! ## Texts -/

/-- The files that are read are not written, and have the document of their text. -/
theorem readFiles_fresh {sources : List (Path × String)} {files : ModuleFiles}
    {notices : List Notice} (h : (readFiles sources).run = (.ok files, notices)) :
    ∀ e ∈ files, e.2.modified = false ∧ Document.read? e.2.source = some e.2.document := by
  refine outcome_foldlM_eq_ok (p := fun files : ModuleFiles =>
    ∀ e ∈ files, e.2.modified = false ∧ Document.read? e.2.source = some e.2.document)
    ?_ (by simp) h
  intro entry _ files files' s t hfiles hstep
  obtain ⟨file, u, hfile, hstep⟩ := outcome_bind_eq_ok hstep
  cases hstep
  obtain ⟨d, hd, rfl⟩ := ModuleFile.read_eq_ok hfile
  exact every_insert (P := fun f => f.modified = false ∧ Document.read? f.source = some f.document)
    hfiles ⟨rfl, hd⟩

/-- **The text outside of the written blocks stays.** Take files as they were read and patches that
are applied to them without failure. A file of which no block is written has its text back. A file
with line ends of one kind has its text back but for the spans of the written blocks, which are
replaced, provided that each other structure of it is printed as it was written. -/
theorem patched_text_local {sources : List (Path × String)} {files final : ModuleFiles}
    {patches : List Patch} {notices notices' : List Notice}
    (hread : (readFiles sources).run = (.ok files, notices))
    (hrun : (applyPatches patches).run files = (.ok (), final, notices')) :
    ∀ (i : Nat) (path : Path) (f : ModuleFile), files[i]? = some (path, f) →
      ∃ g, final[i]? = some (path, g) ∧
      let written := ranksIn i (Patching.writes files patches)
      (written = [] → g.text = f.source) ∧
      (UniformEnds f.source.toList →
        (∀ s ∈ untouched written 0 f.document.structures, ∀ span ∈ s.span?,
          f.lineEnds s.core = span.text f.source.toList) →
        ∃ edits, edits.map Prod.fst = writtenSpans written 0 f.document.structures ∧
          edits = replacements f.lineEnds written 0 g.document.structures ∧
          g.text = String.ofList (replaceSpans 0 edits f.source.toList)) := by
  intro i path f hf
  have hpatch := Patching.patchAll_of_run hrun
  obtain ⟨g, hg, hfg⟩ := rewritten_patchAll patches files i path f hf
  rw [hpatch] at hg
  rw [log_eq_writes (congrArg Prod.fst hpatch)] at hfg
  obtain ⟨hmodified, hdocument⟩ := readFiles_fresh hread _ (List.mem_of_getElem? hf)
  refine ⟨g, hg, fun hnone => ?_, fun hends hsame => ?_⟩
  · rw [ModuleFile.text_of_not_modified, hfg.source]
    rw [hfg.modified, hmodified, hnone]
    rfl
  · refine ⟨_, hfg.structures.spans_eq f.lineEnds, rfl, ?_⟩
    -- the printed tree is the source with the spans of written blocks replaced
    have hprint := Document.print_edited hdocument (restores_of_uniform hends) hfg.structures
      hfg.endsLine hfg.closing hsame
    have hlineEnds : g.lineEnds = f.lineEnds := by
      rw [ModuleFile.lineEnds, ModuleFile.lineEnds, hfg.source]
    cases hmodified' : g.modified with
    | true =>
      rw [ModuleFile.text_of_modified hmodified', hlineEnds]
      exact congrArg String.ofList hprint
    | false =>
      rw [hfg.modified, hmodified, Bool.false_or, Bool.not_eq_false', List.isEmpty_iff] at hmodified'
      -- no block was written, so there is nothing to replace
      have hedits := hfg.structures.spans_eq f.lineEnds
      rw [hmodified', writtenSpans_nil, List.map_eq_nil_iff] at hedits
      rw [ModuleFile.text_of_not_modified, hfg.source, hmodified', hedits, replaceSpans_nil,
        String.ofList_toList]
      rw [hfg.modified, hmodified, hmodified']
      rfl

theorem patchingRun_eq_of_isOk {r : Except Failure Unit × ModuleFiles × List Notice}
    (h : r.1.isOk = true) : r = (.ok (), r.2.1, r.2.2) := by
  obtain ⟨_ | _, _⟩ := r
  · cases h
  · rfl

/-- A resource is written, an input and all comments are copied with their line ends. -/
theorem patched_text_local_returns :
    let source := "# c\r\nresource k w \x7b\r\n  a = 1 # old\r\n\x7d\r\n\r\nvariable v \x7b\x7d // end"
    let files := (readFiles [(⟨"main.tf"⟩, source)]).run.1.toOption.getD []
    let patches : List Patch := [⟨"k", "w", none, [("a", ⟨.replace, .bool true⟩)]⟩]
    let final := ((applyPatches patches).run files).2.1
    final.map (·.2.text) =
        ["# c\r\nresource k w \x7b\r\n  a = true # old\r\n\x7d\r\n\r\nvariable v \x7b\x7d // end"] ∧
      ∀ (path : Path) (f : ModuleFile), files[0]? = some (path, f) →
        ∃ g edits, final[0]? = some (path, g) ∧ edits.map Prod.fst = [⟨5, 37⟩] ∧
          g.text = String.ofList (replaceSpans 0 edits source.toList) := by
  intro source files patches final
  obtain ⟨hread, hrun, hwrites, hfile, htexts⟩ :
      (readFiles [(⟨"main.tf"⟩, source)]).run.1.isOk = true ∧
      ((applyPatches patches).run files).1.isOk = true ∧
      ranksIn 0 (Patching.writes files patches) = [0] ∧
      (∀ e ∈ files, e.2.source = source ∧
        ModuleFile.allCarriageReturns e.2.source.toList = true ∧
        writtenSpans [0] 0 e.2.document.structures = [⟨5, 37⟩] ∧
        ∀ s ∈ untouched [0] 0 e.2.document.structures, ∀ span ∈ s.span?,
          e.2.lineEnds s.core = span.text e.2.source.toList) ∧
      final.map (·.2.text) =
        ["# c\r\nresource k w \x7b\r\n  a = true # old\r\n\x7d\r\n\r\nvariable v \x7b\x7d // end"] := by
    decide +kernel
  have hfiles : (readFiles [(⟨"main.tf"⟩, source)]).run =
      (.ok files, (readFiles [(⟨"main.tf"⟩, source)]).run.2) := eq_ok_of_isOk hread
  have hfinal : (applyPatches patches).run files =
      (.ok (), final, ((applyPatches patches).run files).2.2) := patchingRun_eq_of_isOk hrun
  refine ⟨htexts, fun path f hf => ?_⟩
  obtain ⟨hsource, hreturns, hspans, hsame⟩ := hfile _ (List.mem_of_getElem? hf)
  obtain ⟨g, hg, -, hlocal⟩ := patched_text_local hfiles hfinal 0 path f hf
  rw [hwrites] at hlocal
  obtain ⟨edits, hedits, -, htext⟩ := hlocal
    (.inl fun _ _ => getLast?_of_allCarriageReturns hreturns) hsame
  exact ⟨g, edits, hg, hedits.trans hspans, by rw [htext, hsource]⟩

end HclOverlay
