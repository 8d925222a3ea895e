import HclOverlay.Proofs.Patching.View
import HclOverlay.Proofs.Rendering.Numbers

/-!
# Patching refines the meaning of patches

On what files say, patching is the fold of `View.patch`, provided that every value it writes is read
back as itself: each write goes through the text of the value, and what the tree says afterwards is
what that text is read as.

* `Value.ReadsBack` — a value whose text, at any indentation, is an expression of this value.
* `writeAll_view` — the attributes of one patch, by induction over them: the block keeps its place,
  its kind and its labels, and its body says what `patchBody` says.
* `patch_view` — one patch; `view_patchAll` — patches in order.
-/

namespace HclOverlay

open Hcl

/-- The text of the value, at any indentation, is read as an expression of this value. -/
def Value.ReadsBack (v : Value) : Prop :=
  ∀ indent : List Char, (∀ c ∈ indent, Reader.isBlankChar c = true) →
    (Expr.read? (v.chars indent)).map Expr.value = some v

/-- Values are read back that hold only numbers in normal form which count as their signs say, and
neither of the two keys that get in the way. -/
theorem Value.readsBack_of_plain {v : Value} (hv : v.Plain Number.isNormal) (hopen : v.opensFor = false)
    (hnull : v.hasNullKey = false) (hsettled : v.settled = v) : v.ReadsBack := by
  intro indent hi
  rw [Value.value_read?_chars (fun _ => Number.reread?_of_isNormal) hv hi, hopen, hnull, hsettled]
  rfl

/-! ## Indentation -/

theorem indentAt?_blank {f : ModuleFile} {offset : Nat} {indent : List Char}
    (h : f.indentAt? offset = some indent) : ∀ c ∈ indent, Reader.isBlankChar c = true := by
  unfold ModuleFile.indentAt? at h
  dsimp only at h
  split at h
  · next hall =>
    cases h
    exact List.all_eq_true.1 hall
  · cases h

/-- Attributes are indented by blanks. -/
theorem indentFor_blank (f : ModuleFile) (b : Block) (name : String) :
    ∀ c ∈ f.indentFor b name, Reader.isBlankChar c = true := by
  unfold ModuleFile.indentFor
  dsimp only
  split
  · next indent h =>
    obtain ⟨span, -, hspan⟩ := List.exists_of_findSome?_eq_some h
    exact indentAt?_blank hspan
  · intro c hc
    rcases List.mem_append.1 hc with hc | hc
    · cases hi : f.indentAt? b.span.start with
      | none => simp [hi] at hc
      | some indent =>
        rw [hi] at hc
        exact indentAt?_blank hi c hc
    · have : c = ' ' := by simpa [Value.indentStep] using hc
      rw [this]
      rfl

/-! ## Places in a tree -/

/-- The block that declares a resource, with what stands around it. -/
theorem structures_split {key : ResourceKey} {structures : List Structure} {n : Nat}
    (h : resourceRank? key (blocksOf structures) = some n) :
    ∃ pre b post, structures = pre ++ .block b :: post ∧ (blocksOf pre).length = n ∧
      (∀ c ∈ blocksOf pre, resourceKey? c ≠ some key) ∧ resourceKey? b = some key := by
  induction structures generalizing n with
  | nil => cases h
  | cons s rest ih =>
    cases s with
    | attr a =>
      obtain ⟨pre, b, post, rfl, hlen, hpre, hb⟩ := ih h
      exact ⟨.attr a :: pre, b, post, rfl, hlen, hpre, hb⟩
    | block c =>
      rw [blocksOf_block, resourceRank?_cons] at h
      split at h
      · next hc =>
        cases h
        exact ⟨[], c, rest, rfl, rfl, by simp, hc⟩
      · next hc =>
        obtain ⟨m, hm, rfl⟩ := Option.map_eq_some_iff.1 h
        obtain ⟨pre, b, post, rfl, rfl, hpre, hb⟩ := ih hm
        refine ⟨.block c :: pre, b, post, rfl, rfl, fun d hd => ?_, hb⟩
        rcases List.mem_cons.1 hd with rfl | hd
        · exact hc
        · exact hpre d hd

theorem modifyNthBlock_append (f : Block → Block) (pre : List Structure) (b : Block)
    (post : List Structure) :
    modifyNthBlock f (blocksOf pre).length (pre ++ .block b :: post) =
      pre ++ .block (f b) :: post := by
  induction pre with
  | nil => rfl
  | cons s pre ih =>
    cases s with
    | attr a => exact congrArg (Structure.attr a :: ·) ih
    | block c => exact congrArg (Structure.block c :: ·) ih

theorem blocksOf_append_getElem? (pre : List Structure) (b : Block) (post : List Structure) :
    (blocksOf (pre ++ .block b :: post))[(blocksOf pre).length]? = some b := by
  rw [blocksOf, List.filterMap_append, ← blocksOf, List.getElem?_append_right (Nat.le_refl _),
    Nat.sub_self]
  rfl

theorem setFile_append (before : ModuleFiles) (path : Path) (f g : ModuleFile)
    (after : ModuleFiles) :
    setFile (before ++ (path, f) :: after) before.length g = before ++ (path, g) :: after := by
  induction before with
  | nil => rfl
  | cons e before ih => exact congrArg (e :: ·) ih

/-- Putting an attribute into a block changes this block only. -/
theorem structures_put {f : ModuleFile} {h : BlockHandle} {b : Block} {pre post : List Structure}
    (hf : f.document.structures = pre ++ .block b :: post) (hrank : (blocksOf pre).length = h.rank)
    (name : String) (e : Expr) :
    (f.put h b name e).document.structures =
      pre ++ .block { b with
        body := setAttribute (f.indentFor b name) (f.onOneLine b) name e b.body } :: post := by
  simp only [ModuleFile.put, Document.modifyBlock]
  rw [hf, ← hrank, modifyNthBlock_append]

/-! ## One patch -/

/-- The value for an attribute depends only on what the body says. -/
theorem newValue_eq (b : Block) (attr : String × PatchAttribute) :
    ModuleFile.newValue b attr.1 attr.2 = valueFor (b.body.map Entry.ofStructure) attr := by
  rw [valueFor, valueIn?_map, ModuleFile.newValue, Block.attribute?]

/-- **The attributes of a patch**: if they are all written, the block is where it was, and its body
says what `patchBody` makes of it. -/
theorem writeAll_view {handle : BlockHandle} {key : ResourceKey} {before after : ModuleFiles}
    {path : Path} {pre post : List Structure} (hrank : (blocksOf pre).length = handle.rank)
    (attrs : List (String × PatchAttribute)) :
    ∀ {f : ModuleFile} {b : Block} {files : ModuleFiles},
    f.document.structures = pre ++ .block b :: post →
    Patching.writeAll before.length handle key (before ++ (path, f) :: after) attrs =
      (.ok (), files) →
    (∀ v ∈ writtenIn (b.body.map Entry.ofStructure) attrs, v.ReadsBack) →
    ∃ g c, files = before ++ (path, g) :: after ∧ g.document.structures = pre ++ .block c :: post ∧
      c.kind = b.kind ∧ c.labels = b.labels ∧
      c.body.map Entry.ofStructure = patchBody (b.body.map Entry.ofStructure) attrs := by
  induction attrs with
  | nil =>
    intro f b files hf hrun _
    cases hrun
    exact ⟨f, b, rfl, hf, rfl, rfl, rfl⟩
  | cons attr rest ih =>
    intro f b files hf hrun hback
    have hget : (before ++ (path, f) :: after)[before.length]? = some (path, f) := by simp
    rw [Patching.writeAll, hget] at hrun
    dsimp only at hrun
    split at hrun
    case h_2 => cases hrun
    case h_1 g hg =>
      obtain ⟨c, e, hc, he, -, rfl⟩ := ModuleFile.write_eq_ok hg
      -- the handle leads to the block that declares the resource
      have hcb : c = b := by
        rw [ModuleFile.block?, Document.blocks, hf, ← hrank, blocksOf_append_getElem?] at hc
        exact (Option.some.inj hc).symm
      subst hcb
      have hv : e.value = valueFor (c.body.map Entry.ofStructure) attr := by
        have hread := hback _ (by rw [writtenIn]; exact List.mem_cons_self) (f.indentFor c attr.1)
          (indentFor_blank f c attr.1)
        rw [← newValue_eq, he, Option.map_some] at hread
        rw [← newValue_eq]
        exact Option.some.inj hread
      rw [setFile_append] at hrun
      obtain ⟨g, d, rfl, hg, hkind, hlabels, hbody⟩ :=
        ih (structures_put hf hrank attr.1 e) hrun (by
          intro v hmem
          refine hback v ?_
          rw [map_setAttribute, hv] at hmem
          rw [writtenIn]
          exact List.mem_cons_of_mem _ hmem)
      refine ⟨g, d, rfl, hg, hkind, hlabels, ?_⟩
      rw [hbody, map_setAttribute, hv, patchBody, patchBody, List.foldl_cons]

/-! ## What declares a resource -/

theorem Top.key?_block (b : Block) : (Top.ofStructure (.block b)).key? = resourceKey? b := by
  rw [Top.ofStructure, resourceKey?, resourceOf?]
  unfold Top.key?
  split
  · next heq =>
    injection heq with hkind hlabels _
    rw [hlabels, hkind]
    split <;> rfl
  · next hne =>
    split
    · next type name hl => exact absurd (by rw [hl]) (hne b.kind type name _)
    · rfl

/-- Structures of which no block declares a resource say nothing under its key. -/
theorem key?_ne_of_blocks {key : ResourceKey} {structures : List Structure}
    (h : ∀ b ∈ blocksOf structures, resourceKey? b ≠ some key) :
    ∀ t ∈ structures.map Top.ofStructure, t.key? ≠ some key := by
  intro t ht
  obtain ⟨s, hs, rfl⟩ := List.mem_map.1 ht
  cases s with
  | attr a => simp [Top.ofStructure, Top.key?]
  | block b =>
    rw [Top.key?_block]
    exact h b (List.mem_filterMap.2 ⟨.block b, hs, rfl⟩)

theorem patched?_of_key?_ne {p : Patch} {t : Top} (h : t.key? ≠ some p.key) :
    t.patched? p = none := by
  cases t with
  | attr name value => rfl
  | block kind labels body => exact if_neg h

theorem bodyOf?_of_key?_ne {key : ResourceKey} {t : Top} (h : t.key? ≠ some key) :
    t.bodyOf? key = none := by
  cases t with
  | attr name value => rfl
  | block kind labels body => exact if_neg h

/-- What a file without a resource says does not declare it. -/
theorem any_key?_of_index_none {key : ResourceKey} {f : ModuleFile} (hf : f.Indexed)
    (h : f.index.resources.find? key = none) :
    ∀ t ∈ f.document.structures.map Top.ofStructure, t.key? ≠ some key := by
  refine key?_ne_of_blocks (resourceRank?_eq_none ?_)
  have := hf key
  rw [h] at this
  exact this.symm

/-- The place of a resource that `locate` finds: a file with others around it, none of them before
it with the resource, and in the file a block, none before it declaring the resource. -/
structure Place (files : ModuleFiles) (key : ResourceKey) (rank : Nat) (handle : BlockHandle) where
  before : ModuleFiles
  path : Path
  file : ModuleFile
  after : ModuleFiles
  pre : List Structure
  block : Block
  post : List Structure
  files_eq : files = before ++ (path, file) :: after
  rank_eq : before.length = rank
  structures_eq : file.document.structures = pre ++ .block block :: post
  handle_eq : (blocksOf pre).length = handle.rank
  key_eq : resourceKey? block = some key
  before_none : ∀ e ∈ before, ∀ t ∈ e.2.document.structures.map Top.ofStructure,
    t.key? ≠ some key
  pre_none : ∀ t ∈ pre.map Top.ofStructure, t.key? ≠ some key

/-- Where `locate` finds a resource, there is a place for it. -/
theorem Place.of_locate {files : ModuleFiles} {key : ResourceKey} {rank : Nat}
    {handle : BlockHandle} (hfiles : ∀ e ∈ files, e.2.Indexed)
    (h : (locate files key).1 = some (rank, handle)) : Nonempty (Place files key rank handle) := by
  obtain ⟨before, path, file, after, r, rfl, hlen, hbefore, hr, rfl⟩ := locate_eq_some h
  have hrank : resourceRank? key file.document.blocks = some r.block.rank := by
    rw [← hfiles (path, file) (by simp) key, hr, Option.map_some]
  obtain ⟨pre, b, post, hstr, hn, hpre, hb⟩ := structures_split hrank
  exact ⟨{
    before, path, file, after, pre, post
    block := b
    files_eq := rfl
    rank_eq := hlen
    structures_eq := hstr
    handle_eq := hn
    key_eq := hb
    before_none := fun e he => any_key?_of_index_none (hfiles e (by simp [he])) (hbefore e he)
    pre_none := key?_ne_of_blocks hpre }⟩

namespace Place

variable {files : ModuleFiles} {p : Patch} {rank : Nat} {handle : BlockHandle}

/-- What the files say, taken apart at the place. -/
theorem ofFiles_eq (pl : Place files p.key rank handle) :
    View.ofFiles files = View.ofFiles pl.before ++
      (pl.path, pl.pre.map Top.ofStructure ++
        Top.ofStructure (.block pl.block) :: pl.post.map Top.ofStructure) ::
      View.ofFiles pl.after := by
  refine (congrArg View.ofFiles pl.files_eq).trans ?_
  rw [View.ofFiles, List.map_append, List.map_cons, pl.structures_eq, List.map_append,
    List.map_cons]
  rfl

/-- The body that a patch changes is that of the block in the place. -/
theorem bodyOf?_eq (pl : Place files p.key rank handle) :
    (View.ofFiles files).bodyOf? p.key = some (pl.block.body.map Entry.ofStructure) := by
  rw [View.bodyOf?, pl.ofFiles_eq]
  refine findSome?_append_cons _ (fun file hfile => ?_) ?_
  · obtain ⟨e, he, rfl⟩ := List.mem_map.1 hfile
    exact List.findSome?_eq_none_iff.2 fun t ht => bodyOf?_of_key?_ne (pl.before_none e he t ht)
  · refine findSome?_append_cons _ (fun t ht => bodyOf?_of_key?_ne (pl.pre_none t ht)) ?_
    have hkey := (Top.key?_block pl.block).trans pl.key_eq
    exact if_pos hkey

/-- A patch changes what the files say in the place alone. -/
theorem patch_eq (pl : Place files p.key rank handle) {g : ModuleFile} {c : Block}
    (hg : g.document.structures = pl.pre ++ .block c :: pl.post) (hkind : c.kind = pl.block.kind)
    (hlabels : c.labels = pl.block.labels)
    (hbody : c.body.map Entry.ofStructure =
      patchBody (pl.block.body.map Entry.ofStructure) p.attributes) :
    (View.ofFiles files).patch p =
      View.ofFiles (pl.before ++ (pl.path, g) :: pl.after) := by
  have hkey := (Top.key?_block pl.block).trans pl.key_eq
  have hnew : Top.ofStructure (.block c) = .block pl.block.kind pl.block.labelTexts
      (patchBody (pl.block.body.map Entry.ofStructure) p.attributes) := by
    rw [Top.ofStructure, hkind, hbody, Block.labelTexts, hlabels, Block.labelTexts]
  have hfinal : View.ofFiles (pl.before ++ (pl.path, g) :: pl.after) =
      View.ofFiles pl.before ++ (pl.path, pl.pre.map Top.ofStructure ++
        Top.ofStructure (.block c) :: pl.post.map Top.ofStructure) :: View.ofFiles pl.after := by
    rw [View.ofFiles, List.map_append, List.map_cons, hg, List.map_append, List.map_cons]
    rfl
  rw [View.patch, pl.ofFiles_eq, hfinal]
  refine replaceF_append_cons _ (fun file hfile => ?_) ?_
  · obtain ⟨e, he, rfl⟩ := List.mem_map.1 hfile
    refine if_neg ?_
    rw [List.any_eq_true]
    rintro ⟨t, ht, hk⟩
    exact pl.before_none e he t ht (of_decide_eq_true hk)
  · rw [if_pos]
    · rw [replaceF_append_cons _ (fun t ht => patched?_of_key?_ne (pl.pre_none t ht))]
      rw [hnew]
      exact if_pos hkey
    · rw [List.any_eq_true]
      exact ⟨_, by simp, decide_eq_true hkey⟩

end Place

/-! ## Patches in order -/

/-- A result that is one, with what comes beside it. -/
theorem eq_ok_of_isOk {ε α β : Type} {d : α} {r : Except ε α × β} (h : r.1.isOk = true) :
    r = (.ok (r.1.toOption.getD d), r.2) := by
  obtain ⟨_ | a, b⟩ := r
  · cases h
  · rfl

/-- Patches in order do to what files say what their meanings do, if they are all applied. -/
theorem view_patchAll {patches : List Patch} {files final : ModuleFiles}
    (hfiles : ∀ e ∈ files, e.2.Indexed)
    (hrun : Patching.patchAll files patches = (.ok (), final))
    (hback : ∀ v ∈ (View.ofFiles files).written patches, v.ReadsBack) :
    View.ofFiles final = patches.foldl View.patch (View.ofFiles files) := by
  induction patches generalizing files with
  | nil =>
    cases hrun
    rfl
  | cons p rest ih =>
    rw [Patching.patchAll] at hrun
    split at hrun
    case h_1 => cases hrun
    case h_2 rank handle hloc =>
      obtain ⟨pl⟩ := Place.of_locate hfiles hloc
      split at hrun
      case h_2 => cases hrun
      case h_1 u next hwrite =>
        have hnext : ∀ e ∈ next, e.2.Indexed := by
          have := every_writeAll (fun hf hw => ModuleFile.Indexed.write hf hw) rank handle p.key
            p.attributes files hfiles
          rwa [hwrite] at this
        have hbody := pl.bodyOf?_eq
        obtain ⟨g, c, rfl, hg, hkind, hlabels, hc⟩ := writeAll_view pl.handle_eq p.attributes
          pl.structures_eq (by rw [← pl.files_eq, pl.rank_eq, hwrite]) (by
            intro v hv
            refine hback v ?_
            rw [View.written, hbody]
            exact List.mem_append_left _ hv)
        have hview := pl.patch_eq hg hkind hlabels hc
        rw [List.foldl_cons, hview]
        refine ih hnext hrun fun v hv => hback v ?_
        rw [View.written, hbody, hview]
        exact List.mem_append_right _ hv

/-- **Patching refines the meaning of patches.** Take files that were read and patched before in any
way. If patches are applied to them and every value written is read back as itself, then what the
files say afterwards is what they said before with the meaning of each patch applied in order. -/
theorem view_applyPatches {files final : ModuleFiles} {patches : List Patch}
    {notices : List Notice} (hfiles : Patched files)
    (hrun : (applyPatches patches).run files = (.ok (), final, notices))
    (hback : ∀ v ∈ (View.ofFiles files).written patches, v.ReadsBack) :
    View.ofFiles final = patches.foldl View.patch (View.ofFiles files) :=
  view_patchAll hfiles.indexed (Patching.patchAll_of_run hrun) hback

/-- A block gets two attributes, and one of them is changed by the next patch. -/
theorem view_applyPatches_twice :
    let source := "resource k w \x7b\n  b \x7b\x7d\n\x7d\n"
    let files := (readFiles [(⟨"main.tf"⟩, source)]).run.1.toOption.getD []
    let patches : List Patch :=
      [⟨"k", "w", none, [("a", ⟨.replace, .string "1"⟩), ("c", ⟨.merge, .string "$\x7b"⟩)]⟩,
        ⟨"k", "w", none, [("a", ⟨.append, .string "2"⟩)]⟩]
    ((applyPatches patches).run files).1.isOk = true ∧
      View.ofFiles ((applyPatches patches).run files).2.1 =
        patches.foldl View.patch (View.ofFiles files) := by
  intro source files patches
  have hread : (readFiles [(⟨"main.tf"⟩, source)]).run.1.isOk = true := by decide +kernel
  have hrun : ((applyPatches patches).run files).1.isOk = true := by decide +kernel
  have hstring : ∀ v ∈ (View.ofFiles files).written patches, v.asString?.isSome = true := by
    decide +kernel
  refine ⟨hrun, view_applyPatches (.read (eq_ok_of_isOk hread)) (eq_ok_of_isOk (d := ()) hrun)
    fun v hv => ?_⟩
  cases v with
  | string s => exact Value.readsBack_of_plain trivial rfl rfl rfl
  | _ => exact absurd (hstring _ hv) Bool.false_ne_true

end HclOverlay
