import HclOverlay.Proofs.Patching.Independence

/-!
# The attributes written to one block

What patches write to a block is the attributes of all patches for its resource, one after the other,
and what becomes of the block is computed from the block alone. Two things about it are needed again
and again: which attributes are left to tell how far the next one is indented, and what the attribute
of a name looks like at the end.

* `Patching.attributesFor`, `block_patchAll` — the attributes, and **the run** on the block.
* `Block.anchors` — the attributes that still know where they were read from. A write takes one away;
  `indentFor_of_written` is the indentation after any writes.
* `attribute?_rewriteBlock?` — the attributes of a block after one write.
* `attribute?_of_written`, `attribute?_of_not_written` — and after any writes.
-/

namespace HclOverlay

open Hcl Source

/-! ## The run -/

/-- The attributes that patches write to one block, in order. The block is given by the rank of its
file and its own. -/
def Patching.attributesFor (files : ModuleFiles) (i n : Nat) (patches : List Patch) :
    List (String × PatchAttribute) :=
  patches.flatMap fun p =>
    match (locate files p.key).1 with
    | none => []
    | some (rank, handle) => if (rank, handle.rank) = (i, n) then p.attributes else []

theorem getElem?_putBlock_of_ne {files : ModuleFiles} {rank m i n : Nat} {path : Path}
    {f : ModuleFile} {b : Block} (hne : (rank, m) ≠ (i, n)) (hf : files[i]? = some (path, f))
    (hb : f.document.blocks[n]? = some b) (c : Block) (touched : Bool) :
    ∃ g, (putBlock files rank m c touched)[i]? = some (path, g) ∧ g.source = f.source ∧
      g.document.blocks[n]? = some b := by
  by_cases hrank : rank = i
  · subst hrank
    have hm : m ≠ n := fun h => hne (by rw [h])
    refine ⟨f.withBlock m c touched, getElem?_putBlock hf m c touched, rfl, ?_⟩
    rw [ModuleFile.withBlock, Document.blocks_modifyBlock, List.getElem?_modify_ne _ _ hm, hb]
  · exact ⟨f, by rw [putBlock, List.getElem?_modify_ne _ _ hrank, hf], rfl, hb⟩

/-- **What patches make of a block** is what their attributes make of it one after the other, if all
of them are written. -/
theorem block_patchAll {patches : List Patch} {files final : ModuleFiles}
    (hfiles : ∀ e ∈ files, e.2.Indexed)
    (hrun : Patching.patchAll files patches = (.ok (), final)) {i n : Nat} {path : Path}
    {f : ModuleFile} {b : Block} (hf : files[i]? = some (path, f))
    (hb : f.document.blocks[n]? = some b) :
    ∃ g c, final[i]? = some (path, g) ∧ g.source = f.source ∧ g.document.blocks[n]? = some c ∧
      (Patching.attributesFor files i n patches).foldlM f.rewriteBlock? b = some c := by
  induction patches generalizing files f b with
  | nil =>
    cases hrun
    exact ⟨f, b, hf, rfl, hb, rfl⟩
  | cons p rest ih =>
    obtain ⟨rank, handle, hlocate⟩ := exists_locate_of_patchAll hrun
    obtain ⟨f', b', htarget⟩ := Target.of_locate hfiles hlocate
    obtain ⟨c', hc', hrest⟩ := (htarget.patchAll_cons_eq_ok_iff rest).1 hrun
    have hnext : ∀ e ∈ putBlock files rank handle.rank c' (!p.attributes.isEmpty), e.2.Indexed := by
      have hone := (htarget.patchAll_cons_eq_ok_iff []).2 ⟨c', hc', rfl⟩
      have hall := every_patchAll (fun hf hw => ModuleFile.Indexed.write hf hw) files [p] hfiles
      rwa [hone] at hall
    have hmore : Patching.attributesFor
        (putBlock files rank handle.rank c' (!p.attributes.isEmpty)) i n rest =
          Patching.attributesFor files i n rest := by
      simp only [Patching.attributesFor, locate_putBlock]
    rw [Patching.attributesFor, List.flatMap_cons, hlocate]
    dsimp only
    -- the first patch is for this block, or leaves it as it is
    by_cases hplace : (rank, handle.rank) = (i, n)
    · obtain ⟨rfl, rfl⟩ := Prod.mk.inj hplace
      obtain ⟨path', hf'⟩ := htarget.file
      obtain ⟨-, rfl⟩ := Prod.mk.inj (Option.some.inj (hf.symm.trans hf'))
      obtain rfl := Option.some.inj (hb.symm.trans htarget.block)
      obtain ⟨g, c, hg, hsource, hc, hfold⟩ := ih hnext hrest
        (getElem?_putBlock hf handle.rank c' _) (ModuleFile.block?_withBlock hb c' _)
      rw [hmore, ModuleFile.rewriteBlock?_congr (f.source_withBlock _ _ _)] at hfold
      refine ⟨g, c, hg, hsource, hc, ?_⟩
      rw [if_pos rfl, List.foldlM_append, hc']
      exact hfold
    · obtain ⟨f₁, hf₁, hsource₁, hb₁⟩ := getElem?_putBlock_of_ne hplace hf hb c' _
      obtain ⟨g, c, hg, hsource, hc, hfold⟩ := ih hnext hrest hf₁ hb₁
      rw [hmore, ModuleFile.rewriteBlock?_congr hsource₁] at hfold
      exact ⟨g, c, hg, hsource.trans hsource₁, hc, by rwa [if_neg hplace]⟩

/-! ## One write -/

section Writes

variable {f : ModuleFile} {b c : Block} {attr : String × PatchAttribute}

theorem rewriteBlock?_eq_some (h : f.rewriteBlock? b attr = some c) :
    Text.isIdentifier attr.1 = true ∧
      ∃ e, Expr.read? ((ModuleFile.newValue b attr.1 attr.2).chars (f.indentFor b attr.1)) = some e ∧
        c = { b with body := setAttribute (f.indentFor b attr.1) (f.onOneLine b) attr.1 e b.body } := by
  rw [ModuleFile.rewriteBlock?] at h
  split at h
  · next hname =>
    obtain ⟨e, he, rfl⟩ := Option.map_eq_some_iff.1 h
    exact ⟨hname, e, he, rfl⟩
  · cases h

theorem rewriteBlock?_shaped (h : f.rewriteBlock? b attr = some c)
    (hb : (Structure.block b).Shaped) : (Structure.block c).Shaped := by
  obtain ⟨hname, e, -, rfl⟩ := rewriteBlock?_eq_some h
  exact setAttribute_shaped hb (indentFor_skips f b attr.1) _ hname e

/-- An attribute as a write leaves it, with what stands around it. -/
def Hcl.Attribute.ofWrite (name : String) (e : Expr) (before : Trivia) (after : Option Trivia) :
    Attribute :=
  ⟨before, name, [' '], [' '], e, after, none⟩

/-- An attribute put on a line of its own. -/
def Hcl.Attribute.reflowed (indent : Trivia) (a : Attribute) : Attribute :=
  { a with before := indent, after := some [] }

theorem attributesOf_reflow (indent : Trivia) (body : List Structure) :
    attributesOf (reflow indent body) = (attributesOf body).map (·.reflowed indent) := by
  induction body with
  | nil => rfl
  | cons s rest ih =>
    cases s with
    | attr a => exact congrArg (a.reflowed indent :: ·) ih
    | block b => exact ih

theorem blocksOf_reflow (indent : Trivia) (body : List Structure) :
    blocksOf (reflow indent body) = blocksOf body := by
  induction body with
  | nil => rfl
  | cons s rest ih =>
    cases s with
    | attr a => exact ih
    | block b => exact congrArg (b :: ·) ih

theorem attributesOf_append (front back : List Structure) :
    attributesOf (front ++ back) = attributesOf front ++ attributesOf back :=
  List.filterMap_append

/-- The attribute that is written takes the place of the one with its name. -/
theorem attributesOf_replaceAttribute (name : String) (e : Expr) (body : List Structure) :
    attributesOf (replaceAttribute name e body) = (attributesOf body).replaceF fun a =>
      if a.name == name then some (.ofWrite name e a.before a.after) else none := by
  induction body with
  | nil => rfl
  | cons s rest ih =>
    cases s with
    | block b => exact ih
    | attr a =>
      rw [replaceAttribute, attributesOf_attr, List.replaceF_cons]
      cases a.name == name with
      | true => rfl
      | false => exact congrArg (a :: ·) ih

theorem blocksOf_replaceAttribute (name : String) (e : Expr) (body : List Structure) :
    blocksOf (replaceAttribute name e body) = blocksOf body := by
  induction body with
  | nil => rfl
  | cons s rest ih =>
    cases s with
    | block b => exact congrArg (b :: ·) ih
    | attr a =>
      rw [replaceAttribute]
      split
      · rfl
      · exact ih

/-- An attribute that is new comes behind the others. -/
theorem attributesOf_insertAttribute (new : Attribute) (body : List Structure) :
    attributesOf (insertAttribute new body) = attributesOf body ++ [new] := by
  obtain ⟨front, back, rfl, hinsert, hback, -⟩ := insertAttribute_eq new body
  rw [hinsert, attributesOf_append, attributesOf_attr, attributesOf_append, hback, List.append_nil]

theorem blocksOf_insertAttribute (new : Attribute) (body : List Structure) :
    blocksOf (insertAttribute new body) = blocksOf body := by
  obtain ⟨front, back, rfl, hinsert, -, -⟩ := insertAttribute_eq new body
  rw [hinsert, blocksOf, blocksOf, List.filterMap_append, List.filterMap_append]
  rfl

theorem blocksOf_setAttribute (indent : Trivia) (oneLine : Bool) (name : String) (e : Expr)
    (body : List Structure) : blocksOf (setAttribute indent oneLine name e body) = blocksOf body := by
  rw [setAttribute]
  split
  · exact blocksOf_replaceAttribute name e body
  · rw [blocksOf_insertAttribute]
    split
    · exact blocksOf_reflow indent body
    · rfl

/-- The attributes of a body with one of them written. -/
theorem attributesOf_setAttribute (indent : Trivia) (oneLine : Bool) (name : String) (e : Expr)
    (body : List Structure) :
    attributesOf (setAttribute indent oneLine name e body) =
      if (attributesOf body).any (·.name == name) then
        (attributesOf body).replaceF fun a =>
          if a.name == name then some (.ofWrite name e a.before a.after) else none
      else (if oneLine then (attributesOf body).map (·.reflowed indent) else attributesOf body) ++
        [.ofWrite name e indent none] := by
  rw [setAttribute]
  split
  · exact attributesOf_replaceAttribute name e body
  · rw [attributesOf_insertAttribute]
    split
    · rw [attributesOf_reflow]
      rfl
    · rfl

theorem find?_replaceF_self {as : List Attribute} {name : String} {a : Attribute}
    (h : as.find? (·.name == name) = some a) (new : Attribute → Attribute)
    (hnew : ∀ a, (new a).name = name) :
    (as.replaceF fun a => if a.name == name then some (new a) else none).find? (·.name == name) =
      some (new a) := by
  induction as with
  | nil => cases h
  | cons first rest ih =>
    rw [List.find?_cons] at h
    rw [List.replaceF_cons]
    cases hname : first.name == name with
    | true =>
      rw [hname] at h
      cases h
      simp [hnew]
    | false =>
      rw [hname] at h
      simpa [List.find?_cons, hname] using ih h

theorem find?_replaceF_of_ne {name other : String} (hne : other ≠ name)
    (new : Attribute → Attribute) (hnew : ∀ a, (new a).name = name) (as : List Attribute) :
    (as.replaceF fun a => if a.name == name then some (new a) else none).find? (·.name == other) =
      as.find? (·.name == other) := by
  induction as with
  | nil => rfl
  | cons first rest ih =>
    rw [List.replaceF_cons]
    cases hname : first.name == name with
    | true =>
      have hfirst : (first.name == other) = false := by
        rw [beq_iff_eq.1 hname, beq_eq_false_iff_ne]
        exact hne.symm
      have hother : ((new first).name == other) = false := by
        rw [hnew, beq_eq_false_iff_ne]
        exact hne.symm
      simp [hfirst, hother]
    | false =>
      simp only [Bool.false_eq_true, if_false, List.find?_cons, ih]

theorem any_name_eq (as : List Attribute) (name : String) :
    as.any (·.name == name) = (as.find? (·.name == name)).isSome := by
  rw [Bool.eq_iff_iff, List.any_eq_true, List.find?_isSome]

/-- **The attribute that is written**: it stays behind what stood in front of it, or comes behind
its indentation. -/
theorem attribute?_rewriteBlock? (h : f.rewriteBlock? b attr = some c) :
    ∃ e after,
      Expr.read? ((ModuleFile.newValue b attr.1 attr.2).chars (f.indentFor b attr.1)) = some e ∧
      c.attribute? attr.1 = some (.ofWrite attr.1 e
        (((b.attribute? attr.1).map (·.before)).getD (f.indentFor b attr.1)) after) := by
  obtain ⟨-, e, he, rfl⟩ := rewriteBlock?_eq_some h
  have hfind : ∀ b : Block, b.attribute? attr.1 =
      (attributesOf b.body).find? (·.name == attr.1) := fun _ => rfl
  rw [hfind, attributesOf_setAttribute, any_name_eq, ← hfind]
  cases hold : b.attribute? attr.1 with
  | some a =>
    refine ⟨e, a.after, he, ?_⟩
    rw [hfind] at hold
    exact find?_replaceF_self hold (fun a => .ofWrite attr.1 e a.before a.after) fun _ => rfl
  | none =>
    refine ⟨e, none, he, ?_⟩
    rw [hfind] at hold
    have hnone : ((if f.onOneLine b = true then
        (attributesOf b.body).map (·.reflowed (f.indentFor b attr.1))
        else attributesOf b.body).find? (·.name == attr.1)) = none := by
      split
      · rw [List.find?_map, Option.map_eq_none_iff]
        exact hold
      · exact hold
    rw [Option.isSome_none, if_neg Bool.false_ne_true, List.find?_append, hnone, Option.none_or]
    simp [Attribute.ofWrite]

/-- **The other attributes** stay, or are put on lines of their own. -/
theorem attribute?_rewriteBlock?_of_ne (h : f.rewriteBlock? b attr = some c) {name : String}
    (hne : name ≠ attr.1) :
    c.attribute? name = b.attribute? name ∨ f.onOneLine b = true ∧
      c.attribute? name = (b.attribute? name).map (·.reflowed (f.indentFor b attr.1)) := by
  obtain ⟨-, e, -, rfl⟩ := rewriteBlock?_eq_some h
  have hfind : ∀ b : Block, b.attribute? name =
      (attributesOf b.body).find? (·.name == name) := fun _ => rfl
  have hlast : ([Attribute.ofWrite attr.1 e (f.indentFor b attr.1) none].find? (·.name == name)) =
      none := by
    rw [List.find?_singleton, if_neg]
    exact fun heq => hne (beq_iff_eq.1 heq).symm
  rw [hfind, attributesOf_setAttribute]
  split
  · exact .inl (find?_replaceF_of_ne hne (fun a => .ofWrite attr.1 e a.before a.after)
      (fun _ => rfl) _)
  · rw [List.find?_append, hlast, Option.or_none]
    split
    · next hline =>
      refine .inr ⟨hline, ?_⟩
      rw [List.find?_map]
      rfl
    · exact .inl rfl

/-! ## Indentation -/

/-- The places of attributes that still know where they were read from, by their names. -/
def anchorsOf (as : List Attribute) : List (String × Span) :=
  as.filterMap fun a => a.span.map (a.name, ·)

/-- The places of the attributes of a block. -/
def Hcl.Block.anchors (b : Block) : List (String × Span) := anchorsOf (attributesOf b.body)

theorem anchorsOf_cons (a : Attribute) (as : List Attribute) :
    anchorsOf (a :: as) = (a.span.map (a.name, ·)).toList ++ anchorsOf as := by
  rw [anchorsOf, List.filterMap_cons]
  cases a.span <;> rfl

theorem mem_anchorsOf {as : List Attribute} {e : String × Span} :
    e ∈ anchorsOf as ↔ ∃ a ∈ as, a.name = e.1 ∧ a.span = some e.2 := by
  obtain ⟨name, span⟩ := e
  simp [anchorsOf, and_comm]

theorem anchorsOf_filter (as : List Attribute) (p : String → Bool) :
    anchorsOf (as.filter fun a => p a.name) = (anchorsOf as).filter fun e => p e.1 := by
  induction as with
  | nil => rfl
  | cons a rest ih =>
    rw [List.filter_cons, anchorsOf_cons, List.filter_append, ← ih]
    cases hp : p a.name with
    | true =>
      rw [if_pos rfl, anchorsOf_cons]
      cases a.span <;> simp [hp]
    | false => cases a.span <;> simp [hp]

theorem map_snd_anchorsOf (as : List Attribute) :
    (anchorsOf as).map Prod.snd = as.filterMap (·.span) := by
  rw [anchorsOf, List.map_filterMap]
  refine List.filterMap_congr fun a _ => ?_
  cases a.span <;> rfl

/-- Places of other attributes have other names. -/
theorem filter_anchorsOf_of_not_mem {as : List Attribute} {name : String}
    (h : name ∉ as.map (·.name)) :
    (anchorsOf as).filter (·.1 == name) = [] ∧
      (anchorsOf as).filter (·.1 != name) = anchorsOf as := by
  have hne : ∀ e ∈ anchorsOf as, e.1 ≠ name := by
    rintro e he rfl
    obtain ⟨a, ha, hname, -⟩ := mem_anchorsOf.1 he
    exact h (List.mem_map.2 ⟨a, ha, hname⟩)
  exact ⟨List.filter_eq_nil_iff.2 fun e he => by simpa using hne e he,
    List.filter_eq_self.2 fun e he => by simpa using hne e he⟩

/-- The attribute of a name tells where it was read from, if it knows. -/
theorem own_eq {as : List Attribute} (h : (as.map (·.name)).Nodup) (name : String) :
    (as.find? (·.name == name)).toList.filterMap (·.span) =
      ((anchorsOf as).filter (·.1 == name)).map Prod.snd := by
  induction as with
  | nil => rfl
  | cons a rest ih =>
    rw [List.map_cons, List.nodup_cons] at h
    rw [List.find?_cons, anchorsOf_cons, List.filter_append]
    cases hname : a.name == name with
    | true =>
      rw [beq_iff_eq] at hname
      subst hname
      rw [(filter_anchorsOf_of_not_mem h.1).1]
      cases hspan : a.span <;> simp [hspan]
    | false =>
      rw [ih h.2]
      cases a.span <;> simp [hname]

/-- An attribute that is written in place loses its own. -/
theorem anchorsOf_replaceF {as : List Attribute} (h : (as.map (·.name)).Nodup) (name : String)
    (new : Attribute → Attribute) (hnew : ∀ a, (new a).span = none) :
    anchorsOf (as.replaceF fun a => if a.name == name then some (new a) else none) =
      (anchorsOf as).filter (·.1 != name) := by
  induction as with
  | nil => rfl
  | cons a rest ih =>
    rw [List.map_cons, List.nodup_cons] at h
    rw [List.replaceF_cons, anchorsOf_cons, List.filter_append]
    cases hname : a.name == name with
    | true =>
      rw [beq_iff_eq] at hname
      subst hname
      rw [(filter_anchorsOf_of_not_mem h.1).2, if_pos rfl, anchorsOf_cons, hnew]
      cases a.span <;> simp
    | false =>
      rw [if_neg Bool.false_ne_true, anchorsOf_cons, ih h.2]
      cases a.span <;> simp [bne, hname]

/-- A block without the attributes of some names. -/
def Hcl.Block.without (b : Block) (names : List String) : Block :=
  { b with body := b.body.filter fun s => s.attribute?.all fun a => !names.contains a.name }

theorem Hcl.Block.without_nil (b : Block) : b.without [] = b := by
  have hbody : b.body.filter (fun s => s.attribute?.all fun a => !([] : List String).contains a.name) =
      b.body :=
    List.filter_eq_self.2 fun s _ => by cases s <;> rfl
  rw [Block.without, hbody]
  cases b
  rfl

theorem attributesOf_without (b : Block) (names : List String) :
    attributesOf (b.without names).body =
      (attributesOf b.body).filter fun a => !names.contains a.name := by
  have hbody : ∀ body : List Structure,
      attributesOf (body.filter fun s => s.attribute?.all fun a => !names.contains a.name) =
        (attributesOf body).filter fun a => !names.contains a.name := by
    intro body
    induction body with
    | nil => rfl
    | cons s rest ih =>
      cases s with
      | block b => exact ih
      | attr a =>
        rw [List.filter_cons, attributesOf_attr, List.filter_cons, Structure.attribute?,
          Option.all_some]
        split
        · rw [attributesOf_attr, ih]
        · exact ih
  exact hbody b.body

theorem blocksOf_without (b : Block) (names : List String) :
    blocksOf (b.without names).body = blocksOf b.body := by
  have hbody : ∀ body : List Structure,
      blocksOf (body.filter fun s => s.attribute?.all fun a => !names.contains a.name) =
        blocksOf body := by
    intro body
    induction body with
    | nil => rfl
    | cons s rest ih =>
      cases s with
      | block b => exact congrArg (b :: ·) ih
      | attr a =>
        rw [List.filter_cons]
        split
        · exact ih
        · exact ih
  exact hbody b.body

theorem anchors_without (b : Block) (names : List String) :
    (b.without names).anchors = b.anchors.filter fun e => !names.contains e.1 := by
  rw [Block.anchors, attributesOf_without]
  exact anchorsOf_filter _ fun name => !names.contains name

theorem namesOf_without_nodup (h : (namesOf b.body).Nodup) (names : List String) :
    (namesOf (b.without names).body).Nodup := by
  rw [namesOf, attributesOf_without]
  exact h.sublist (List.filter_sublist.map _)

/-- What the indentation of an attribute depends on. -/
theorem indentFor_congr (hb : (namesOf b.body).Nodup) (hc : (namesOf c.body).Nodup)
    (hanchors : c.anchors = b.anchors) (hblocks : blocksOf c.body = blocksOf b.body)
    (hspan : c.span = b.span) (name : String) : f.indentFor c name = f.indentFor b name := by
  rw [ModuleFile.indentFor, ModuleFile.indentFor, Block.attribute?, Block.attribute?, own_eq hb,
    own_eq hc, ← map_snd_anchorsOf, ← map_snd_anchorsOf, hblocks, hspan, ← Block.anchors,
    ← Block.anchors, hanchors]

theorem namesOf_nodup (hb : (Structure.block b).Shaped) : (namesOf b.body).Nodup := by
  cases hb with
  | block head layout distinct body => exact ((distinct_iff _ _).1 distinct).1

/-- A write takes the place of its attribute away, if it had one, and no other. -/
theorem anchors_rewriteBlock? (h : f.rewriteBlock? b attr = some c)
    (hb : (namesOf b.body).Nodup) : c.anchors = b.anchors.filter (·.1 != attr.1) := by
  obtain ⟨-, e, -, rfl⟩ := rewriteBlock?_eq_some h
  rw [Block.anchors, attributesOf_setAttribute, Block.anchors]
  split
  · exact anchorsOf_replaceF hb attr.1 (fun a => .ofWrite attr.1 e a.before a.after) fun _ => rfl
  · next hany =>
    have hnew : attr.1 ∉ (attributesOf b.body).map (·.name) := by
      intro hmem
      obtain ⟨a, ha, heq⟩ := List.mem_map.1 hmem
      exact hany (List.any_eq_true.2 ⟨a, ha, beq_iff_eq.2 heq⟩)
    rw [(filter_anchorsOf_of_not_mem hnew).2, anchorsOf, List.filterMap_append]
    split
    · rw [List.filterMap_map]
      exact List.append_nil _
    · exact List.append_nil _

end Writes

/-! ## Any writes -/

section Runs

variable {f : ModuleFile} {b c d : Block} {attrs : List (String × PatchAttribute)}

theorem shaped_of_block {doc : Document} (h : doc.Shaped) {n : Nat} (hb : doc.blocks[n]? = some b) :
    (Structure.block b).Shaped := by
  obtain ⟨pre, post, hstructures, -⟩ := exists_append_of_blocksOf hb
  exact h.structures _ (by simp [hstructures])

/-- What writes leave of a block besides its attributes. -/
structure SameButAttributes (b c : Block) : Prop where
  shaped : (Structure.block c).Shaped
  blocks : blocksOf c.body = blocksOf b.body
  bare : c.bare = b.bare

theorem sameButAttributes_of_written (h : attrs.foldlM f.rewriteBlock? b = some c)
    (hb : (Structure.block b).Shaped) : SameButAttributes b c := by
  induction attrs generalizing b with
  | nil =>
    obtain rfl := Option.some.inj h
    exact ⟨hb, rfl, rfl⟩
  | cons attr rest ih =>
    obtain ⟨b', hb', h⟩ := Option.bind_eq_some_iff.1 h
    have hrest := ih h (rewriteBlock?_shaped hb' hb)
    obtain ⟨-, e, -, rfl⟩ := rewriteBlock?_eq_some hb'
    exact ⟨hrest.shaped, hrest.blocks.trans (blocksOf_setAttribute _ _ _ _ _), hrest.bare⟩

theorem anchors_of_written (h : attrs.foldlM f.rewriteBlock? b = some c)
    (hb : (Structure.block b).Shaped) :
    c.anchors = (b.without (attrs.map Prod.fst)).anchors := by
  rw [anchors_without]
  induction attrs generalizing b with
  | nil =>
    obtain rfl := Option.some.inj h
    exact (List.filter_eq_self.2 fun _ _ => rfl).symm
  | cons attr rest ih =>
    obtain ⟨b', hb', h⟩ := Option.bind_eq_some_iff.1 h
    rw [ih h (rewriteBlock?_shaped hb' hb), anchors_rewriteBlock? hb' (namesOf_nodup hb),
      List.filter_filter]
    refine List.filter_congr fun e _ => ?_
    rw [List.map_cons, List.contains_cons, Bool.not_or, Bool.and_comm]
    rfl

/-- **The indentation after writes** is computed as if the attributes that were written were not
there. -/
theorem indentFor_of_written (h : attrs.foldlM f.rewriteBlock? b = some c)
    (hb : (Structure.block b).Shaped) (name : String) :
    f.indentFor c name = f.indentFor (b.without (attrs.map Prod.fst)) name := by
  have hsame := sameButAttributes_of_written h hb
  refine indentFor_congr (namesOf_without_nodup (namesOf_nodup hb) _) (namesOf_nodup hsame.shaped)
    (anchors_of_written h hb) ?_ ?_ name
  · rw [blocksOf_without, hsame.blocks]
  · exact congrArg (fun b => b.span) hsame.bare

/-- An attribute stays as a write leaves it, wherever other attributes put it. -/
theorem attribute?_of_not_written {name : String} (hname : name ∉ attrs.map Prod.fst)
    (h : attrs.foldlM f.rewriteBlock? b = some c) {e : Expr} {before : Trivia}
    {after : Option Trivia} (hb : b.attribute? name = some (.ofWrite name e before after)) :
    ∃ before after, c.attribute? name = some (.ofWrite name e before after) := by
  induction attrs generalizing b before after with
  | nil =>
    obtain rfl := Option.some.inj h
    exact ⟨before, after, hb⟩
  | cons attr rest ih =>
    obtain ⟨b', hb', h⟩ := Option.bind_eq_some_iff.1 h
    rw [List.map_cons, List.mem_cons, not_or] at hname
    rcases attribute?_rewriteBlock?_of_ne hb' hname.1 with hsame | ⟨-, hmoved⟩
    · exact ih hname.2 h (hsame.trans hb)
    · rw [hb, Option.map_some] at hmoved
      exact ih hname.2 h hmoved

/-- **The attribute of the last write** of a name holds the value of this write. -/
theorem attribute?_of_written {front back : List (String × PatchAttribute)}
    {attr : String × PatchAttribute} (hlast : attr.1 ∉ back.map Prod.fst)
    (hfront : front.foldlM f.rewriteBlock? b = some d)
    (h : (front ++ attr :: back).foldlM f.rewriteBlock? b = some c) :
    ∃ e before after,
      Expr.read? ((ModuleFile.newValue d attr.1 attr.2).chars (f.indentFor d attr.1)) = some e ∧
      c.attribute? attr.1 = some (.ofWrite attr.1 e before after) := by
  rw [List.foldlM_append, hfront, Option.bind_eq_bind, Option.bind_some, List.foldlM_cons] at h
  obtain ⟨d', hd', h⟩ := Option.bind_eq_some_iff.1 h
  obtain ⟨e, after, he, hattr⟩ := attribute?_rewriteBlock? hd'
  obtain ⟨before, after, hfinal⟩ := attribute?_of_not_written hlast h hattr
  exact ⟨e, before, after, he, hfinal⟩

theorem getD_before (a? : Option Attribute) (indent : Trivia) :
    (a? = none ∧ (a?.map (·.before)).getD indent = indent) ∨
      ∃ a, a? = some a ∧ (a?.map (·.before)).getD indent = a.before := by
  cases a? with
  | none => exact .inl ⟨rfl, rfl⟩
  | some a => exact .inr ⟨a, rfl, rfl⟩

/-- **What stands in front of an attribute** of a block on several lines: what stood in front of the
attribute of this name if there was one, or else the indentation that it was first written with. -/
theorem before_of_written (hline : f.onOneLine b = false) (hb : (Structure.block b).Shaped)
    (h : attrs.foldlM f.rewriteBlock? b = some c) {name : String} {a : Attribute}
    (ha : c.attribute? name = some a) :
    (∃ a₀, b.attribute? name = some a₀ ∧ a.before = a₀.before) ∨
      b.attribute? name = none ∧ ∃ front attr back, attrs = front ++ attr :: back ∧
        attr.1 = name ∧ name ∉ front.map Prod.fst ∧
        a.before = f.indentFor (b.without (front.map Prod.fst)) name := by
  induction attrs generalizing b with
  | nil =>
    obtain rfl := Option.some.inj h
    exact .inl ⟨a, ha, rfl⟩
  | cons attr rest ih =>
    obtain ⟨b', hb', h⟩ := Option.bind_eq_some_iff.1 h
    have hline' : f.onOneLine b' = false := by
      obtain ⟨-, e, -, rfl⟩ := rewriteBlock?_eq_some hb'
      exact hline
    have hshaped := rewriteBlock?_shaped hb' hb
    -- what is first written later is indented as if this attribute had been written before it
    have hlater : ∀ names, f.indentFor (b'.without names) name =
        f.indentFor (b.without (attr.1 :: names)) name := by
      intro names
      obtain ⟨-, e, -, heq⟩ := rewriteBlock?_eq_some hb'
      refine indentFor_congr (namesOf_without_nodup (namesOf_nodup hb) _)
        (namesOf_without_nodup (namesOf_nodup hshaped) _) ?_ ?_ ?_ name
      · rw [anchors_without, anchors_without, anchors_rewriteBlock? hb' (namesOf_nodup hb),
          List.filter_filter]
        refine List.filter_congr fun e _ => ?_
        rw [List.contains_cons, Bool.not_or, Bool.and_comm]
        rfl
      · rw [blocksOf_without, blocksOf_without, heq]
        exact blocksOf_setAttribute _ _ _ _ _
      · rw [heq]
        rfl
    by_cases hname : name = attr.1
    · subst hname
      obtain ⟨e, after, -, hself⟩ := attribute?_rewriteBlock? hb'
      rcases ih hline' hshaped h with ⟨a₁, ha₁, hbefore⟩ | ⟨hnone, -⟩
      · obtain rfl := Option.some.inj (ha₁.symm.trans hself)
        rcases getD_before (b.attribute? attr.1) (f.indentFor b attr.1) with
          ⟨hnone, hindent⟩ | ⟨a₀, ha₀, hsame⟩
        · refine .inr ⟨hnone, [], attr, rest, rfl, rfl, List.not_mem_nil, hbefore.trans ?_⟩
          exact hindent.trans (by rw [List.map_nil, Block.without_nil])
        · exact .inl ⟨a₀, ha₀, hbefore.trans hsame⟩
      · rw [hself] at hnone
        cases hnone
    · have hsame : b'.attribute? name = b.attribute? name := by
        rcases attribute?_rewriteBlock?_of_ne hb' hname with hsame | ⟨hmoved, -⟩
        · exact hsame
        · rw [hline] at hmoved
          cases hmoved
      rcases ih hline' hshaped h with ⟨a₀, ha₀, hbefore⟩ |
        ⟨hnone, front, attr', back, rfl, hattr', hfront, hbefore⟩
      · exact .inl ⟨a₀, hsame ▸ ha₀, hbefore⟩
      · refine .inr ⟨hsame ▸ hnone, attr :: front, attr', back, rfl, hattr', ?_, ?_⟩
        · rw [List.map_cons, List.mem_cons, not_or]
          exact ⟨hname, hfront⟩
        · rw [hbefore, hlater, List.map_cons]

/-- The attributes of a block can be told by their names. -/
theorem attribute?_of_mem (hb : (Structure.block b).Shaped) {a : Attribute}
    (ha : a ∈ attributesOf b.body) : b.attribute? a.name = some a := by
  have hnodup := namesOf_nodup hb
  rw [Block.attribute?]
  rw [namesOf] at hnodup
  generalize attributesOf b.body = as at ha hnodup
  induction as with
  | nil => cases ha
  | cons first rest ih =>
    rw [List.map_cons, List.nodup_cons] at hnodup
    rw [List.find?_cons]
    rcases List.mem_cons.1 ha with rfl | ha
    · rw [beq_self_eq_true]
    · have hne : (first.name == a.name) = false := beq_eq_false_iff_ne.2 fun heq =>
        hnodup.1 (List.mem_map.2 ⟨a, ha, heq.symm⟩)
      rw [hne]
      exact ih ha hnodup.2

end Runs

end HclOverlay
