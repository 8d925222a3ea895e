import HclOverlay.Proofs.Patching.Safety
import HclOverlay.Proofs.Patching.Writing
import HclOverlay.Proofs.Rendering.Spelling

/-!
# Applying a patch again

A patch that does not append says what its attributes should be, so a second application should find
them so. It does wherever two things are the same that the first application may have changed: the
indentation, which is taken from attributes that were not written yet, and the value that is merged
with, which is read back from the text it was given.

* `Number.KeepsText` — a number that is read again as one with the same text, as numbers in
  normal form are.
* `ModuleFile.Repeats` — what must be the same for one attribute.
* `rewriteBlock?_again` — **one attribute** of a block that all attributes were written to.
* `reapplied_patch_changes_nothing` — **the patch**.
-/

namespace HclOverlay

open Hcl Hcl.Reader

/-! ## Values that were written -/

/-- The text of a number is read as a number with the same text. -/
def Number.KeepsText (n : Number) : Prop := ∃ k, n.reread? = some k ∧ k.toChars = n.toChars

theorem Number.keepsText_of_isNormal {n : Number} (h : n.isNormal = true) : n.KeepsText := by
  refine ⟨n.settled, reread?_of_isNormal h, ?_⟩
  cases n with
  | belowZero k =>
    have hneg : ¬ (k : Int) < 0 := by omega
    rw [settled, toChars_int, Decimal.integerDigits, if_neg hneg, Int.natAbs_natCast, toChars]
  | _ => rfl

theorem Number.KeepsText.isReadable {n : Number} (h : n.KeepsText) : n.isReadable = true := by
  obtain ⟨k, hk, -⟩ := h
  rw [Number.isReadable, hk]
  rfl

/-- The number that a readable number is read as. -/
def Number.reread (n : Number) : Number := n.reread?.getD n

theorem Number.reread?_of_isReadable {n : Number} (h : n.isReadable = true) :
    n.reread? = some n.reread := by
  obtain ⟨k, hk⟩ := Option.isSome_iff_exists.1 h
  rw [reread, hk, Option.getD_some]

theorem Number.KeepsText.toChars_reread {n : Number} (h : n.KeepsText) :
    n.reread.toChars = n.toChars := by
  obtain ⟨k, hk, htext⟩ := h
  rw [reread, hk, Option.getD_some, htext]

/-- A patch value merged into itself, with its numbers read again, is itself. -/
theorem Value.mapNumbers_merge_self {b : Value} (hb : b.DistinctKeys) (f : Number → Number) :
    (b.mapNumbers f).merge b = b := by
  have hfields : ∀ (fields : List (String × Value)),
      (∀ key, Table.find? (mapNumbersOfFields f fields) key =
        (Table.find? fields key).map (mapNumbers f)) ∧
      Table.keys (mapNumbersOfFields f fields) = Table.keys fields := by
    intro fields
    induction fields with
    | nil => exact ⟨fun _ => rfl, rfl⟩
    | cons field rest ih =>
      obtain ⟨k, v⟩ := field
      refine ⟨fun key => ?_, congrArg (k :: ·) ih.2⟩
      rw [mapNumbersOfFields, mapNumbersOfField, Table.find?_cons, Table.find?_cons, ih.1]
      split <;> rfl
  induction hb using DistinctKeys.fieldInduction with
  | fields b hb ih =>
    cases hobject : b.isObject with
    | false => exact merge_of_not_isObject hobject
    | true =>
      obtain ⟨fields, rfl⟩ := isObject_iff.1 hobject
      have hboth : ((object fields).mapNumbers f).isObject = true ∧ (object fields).isObject = true :=
        ⟨rfl, rfl⟩
      have hkeys : (((object fields).mapNumbers f).merge (object fields)).keys =
          (object fields).keys := by
        rw [keys_merge hb.nodup hboth, mapNumbers, keys_object, keys_object, (hfields fields).2]
        simp
      refine object_ext ((isObject_merge _ _).trans rfl) rfl (hkeys ▸ hb.nodup) hkeys fun key => ?_
      rw [field?_merge hb.nodup hboth, mapNumbers, field?_object, field?_object,
        (hfields fields).1]
      cases hx : Table.find? fields key with
      | none => rfl
      | some x => exact congrArg some (ih key x hx)

/-! ## One attribute -/

/-- What must be the same when an attribute is written again: `d` is the block that it was written
to, and `c` the block with all attributes written. -/
structure ModuleFile.Repeats (f : ModuleFile) (c d : Block) (attr : String × PatchAttribute) :
    Prop where
  /-- the value takes one line, or is indented as it was -/
  indent : (newValue d attr.1 attr.2).takesOneLine = true ∨
    f.indentFor d attr.1 = f.indentFor c attr.1
  /-- what is merged with is the value of the patch alone, or an object that can be read back -/
  merged : attr.2.strategy = .merge →
    newValue d attr.1 attr.2 = attr.2.value ∨ (newValue d attr.1 attr.2).hasNullKey = false
  numbers : attr.2.strategy = .merge → ∀ n ∈ (newValue d attr.1 attr.2).numbers, n.KeepsText

/-- Writing an attribute as it stands there changes nothing. -/
theorem replaceAttribute_self {name : String} {e : Expr} {before : Trivia} {after : Option Trivia}
    {body : List Structure}
    (h : (attributesOf body).find? (·.name == name) = some (.ofWrite name e before after)) :
    replaceAttribute name e body = body := by
  induction body with
  | nil => rfl
  | cons s rest ih =>
    cases s with
    | block b => exact congrArg (Structure.block b :: ·) (ih h)
    | attr a =>
      rw [attributesOf_attr, List.find?_cons] at h
      rw [replaceAttribute]
      cases hname : a.name == name with
      | true =>
        rw [hname] at h
        cases h
        rfl
      | false =>
        rw [hname] at h
        rw [if_neg Bool.false_ne_true, ih h]

section Attributes

variable {f : ModuleFile} {b c d : Block} {attr : String × PatchAttribute}

/-- What the text of data is read as, if it is read at all. -/
theorem value_of_read?_chars {v : Value} (hv : v.IsData)
    (hnumbers : ∀ n ∈ v.numbers, n.isReadable = true) {indent : List Char}
    (hi : ∀ c ∈ indent, isBlankChar c = true) {e : Expr} (h : Expr.read? (v.chars indent) = some e) :
    e.value = if v.hasNullKey then .unevaluated e.text else v.mapNumbers Number.reread := by
  have hplain := (Value.plain_iff v).2 ⟨hv, hnumbers⟩
  rw [Value.read?_chars hplain hi] at h
  split at h
  · cases h
  · cases h
    exact Value.value_tree_of (fun _ => Number.reread?_of_isReadable) hplain indent

/-- A merging attribute gives its own value, or merges it into data. -/
theorem newValue_of_merge (hs : attr.2.strategy = .merge) (d : Block) :
    ModuleFile.newValue d attr.1 attr.2 = attr.2.value ∨
      ∃ a : Value, a.IsData ∧ ModuleFile.newValue d attr.1 attr.2 = a.merge attr.2.value := by
  rw [ModuleFile.newValue, hs]
  cases d.attribute? attr.1 with
  | none => exact .inl rfl
  | some a =>
    rw [Option.map_some, Strategy.combine_merge_some]
    rcases a.value.isWhole_value with hkept | hdata
    · refine .inl (Value.merge_of_existing_not_isObject ?_)
      cases hv : a.value.value with
      | object fields =>
        rw [hv] at hkept
        cases hkept
      | _ => rfl
    · exact .inr ⟨a.value.value, hdata, rfl⟩

/-- **The value of an attribute that is written again** has the text that it had. Only merging looks
at what is there. -/
theorem chars_newValue_again (hvalue : attr.2.value.IsWhole) (happend : attr.2.strategy ≠ .append)
    (h : f.Repeats c d attr) {e : Expr} {before : Trivia} {after : Option Trivia}
    (he : Expr.read? ((ModuleFile.newValue d attr.1 attr.2).chars (f.indentFor d attr.1)) = some e)
    (hc : c.attribute? attr.1 = some (.ofWrite attr.1 e before after)) (indent : List Char) :
    (ModuleFile.newValue c attr.1 attr.2).chars indent =
      (ModuleFile.newValue d attr.1 attr.2).chars indent := by
  have hnow : ModuleFile.newValue c attr.1 attr.2 =
      attr.2.strategy.combine (some e.value) attr.2.value := by
    rw [ModuleFile.newValue, hc]
    rfl
  rw [hnow]
  cases hs : attr.2.strategy with
  | append => exact absurd hs happend
  | replace => rw [ModuleFile.newValue, hs, Strategy.combine_replace, Strategy.combine_replace]
  | merge =>
    have hthen := newValue_of_merge hs d
    rw [Strategy.combine_merge_some]
    rcases hvalue with hkept | hdata
    · -- an expression that is kept replaces what is there, both times
      have hobject : attr.2.value.isObject = false := by
        cases hv : attr.2.value with
        | object fields =>
          rw [hv] at hkept
          cases hkept
        | _ => rfl
      rw [Value.merge_of_not_isObject hobject]
      rcases hthen with hthen | ⟨a, -, hthen⟩
      · rw [hthen]
      · rw [hthen, Value.merge_of_not_isObject hobject]
    · -- data is read back, and merged with the same value once more
      have hwritten : (ModuleFile.newValue d attr.1 attr.2).IsData := by
        rcases hthen with hthen | ⟨a, ha, hthen⟩
        · rwa [hthen]
        · rw [hthen]
          exact ha.merge hdata
      have hread := value_of_read?_chars hwritten (fun n hn => (h.numbers hs n hn).isReadable)
        (indentFor_blank f d attr.1) he
      cases hnull : (ModuleFile.newValue d attr.1 attr.2).hasNullKey with
      | true =>
        have hsame := (h.merged hs).resolve_right (by simp [hnull])
        rw [hread, hnull, if_pos rfl, hsame, Value.merge_of_existing_not_isObject rfl]
      | false =>
        rw [hread, hnull, if_neg Bool.false_ne_true]
        rcases hthen with hthen | ⟨a, ha, hthen⟩
        · rw [hthen, Value.mapNumbers_merge_self hdata.distinctKeys]
        · have hnumbers := h.numbers hs
          rw [hthen] at hnumbers ⊢
          exact Value.chars_merge_again ha.distinctKeys hdata.distinctKeys
            (fun n hn => (hnumbers n hn).toChars_reread) indent

/-- **An attribute that is written again** leaves the block as it is. -/
theorem rewriteBlock?_again (hname : Text.isIdentifier attr.1 = true) (hvalue : attr.2.value.IsWhole)
    (happend : attr.2.strategy ≠ .append) (h : f.Repeats c d attr) {e : Expr} {before : Trivia}
    {after : Option Trivia}
    (he : Expr.read? ((ModuleFile.newValue d attr.1 attr.2).chars (f.indentFor d attr.1)) = some e)
    (hc : c.attribute? attr.1 = some (.ofWrite attr.1 e before after)) :
    f.rewriteBlock? c attr = some c := by
  have hchars : (ModuleFile.newValue c attr.1 attr.2).chars (f.indentFor c attr.1) =
      (ModuleFile.newValue d attr.1 attr.2).chars (f.indentFor d attr.1) := by
    rw [chars_newValue_again hvalue happend h he hc]
    rcases h.indent with hline | hindent
    · exact Value.chars_of_takesOneLine hline _ _
    · rw [hindent]
  have hbody : setAttribute (f.indentFor c attr.1) (f.onOneLine c) attr.1 e c.body = c.body := by
    rw [setAttribute, any_name_eq, ← Block.attribute?, hc, Option.isSome_some, if_pos rfl]
    exact replaceAttribute_self hc
  rw [ModuleFile.rewriteBlock?, if_pos hname, hchars, he, Option.map_some, hbody]
  cases c
  rfl

end Attributes

/-! ## The patch -/

/-- Every attribute of a patch repeats in the block that the patch is for. -/
def Patch.RepeatsIn (files : ModuleFiles) (p : Patch) : Prop :=
  ∀ rank handle f b c, Target files p.key rank handle f b →
    p.attributes.foldlM f.rewriteBlock? b = some c →
    ∀ front attr back d, p.attributes = front ++ attr :: back →
      front.foldlM f.rewriteBlock? b = some d → f.Repeats c d attr

/-- Writes that leave a block as it is do so one after the other. -/
theorem foldlM_rewriteBlock?_self {f : ModuleFile} {c : Block}
    {attrs : List (String × PatchAttribute)} (h : ∀ attr ∈ attrs, f.rewriteBlock? c attr = some c) :
    attrs.foldlM f.rewriteBlock? c = some c := by
  induction attrs with
  | nil => rfl
  | cons attr rest ih =>
    rw [List.foldlM_cons, h attr List.mem_cons_self]
    exact ih fun attr hattr => h attr (List.mem_cons_of_mem _ hattr)

/-- All attributes of a patch, written again, leave the block as it is. -/
theorem foldlM_rewriteBlock?_again {f : ModuleFile} {b c : Block} {p : Patch} (hsound : p.Sound)
    (hnodup : (Table.keys p.attributes).Nodup)
    (happend : ∀ attr ∈ p.attributes, attr.2.strategy ≠ .append)
    (hc : p.attributes.foldlM f.rewriteBlock? b = some c)
    (hrepeats : ∀ front attr back d, p.attributes = front ++ attr :: back →
      front.foldlM f.rewriteBlock? b = some d → f.Repeats c d attr) :
    p.attributes.foldlM f.rewriteBlock? c = some c := by
  refine foldlM_rewriteBlock?_self fun attr hattr => ?_
  obtain ⟨front, back, hsplit⟩ := List.append_of_mem hattr
  have hlast : attr.1 ∉ back.map Prod.fst := by
    rw [Table.keys, hsplit, List.map_append, List.map_cons, List.nodup_append] at hnodup
    exact (List.nodup_cons.1 hnodup.2.1).1
  have hfold := hc
  rw [hsplit, List.foldlM_append] at hfold
  obtain ⟨d, hd, -⟩ := Option.bind_eq_some_iff.1 hfold
  obtain ⟨e, before, after, he, hwritten⟩ :=
    attribute?_of_written hlast hd (by rw [← hsplit]; exact hc)
  obtain ⟨hname, hvalue⟩ := hsound attr hattr
  exact rewriteBlock?_again hname hvalue (happend attr hattr)
    (hrepeats front attr back d hsplit hd) he hwritten

/-- A block that is put where it stands stays, whether or not the file counts as modified. -/
theorem putBlock_again {files : ModuleFiles} {key : ResourceKey} {rank : Nat}
    {handle : BlockHandle} {f : ModuleFile} {b : Block} (h : Target files key rank handle f b)
    (c : Block) (changed : Bool) :
    putBlock (putBlock files rank handle.rank c changed) rank handle.rank c changed =
      putBlock files rank handle.rank c changed := by
  obtain ⟨place, hf⟩ := h.file
  cases changed with
  | true => exact putBlock_putBlock files rank handle.rank c c true
  | false =>
    exact putBlock_self (getElem?_putBlock hf _ _ _) (ModuleFile.block?_withBlock h.block _ _)

/-- A target whose attributes were written is still the target. -/
theorem target_again {files : ModuleFiles} {key : ResourceKey} {rank : Nat} {handle : BlockHandle}
    {f : ModuleFile} {b c : Block} (h : Target files key rank handle f b)
    (hb : (Structure.block b).Shaped) {attrs : List (String × PatchAttribute)}
    (hc : attrs.foldlM f.rewriteBlock? b = some c) (changed : Bool) :
    Target (putBlock files rank handle.rank c changed) key rank handle
      (f.withBlock handle.rank c changed) c := by
  obtain ⟨place, hf⟩ := h.file
  have hbare := (sameButAttributes_of_written hc hb).bare
  have hdeclares : resourceKey? c = some key := by
    rw [← h.declares]
    exact resourceKey?_congr (b := c.bare) (c := b.bare) (by rw [hbare]) (by rw [hbare])
  exact ⟨(locate_putBlock _ _ _ _ _ _).trans h.located, ⟨place, getElem?_putBlock hf _ _ _⟩,
    ModuleFile.block?_withBlock h.block _ _, hdeclares⟩

/-- **Applying a patch again changes nothing.** Take files that were read and patched before in any
way, and a patch of an overlay without an appending attribute that is applied to them. If every
attribute of it repeats, the patch is applied a second time and leaves all files as they are. -/
theorem reapplied_patch_changes_nothing {files final : ModuleFiles} (hfiles : Patched files)
    {text : String} {path : Path} {patches : List Patch} {notices notices' : List Notice}
    (hread : (Overlay.read text path).run = (.ok patches, notices)) {p : Patch} (hp : p ∈ patches)
    (happend : ∀ attr ∈ p.attributes, attr.2.strategy ≠ .append)
    (hrun : (applyPatches [p]).run files = (.ok (), final, notices'))
    (hrepeats : p.RepeatsIn files) :
    ∃ notices'', (applyPatches [p]).run final = (.ok (), final, notices'') := by
  have hpatch := Patching.patchAll_of_run hrun
  obtain ⟨rank, handle, hlocate⟩ := exists_locate_of_patchAll hpatch
  obtain ⟨f, b, htarget⟩ := Target.of_locate hfiles.indexed hlocate
  obtain ⟨c, hc, hfinal⟩ := (htarget.patchAll_cons_eq_ok_iff []).1 hpatch
  obtain rfl : putBlock files rank handle.rank c (!p.attributes.isEmpty) = final :=
    congrArg Prod.snd hfinal
  obtain ⟨place, hf⟩ := htarget.file
  have hshaped := shaped_of_block (hfiles.shaped _ (List.mem_of_getElem? hf)) htarget.block
  have hagain := target_again htarget hshaped hc (!p.attributes.isEmpty)
  have hsame : p.attributes.foldlM f.rewriteBlock? c = some c :=
    foldlM_rewriteBlock?_again (Overlay.sound_of_read hread p hp) (Overlay.nodup_of_read hread p hp)
      happend hc (hrepeats rank handle f b c htarget hc)
  have hsecond := (hagain.patchAll_cons_eq_ok_iff []).2 ⟨c, ?_, rfl⟩
  · obtain ⟨notices'', hrun'⟩ := Patching.run_applyPatches
      (putBlock files rank handle.rank c (!p.attributes.isEmpty)) [p]
    rw [hsecond] at hrun'
    exact ⟨notices'', by rw [hrun', putBlock_again htarget]⟩
  · -- the lines of attributes are looked up in the source, which no write changes
    rw [ModuleFile.rewriteBlock?_congr (f.source_withBlock _ _ _)]
    exact hsame

/-- An object that is merged, a list of several lines and a scalar, in a block whose indentation is
what it would be without them. -/
theorem reapplied_patch_changes_nothing_merged :
    let source := "resource k w \x7b\n  tags = \x7b b = 1 \x7d\n\x7d\n"
    let overlay := "patch k w \x7b\n  tags = merge(\x7b a = 2 \x7d)\n  l = [[1]]\n  n = \"x\"\n\x7d\n"
    let patches := (Overlay.read overlay ⟨"o"⟩).run.1.toOption.getD []
    let files := (readFiles [(⟨"main.tf"⟩, source)]).run.1.toOption.getD []
    patches.length = 1 ∧ ∀ p ∈ patches, ∃ final notices notices',
      (applyPatches [p]).run files = (.ok (), final, notices) ∧
      final.map (·.2.text) = ["resource k w \x7b\n  tags = \x7b\n    b = 1\n    a = 2\n  \x7d\n" ++
        "  l = [\n    [1],\n  ]\n  n = \"x\"\n\x7d\n"] ∧
      (applyPatches [p]).run final = (.ok (), final, notices') := by
  intro source overlay patches files
  obtain ⟨hoverlay, hfiles, hlength, hrun, htext, hstrategies, hrepeats⟩ :
      (Overlay.read overlay ⟨"o"⟩).run.1.isOk = true ∧
      (readFiles [(⟨"main.tf"⟩, source)]).run.1.isOk = true ∧ patches.length = 1 ∧
      (∀ p ∈ patches, ((applyPatches [p]).run files).1.isOk = true) ∧
      (∀ p ∈ patches, ((applyPatches [p]).run files).2.1.map (·.2.text) =
        ["resource k w \x7b\n  tags = \x7b\n    b = 1\n    a = 2\n  \x7d\n" ++
          "  l = [\n    [1],\n  ]\n  n = \"x\"\n\x7d\n"]) ∧
      (∀ p ∈ patches, ∀ attr ∈ p.attributes, attr.2.strategy ≠ .append) ∧
      ∀ p ∈ patches, ∀ e ∈ files, ∀ b ∈ e.2.document.blocks,
        ∀ c ∈ p.attributes.foldlM e.2.rewriteBlock? b, ∀ n < p.attributes.length,
        ∀ attr ∈ p.attributes[n]?, ∀ d ∈ (p.attributes.take n).foldlM e.2.rewriteBlock? b,
        e.2.indentFor d attr.1 = e.2.indentFor c attr.1 ∧
          (ModuleFile.newValue d attr.1 attr.2).hasNullKey = false ∧
          ∀ n ∈ (ModuleFile.newValue d attr.1 attr.2).numbers, n.isInteger = true := by
    decide +kernel
  refine ⟨hlength, fun p hp => ?_⟩
  have hok := patchingRun_eq_of_isOk (hrun p hp)
  have hin : p.RepeatsIn files := by
    intro rank handle f b c htarget hc front attr back d hsplit hd
    obtain ⟨path, hf⟩ := htarget.file
    obtain ⟨hindent, hnull, hnumbers⟩ := hrepeats p hp _ (List.mem_of_getElem? hf) b
      (List.mem_of_getElem? htarget.block) c hc front.length (by simp [hsplit]) attr
      (by simp [hsplit]) d (by rw [hsplit, List.take_left]; exact hd)
    exact ⟨.inr hindent, fun _ => .inr hnull,
      fun _ n hn => Number.keepsText_of_isNormal (Number.isNormal_of_isInteger (hnumbers n hn))⟩
  obtain ⟨notices', hagain⟩ := reapplied_patch_changes_nothing (.read (eq_ok_of_isOk hfiles))
    (eq_ok_of_isOk (d := []) hoverlay) hp (hstrategies p hp) hok hin
  exact ⟨_, _, notices', hok, htext p hp, hagain⟩

end HclOverlay
