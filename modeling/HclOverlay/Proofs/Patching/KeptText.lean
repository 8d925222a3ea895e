import HclOverlay.Proofs.Excerpts.Arguments
import HclOverlay.Proofs.Excerpts.Modes
import HclOverlay.Proofs.Overlays.Acceptance
import HclOverlay.Proofs.Overlays.Strategies
import HclOverlay.Proofs.Patching.Writing

/-!
# Expressions that are kept as text

An attribute of an overlay whose expression has no value is kept as the text of this expression, and
this text is written whatever the attribute of the resource was. The text is read alone then, though
it was part of a longer text in the overlay: all of the value of an attribute, or the argument of the
call that selects its strategy.

* `Expr.Selects` — the expression that a strategy applies to, and its text.
* `exists_selects` — every attribute selects one, and **it is read alone** as it was in its place.
* `Target.of_patchAll` — the block of a resource after any patches.
* `holds_of_last` — **what is kept is written** by the last patch for an attribute.
* `kept_text_is_stable` — expressions without a value stay as they were written.
-/

namespace HclOverlay

open Hcl Hcl.Reader Source

/-! ## The text a strategy applies to -/

/-- An expression with the text `stretch` selects the strategy `s` for `x`, whose text is `source`. -/
inductive Hcl.Expr.Selects : Expr → List Char → Strategy → Expr → List Char → Prop
  | whole {e : Expr} (stretch : List Char) (h : Overlay.strategyOf e = (.replace, e)) :
      Selects e stretch .replace e stretch
  | argument {s : Strategy} (function : Padded String) (arg : Padded Expr) (ending : ArgsEnd)
      (closing : Trivia) (source : List Char) (h : Strategy.ofFunction? function.item = some s) :
      Selects (.call [function] [arg] ending closing)
        (function.item.toList ++ (function.after ++ '(' :: (arg.before ++ (source ++
          (arg.after ++ (ending.chars ++ (closing ++ [')']))))))) s arg.item source

/-- An attribute that stands in a text applies the strategy `s` to `x`, which stands there as
`source`. -/
def Hcl.Attribute.Applies (cs : List Char) (a : Attribute) (s : Strategy) (x : Expr)
    (source : List Char) : Prop :=
  ∃ front stretch back, a.ReadFrom cs front stretch back ∧ a.value.Selects stretch s x source

theorem Hcl.Expr.Selects.strategyOf_eq {e x : Expr} {stretch source : List Char} {s : Strategy}
    (h : e.Selects stretch s x source) : Overlay.strategyOf e = (s, x) := by
  cases h with
  | whole _ h => exact h
  | argument function arg ending closing _ h => rw [Overlay.strategyOf, h]

/-! ## Finding the text -/

/-- The text of the value of an attribute, found by its span. -/
def Hcl.Attribute.valueText (cs : List Char) (a : Attribute) : List Char :=
  ((a.span.getD ⟨0, 0⟩).text cs).drop (a.name.toList ++ (a.gap ++ '=' :: a.lead)).length

/-- The text of what a strategy applies to, found in the text of an expression. -/
def Hcl.Expr.selectedText (e : Expr) (stretch : List Char) : List Char :=
  match e with
  | .call [function] [arg] ending closing =>
    if (Strategy.ofFunction? function.item).isSome then
      let inside := stretch.drop (function.item.toList ++ (function.after ++ '(' :: arg.before)).length
      inside.take (inside.length - (arg.after ++ (ending.chars ++ (closing ++ [')']))).length)
    else stretch
  | _ => stretch

theorem Hcl.Attribute.StandsIn.valueText_eq {cs front stretch back : List Char} {a : Attribute}
    (h : a.StandsIn cs front stretch back) : a.valueText cs = stretch := by
  have hsplit : cs = front ++ ((a.name.toList ++ (a.gap ++ '=' :: a.lead) ++ stretch) ++ back) := by
    rw [h.text]
    simp
  have hspan : a.span = some ⟨byteSize front, byteSize front +
      byteSize (a.name.toList ++ (a.gap ++ '=' :: a.lead) ++ stretch)⟩ := by
    rw [h.span, hsplit, byteSize_append, byteSize_append, ← Nat.add_assoc, Nat.add_sub_cancel]
  rw [valueText, hspan, Option.getD_some, hsplit, Span.text_append, List.drop_left]

theorem Hcl.Expr.Selects.selectedText_eq {e x : Expr} {stretch source : List Char} {s : Strategy}
    (h : e.Selects stretch s x source) : e.selectedText stretch = source := by
  cases h with
  | whole stretch h =>
    unfold selectedText
    split
    · next function arg ending closing =>
      refine if_neg fun hsome => ?_
      obtain ⟨s, hs⟩ := Option.isSome_iff_exists.1 hsome
      rw [Overlay.strategyOf, hs] at h
      -- a call is more than its argument
      have hsize := congrArg (fun found : Strategy × Expr => sizeOf found.2) h
      obtain ⟨before, item, after⟩ := arg
      simp only [call.sizeOf_spec, List.cons.sizeOf_spec, Padded.mk.sizeOf_spec] at hsize
      omega
    · rfl
  | argument function arg ending closing source h =>
    rw [selectedText, h, Option.isSome_some, if_pos rfl]
    have hinside : (function.item.toList ++ (function.after ++ '(' :: (arg.before ++ (source ++
        (arg.after ++ (ending.chars ++ (closing ++ [')']))))))).drop
          (function.item.toList ++ (function.after ++ '(' :: arg.before)).length =
        source ++ (arg.after ++ (ending.chars ++ (closing ++ [')']))) := by
      rw [show ∀ w : List Char, function.item.toList ++ (function.after ++ '(' :: (arg.before ++ w)) =
        function.item.toList ++ (function.after ++ '(' :: arg.before) ++ w from fun w => by simp]
      exact List.drop_left
    dsimp only
    rw [hinside, List.length_append, Nat.add_sub_cancel, List.take_left]

/-! ## Reading it alone -/

/-- Behind a value the text goes on with no name and no number. -/
theorem Hcl.BehindValue.calm {y : List Char} (h : BehindValue y) : Calm y := by
  cases h with
  | @intro t left htails hends =>
    refine .of_trivia htails ?_
    rcases hends with (rfl | hline) | hbrace
    · exact .nil
    · rcases startsLine_cases hline with ⟨more, rfl⟩ | ⟨more, rfl⟩
      · exact .of_opensTrivia (by decide) _
      · exact .of_opensTrivia (by decide) _
    · cases left with
      | nil => cases hbrace
      | cons c left =>
        cases hbrace
        refine ⟨fun c hc => ?_, nofun, nofun⟩
        cases hc
        decide

namespace Hcl.Reader

/-- **What an attribute selects is read alone**: on its own the text of it is no other expression. -/
theorem exists_selects {e : Expr} {stretch back : List Char} (hback : Calm back)
    (h : Reader.expr .line (stretch ++ back) = .ok (e, back)) :
    ∃ s x source, e.Selects stretch s x source ∧
      (Filled source → ∀ e', Expr.read? source = some e' → e' = x) := by
  rcases Expr.strategyOf_cases e with ⟨s, x, ending, hcalls⟩ | hwhole
  · obtain ⟨before, behind, lead, trail, closing⟩ := hcalls
    obtain ⟨n, source, after, rfl, -, htext, harg, hcalm⟩ := expr_of_call h
    have hstretch : stretch = s.name.toList ++ (behind ++ '(' :: (lead ++ (source ++
        (trail ++ (ending.chars ++ (closing ++ [')'])))))) := by
      refine (List.append_left_inj back).mp (htext.trans ?_)
      simp
    rw [hstretch]
    refine ⟨s, x, source, .argument ⟨before, s.name, behind⟩ ⟨lead, x, trail⟩ ending closing source
      (Strategy.ofFunction?_eq_some_iff.2 rfl), fun hfilled e' he' => ?_⟩
    -- the argument may go on over line ends, but what is read on a line is the same expression
    have halone : Reader.expr .inside source = .ok (x, []) :=
      (readable_exprWithin hcalm _ _ .inside).alone (Nat.lt_succ_self _) hfilled harg (.inl rfl)
    exact congrArg Prod.fst (Except.ok.inj ((expr_inside_of_read? he').symm.trans halone))
  · refine ⟨_, _, stretch, .whole stretch hwhole, fun hfilled e' he' => ?_⟩
    exact Option.some.inj (he'.symm.trans (read?_of_expr hback hfilled h))

end Hcl.Reader

/-! ## Patches of an overlay -/

/-- The value of a call is not known. -/
theorem Hcl.Expr.strategyOf_of_evaluate? {e : Expr} {v : Value} (h : e.evaluate? [] = some v) :
    Overlay.strategyOf e = (.replace, e) := by
  rcases e.strategyOf_cases with ⟨s, x, ending, hcalls⟩ | hwhole
  · obtain ⟨before, behind, lead, trail, closing⟩ := hcalls
    cases h
  · exact hwhole

namespace Overlay

variable {text : String} {path : Path} {patches : List Patch} {notices : List Notice}

/-- The patches of an overlay are what its patch blocks say, and all of these are well formed. -/
theorem said_of_read (h : (read text path).run = (.ok patches, notices)) :
    ∃ d, Document.read? text = some d ∧ (∀ b ∈ patchBlocks d, b.WellFormed) ∧
      List.Forall₂ (fun b (p : Patch) => p.SaidBy b) (patchBlocks d) patches := by
  obtain ⟨d, hd⟩ : ∃ d, Document.read? text = some d := by
    obtain ⟨d, u, hd, -⟩ := outcome_bind_eq_ok (show outcome (read text path) [] = _ from h)
    have hread : readDocument text path = .ok d := congrArg Prod.fst hd
    unfold readDocument at hread
    split at hread
    · next d hd => exact ⟨d, hd⟩
    · cases hread
  have hall : (patchBlocks d).mapM (resultOf text path) = .ok patches :=
    (run_read hd).symm.trans (congrArg Prod.fst h)
  have hwell : ∀ b ∈ patchBlocks d, b.WellFormed := by
    intro b hb
    obtain ⟨p, -, hp⟩ := exists_of_mem_forall₂ (mapM_eq_ok_iff.1 hall) b hb
    have hspans := (Document.nameAt_of_block hd (List.mem_of_mem_filter hb)).2
    refine (wellFormed_or_fault fun a ha => (hspans a ha).imp fun span hspan => hspan.1).resolve_right
      fun ⟨span, fault, hfault⟩ => ?_
    rw [resultOf_fault hfault] at hp
    cases hp
  obtain ⟨found, hfound, hsaid⟩ := mapM_resultOf_ok text path hwell
  obtain rfl := Except.ok.inj (hfound.symm.trans hall)
  exact ⟨d, hd, hwell, hsaid⟩

end Overlay

theorem Patch.SaidBy.nodup {b : Block} {p : Patch} (h : p.SaidBy b) : p.attributes.keys.Nodup := by
  rw [h.names, ← Table.keys_ofEntries]
  exact Table.nodup_keys_ofEntries _

/-- A patch sets each attribute of its block as this attribute says, unless it is a source. -/
theorem Patch.SaidBy.find?_attribute {b : Block} {p : Patch} (h : p.SaidBy b)
    (hnodup : (namesOf b.body).Nodup) {a : Attribute} (ha : a ∈ attributesOf b.body)
    (hsource : a.name ≠ Overlay.sourceName) :
    p.attributes.find? a.name = some (Overlay.patchAttribute a.value) := by
  have hkeys : (b.settings.map Prod.fst).Nodup := by
    refine List.Nodup.sublist ((List.filter_sublist ..).map Prod.fst) ?_
    rwa [Block.assignments, List.map_map]
  have hmem : (a.name, a.value) ∈ b.settings :=
    List.mem_filter.2 ⟨List.mem_map.2 ⟨a, ha, rfl⟩, bne_iff_ne.2 hsource⟩
  obtain ⟨front, back, hsplit⟩ := List.append_of_mem hmem
  rw [hsplit, List.map_append, List.map_cons, List.nodup_append] at hkeys
  obtain ⟨-, hback, hfront⟩ := hkeys
  -- no other attribute has this name
  have hnone : ∀ l : List (String × Expr), a.name ∉ l.map Prod.fst →
      l.filter (·.1 == a.name) = [] := fun l hl =>
    List.filter_eq_nil_iff.2 fun e he heq => hl (eq_of_beq heq ▸ List.mem_map_of_mem he)
  rw [h.values, hsplit, List.filter_append, List.filter_cons_of_pos (by exact beq_self_eq_true a.name),
    hnone front fun hmem => hfront _ hmem _ List.mem_cons_self rfl,
    hnone back (List.nodup_cons.1 hback).1]
  rfl

/-! ## The last write -/

/-- What is not data wins over everything. -/
theorem Strategy.combine_unevaluated (s : Strategy) (existing : Option Value) (source : String) :
    s.combine existing (.unevaluated source) = .unevaluated source := by
  cases existing with
  | none => rfl
  | some current =>
    unfold combine
    dsimp only
    split
    · rfl
    · cases s with
      | replace => rfl
      | merge => exact Value.merge_of_not_isObject rfl
      | append => cases current <;> rfl

/-- Files hold an expression as an attribute of a resource. -/
def ModuleFiles.Holds (files : ModuleFiles) (key : ResourceKey) (name : String) (e : Expr) : Prop :=
  ∃ rank handle f b a, Target files key rank handle f b ∧ b.attribute? name = some a ∧ a.value = e

section Runs

variable {files final : ModuleFiles} {key : ResourceKey} {rank : Nat} {handle : BlockHandle}
  {f : ModuleFile} {b : Block}

/-- **A resource after any patches** is still declared by the block that was its target. -/
theorem Target.of_patchAll (h : Target files key rank handle f b) (hfiles : Patched files)
    {patches : List Patch} (hrun : Patching.patchAll files patches = (.ok (), final)) :
    ∃ g c, Target final key rank handle g c ∧
      (Patching.attributesFor files rank handle.rank patches).foldlM f.rewriteBlock? b = some c := by
  obtain ⟨path, hf⟩ := h.file
  obtain ⟨g, c, hg, -, hc, hwritten⟩ := block_patchAll hfiles.indexed hrun hf h.block
  have hbare := (sameButAttributes_of_written hwritten
    (shaped_of_block (hfiles.shaped _ (List.mem_of_getElem? hf)) h.block)).bare
  refine ⟨g, c, ⟨?_, ⟨path, hg⟩, hc, ?_⟩, hwritten⟩
  · rw [← h.located, ← locate_patchAll patches files key, hrun]
  · rw [← h.declares]
    exact resourceKey?_congr (b := c.bare) (c := b.bare) (by rw [hbare]) (by rw [hbare])

/-- What patches write to the target of a resource is what patches for this resource say. -/
theorem Target.mem_attributesFor (h : Target files key rank handle f b) (hfiles : Patched files)
    {patches : List Patch} {attr : String × PatchAttribute}
    (hattr : attr ∈ Patching.attributesFor files rank handle.rank patches) :
    ∃ q ∈ patches, q.key = key ∧ attr ∈ q.attributes := by
  obtain ⟨q, hq, hattr⟩ := List.mem_flatMap.1 hattr
  cases hlocate : (locate files q.key).1 with
  | none =>
    rw [hlocate] at hattr
    cases hattr
  | some found =>
    obtain ⟨rank', handle'⟩ := found
    rw [hlocate] at hattr
    dsimp only at hattr
    split at hattr
    · next hplace =>
      obtain ⟨f', b', htarget⟩ := Target.of_locate hfiles.indexed hlocate
      refine ⟨q, hq, ?_, hattr⟩
      by_contra hne
      exact htarget.place_ne h hne hplace
    · cases hattr

/-- **What is kept is written.** After patches of which the last one that sets an attribute keeps its
expression as text, the attribute holds what this text is read as. -/
theorem holds_of_last (hfiles : Patched files) {front back : List Patch} {p : Patch}
    {name : String} {s : Strategy} {source : String} (hp : p.attributes.keys.Nodup)
    (hset : p.attributes.find? name = some ⟨s, .unevaluated source⟩)
    (hback : ∀ q ∈ back, q.key = p.key → name ∉ q.attributes.keys)
    (hrun : Patching.patchAll files (front ++ p :: back) = (.ok (), final)) :
    ∃ e, final.Holds p.key name e ∧ Expr.read? source.toList = some e := by
  obtain ⟨rank, handle, hlocate⟩ : ∃ rank handle, (locate files p.key).1 = some (rank, handle) := by
    rw [patchAll_append] at hrun
    split at hrun
    · next u mid hfront =>
      obtain ⟨rank, handle, hlocate⟩ := exists_locate_of_patchAll hrun
      refine ⟨rank, handle, ?_⟩
      rw [← hlocate, ← locate_patchAll front files p.key, hfront]
    · cases congrArg Prod.fst hrun
  obtain ⟨f, b, htarget⟩ := Target.of_locate hfiles.indexed hlocate
  obtain ⟨g, c, hfinal, hwritten⟩ := htarget.of_patchAll hfiles hrun
  -- the attribute is the last one of its name among all that are written to the block
  obtain ⟨before, behind, hsplit⟩ := List.append_of_mem (Table.mem_of_find? hset)
  have hattrs : Patching.attributesFor files rank handle.rank (front ++ p :: back) =
      (Patching.attributesFor files rank handle.rank front ++ before) ++
        (name, ⟨s, .unevaluated source⟩) ::
          (behind ++ Patching.attributesFor files rank handle.rank back) := by
    simp [Patching.attributesFor, hlocate, hsplit]
  have hlast : name ∉
      (behind ++ Patching.attributesFor files rank handle.rank back).map Prod.fst := by
    rw [List.map_append, List.mem_append]
    rintro (hmem | hmem)
    · rw [Table.keys, hsplit, List.map_append, List.map_cons, List.nodup_append] at hp
      exact (List.nodup_cons.1 hp.2.1).1 hmem
    · obtain ⟨attr, hattr, rfl⟩ := List.mem_map.1 hmem
      obtain ⟨q, hq, hkey, hmem⟩ := htarget.mem_attributesFor hfiles hattr
      exact hback q hq hkey (List.mem_map_of_mem hmem)
  rw [hattrs] at hwritten
  obtain ⟨d, hd, -⟩ := Option.bind_eq_some_iff.1 ((List.foldlM_append ..).symm.trans hwritten)
  obtain ⟨e, lead, trail, he, hattribute⟩ := attribute?_of_written hlast hd hwritten
  rw [ModuleFile.newValue, Strategy.combine_unevaluated] at he
  exact ⟨e, ⟨rank, handle, g, c, _, hfinal, hattribute, rfl⟩, he⟩

end Runs

/-! ## Stability -/

/-- **Expressions without a value stay as they were written.** Every attribute of a patch block of an
overlay applies a strategy to an expression that stands in the text of the overlay. If it has no value
on its own, the patch keeps it as its text, whatever the strategy, and after any patches of any files
of which this one is the last to set the attribute, the attribute holds what this text is read as. If
the text is the one that stands in the overlay, without a heredoc that ends in its first line, this is
the expression itself: it has the same text, and it is kept as this text again. -/
theorem kept_text_is_stable {text : String} {path : Path} {patches : List Patch}
    {notices : List Notice} (hread : (Overlay.read text path).run = (.ok patches, notices)) :
    ∃ d, Document.read? text = some d ∧
      List.Forall₂ (fun b p => ∀ a ∈ attributesOf b.body,
        ∃ s x source, a.Applies text.toList s x source ∧ (x.evaluate? [] = none →
          p.attributes.find? a.name = some ⟨s, .unevaluated x.text⟩ ∧
          ∀ (files final : ModuleFiles) (front back : List Patch) (notices' : List Notice),
            Patched files → (∀ q ∈ back, q.key = p.key → a.name ∉ q.attributes.keys) →
            (applyPatches (front ++ p :: back)).run files = (.ok (), final, notices') →
            ∃ e, final.Holds p.key a.name e ∧ Expr.read? x.print = some e ∧
              (x.print = source → Filled source →
                e.print = source ∧ e.value = .unevaluated (String.ofList source))))
        (Overlay.patchBlocks d) patches := by
  obtain ⟨d, hd, hwell, hsaid⟩ := Overlay.said_of_read hread
  refine ⟨d, hd, ((List.forall₂_and_left _ _).2 ⟨fun b hb => hb, hsaid⟩).imp ?_⟩
  intro b p ⟨hb, hp⟩ a ha
  have hblock := List.mem_of_mem_filter hb
  obtain ⟨front, stretch, back, hplace⟩ := (Document.anchored_of_block hd hblock).2 a ha
  obtain ⟨s, x, source, hselects, halone⟩ := exists_selects hplace.behind.calm hplace.value
  refine ⟨s, x, source, ⟨front, stretch, back, hplace, hselects⟩, fun hnone => ?_⟩
  -- a source has a value
  have hname : a.name ≠ Overlay.sourceName := by
    intro hname
    obtain ⟨v, hv⟩ := (hwell b hb).sources a.value (List.mem_map.2 ⟨(a.name, a.value),
      List.mem_filter.2 ⟨List.mem_map.2 ⟨a, ha, rfl⟩, beq_iff_eq.2 hname⟩, rfl⟩)
    have hwhole := Expr.strategyOf_of_evaluate? hv
    rw [hselects.strategyOf_eq] at hwhole
    obtain ⟨-, rfl⟩ := Prod.mk.inj hwhole
    rw [hnone] at hv
    cases hv
  obtain ⟨i, hi⟩ := List.mem_iff_getElem?.1 hblock
  have hnames := namesOf_nodup (shaped_of_block (Document.shaped_of_read? hd) hi)
  have hset : p.attributes.find? a.name = some ⟨s, .unevaluated x.text⟩ := by
    rw [hp.find?_attribute hnames ha hname, Overlay.patchAttribute, hselects.strategyOf_eq]
    exact congrArg (fun v => some (PatchAttribute.mk s v)) (Expr.value_of_evaluate?_eq_none hnone)
  refine ⟨hset, fun files final front back notices' hfiles hback hrun => ?_⟩
  obtain ⟨e, hholds, he⟩ :=
    holds_of_last hfiles hp.nodup hset hback (Patching.patchAll_of_run hrun)
  rw [Expr.text, String.toList_ofList] at he
  refine ⟨e, hholds, he, fun hprint hfilled => ?_⟩
  obtain rfl := halone hfilled e (hprint ▸ he)
  rw [Expr.value_of_evaluate?_eq_none hnone, Expr.text, hprint]
  exact ⟨rfl, rfl⟩

/-- An argument that goes on over line ends is appended to a list, and stays the call that it is. -/
theorem kept_text_is_stable_call :
    let overlay := "patch k w \x7b\n  y = append(\n    g(<<E\n  $\x7bu\x7d\nE\n    ),\n  ) # d\n\x7d\n"
    let kept := "g(<<E\n  $\x7bu\x7d\nE\n    )"
    let patches := (Overlay.read overlay ⟨"o"⟩).run.1.toOption.getD []
    let files := (readFiles [(⟨"main.tf"⟩, "resource k w \x7b\n  y = [1] # c\n\x7d\n")]).run.1.toOption.getD []
    let final := ((applyPatches patches).run files).2.1
    final.map (·.2.text) = ["resource k w \x7b\n  y = " ++ kept ++ " # c\n\x7d\n"] ∧
      ∀ p ∈ patches, ∃ e, final.Holds p.key "y" e ∧ e.print = kept.toList ∧
        e.value = .unevaluated kept := by
  intro overlay kept patches files final
  obtain ⟨hoverlay, hone, hfiles, hrun, htext, hchecks⟩ :
      (Overlay.read overlay ⟨"o"⟩).run.1.isOk = true ∧ patches.length = 1 ∧
      (readFiles [(⟨"main.tf"⟩, "resource k w \x7b\n  y = [1] # c\n\x7d\n")]).run.1.isOk = true ∧
      ((applyPatches patches).run files).1.isOk = true ∧
      final.map (·.2.text) = ["resource k w \x7b\n  y = " ++ kept ++ " # c\n\x7d\n"] ∧
      ∀ d ∈ Document.read? overlay, ∀ b ∈ Overlay.patchBlocks d, ∃ a ∈ attributesOf b.body,
        a.name = "y" ∧ (Overlay.strategyOf a.value).2.print = kept.toList ∧
          a.value.selectedText (a.valueText overlay.toList) = kept.toList ∧
          ((Overlay.strategyOf a.value).2.evaluate? []).isNone = true ∧ Filled kept.toList := by
    decide +kernel
  refine ⟨htext, fun p hp => ?_⟩
  obtain ⟨q, hq⟩ := List.length_eq_one_iff.1 hone
  obtain rfl : p = q := List.mem_singleton.1 (hq ▸ hp)
  obtain ⟨d, hd, hkept⟩ := kept_text_is_stable (eq_ok_of_isOk (d := []) hoverlay)
  obtain ⟨b, hb, hall⟩ := exists_of_mem_forall₂ hkept.flip p hp
  obtain ⟨a, ha, hname, hprint, hselected, hnone, hfilled⟩ := hchecks d hd b hb
  obtain ⟨s, x, source, happlies, hstable⟩ := hall a ha
  obtain ⟨front, stretch, back, hplace, hselects⟩ := happlies
  rw [hselects.strategyOf_eq] at hprint hnone
  rw [hplace.valueText_eq, hselects.selectedText_eq] at hselected
  obtain ⟨-, hwritten⟩ := hstable (Option.isNone_iff_eq_none.1 hnone)
  have hpatch : (applyPatches ([] ++ p :: [])).run files =
      (.ok (), final, ((applyPatches patches).run files).2.2) := by
    rw [List.nil_append, ← hq]
    exact patchingRun_eq_of_isOk hrun
  obtain ⟨e, hholds, -, hsame⟩ :=
    hwritten files final [] [] _ (.read (eq_ok_of_isOk hfiles)) (by simp) hpatch
  obtain ⟨htexts, hvalue⟩ := hsame (hprint.trans hselected.symm) (hselected ▸ hfilled)
  rw [hselected] at htexts hvalue
  rw [String.ofList_toList] at hvalue
  exact ⟨e, hname ▸ hholds, htexts, hvalue⟩

end HclOverlay
