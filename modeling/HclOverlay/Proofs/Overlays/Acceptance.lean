import HclOverlay.Overlay.Patch
import HclOverlay.Proofs.Documents.Names
import HclOverlay.Proofs.Outcome
import HclOverlay.Proofs.Tables

/-!
# Which overlays are accepted

An overlay is read patch block by patch block, and a patch block attribute by attribute. What a
patch block says depends on its labels and its attributes alone, and so does whether it can be read.

* `Block.assignments` — the names and expressions of the attributes of a block.
* `Block.WellFormed` — two labels that are not empty, and sources that are strings.
* `Patch.SaidBy` — the patch that a well-formed block says; `SaidBy.unique`.
* `PatchFault` — what is wrong with a block, and where: the labels come before the attributes.
* `resultOf_wellFormed`, `resultOf_fault` — reading one block, by its attributes in order.
* `read_overlay_blockwise` — **which overlays are accepted**, as what, and how the others fail.
-/

namespace HclOverlay

open Hcl Source

/-! ## What a block says -/

namespace Hcl.Block

/-- The attributes of a block by name, in order. -/
def assignments (b : Block) : List (String × Expr) :=
  (attributesOf b.body).map fun a => (a.name, a.value)

/-- The expressions that select modules, in order. -/
def sources (b : Block) : List Expr :=
  (b.assignments.filter (·.1 == Overlay.sourceName)).map Prod.snd

/-- The other attributes, in order. -/
def settings (b : Block) : List (String × Expr) :=
  b.assignments.filter (·.1 != Overlay.sourceName)

/-- A block has exactly two labels, and neither is empty. -/
def HasTarget (b : Block) : Prop :=
  ∃ type name, b.labelTexts = [type, name] ∧ type ≠ "" ∧ name ≠ ""

/-- A patch block that can be read. -/
structure WellFormed (b : Block) : Prop where
  target : b.HasTarget
  sources : ∀ e ∈ b.sources, ∃ s, e.evaluate? [] = some (.string s)

/-- Blocks that differ at most in nested blocks, trivia and places. -/
def SaysSame (b c : Block) : Prop :=
  b.labelTexts = c.labelTexts ∧ b.assignments = c.assignments

end Hcl.Block

/-- The patch that a block says. -/
structure Patch.SaidBy (b : Block) (p : Patch) : Prop where
  labels : b.labelTexts = [p.type, p.name]
  /-- the last source counts -/
  source : p.source.map Value.string = b.sources.getLast?.map Expr.value
  /-- attributes stand in the order in which they first appear -/
  names : p.attributes.keys = (b.settings.map Prod.fst).eraseDups
  unsourced : Overlay.sourceName ∉ p.attributes.keys
  /-- of several attributes of one name the last one counts -/
  values : ∀ name, p.attributes.find? name =
    (b.settings.filter (·.1 == name)).getLast?.map fun s => Overlay.patchAttribute s.2

/-- What is wrong with a block, and where. -/
inductive PatchFault (b : Block) : Span → ParseFault → Prop
  | labels (h : ¬ b.HasTarget) : PatchFault b b.span (.patchLabels b.labels.length)
  /-- the sources in front of this one are strings -/
  | source (h : b.HasTarget) {front back : List Attribute} {a : Attribute} {span : Span}
      (hsplit : attributesOf b.body = front ++ a :: back) (hname : a.name = Overlay.sourceName)
      (hfront : ∀ c ∈ front, c.name = Overlay.sourceName →
        ∃ s, c.value.evaluate? [] = some (.string s))
      (hvalue : ∀ s, a.value.evaluate? [] ≠ some (.string s)) (hspan : a.span = some span) :
      PatchFault b span (.sourceFilter ("expected a string, found " ++ a.value.value.typeName))

/-- Expressions that are kept as text are no strings. -/
theorem Hcl.Expr.value_eq_string_iff {e : Expr} {s : String} :
    e.value = .string s ↔ e.evaluate? [] = some (.string s) := by
  cases h : e.evaluate? [] with
  | none => simp [Expr.value_of_evaluate?_eq_none h]
  | some v => simp [Expr.value_of_evaluate?_eq_some h]

/-- A block says one thing only, and one that says the same says it too. -/
theorem Patch.SaidBy.unique {b c : Block} {p q : Patch} (hp : p.SaidBy b) (hq : q.SaidBy c)
    (h : b.SaysSame c) : p = q := by
  have hsources : b.sources = c.sources := by rw [Block.sources, h.2, Block.sources]
  have hsettings : b.settings = c.settings := by rw [Block.settings, h.2, Block.settings]
  have hlabels : [p.type, p.name] = [q.type, q.name] := by rw [← hp.labels, h.1, hq.labels]
  have hsource : p.source = q.source := by
    refine Option.map_injective (f := Value.string) (fun s t hst => by simpa using hst) ?_
    rw [hp.source, hsources, hq.source]
  have hattributes : p.attributes = q.attributes := by
    refine Table.ext ?_ ?_ fun name => ?_
    · rw [hp.names, ← Table.keys_ofEntries]
      exact Table.nodup_keys_ofEntries _
    · rw [hp.names, hsettings, hq.names]
    · rw [hp.values, hsettings, hq.values]
  obtain ⟨type, name, source, attributes⟩ := p
  obtain ⟨type', name', source', attributes'⟩ := q
  simp only [List.cons.injEq, and_true] at hlabels
  obtain ⟨rfl, rfl⟩ := hlabels
  cases hsource
  cases hattributes
  rfl

namespace Overlay

variable {text : String} {path : Path}

/-! ## Attribute by attribute -/

/-- Adds what one attribute says to a patch. -/
def addAttribute (text : String) (path : Path) (p : Patch) (a : Attribute) :
    Except Failure Patch :=
  if a.name = sourceName then (sourceOf text path a).map fun s => { p with source := some s }
  else .ok { p with attributes := p.attributes.insert a.name (patchAttribute a.value) }

/-- Blocks in a patch add nothing. -/
def addInner (text : String) (path : Path) (p : Patch) : Structure → Except Failure Patch
  | .attr a => addAttribute text path p a
  | .block _ => .ok p

theorem outcome_note (n : Notice) (s : List Notice) : outcome (note n) s = (.ok (), s ++ [n]) := rfl

theorem outcome_addStructure (p : Patch) (t : Structure) (s : List Notice) :
    (outcome (addStructure text path p t) s).1 = addInner text path p t := by
  cases t with
  | block b =>
    rw [addStructure, outcome_bind, outcome_note]
    rfl
  | attr a =>
    rw [addStructure, addInner, addAttribute]
    split
    · rw [outcome_bind, outcome_lift]
      cases sourceOf text path a <;> rfl
    · dsimp only
      split <;> rfl

theorem foldlM_addInner (p : Patch) (body : List Structure) :
    body.foldlM (addInner text path) p = (attributesOf body).foldlM (addAttribute text path) p := by
  induction body generalizing p with
  | nil => rfl
  | cons t body ih =>
    cases t with
    | block b => exact ih p
    | attr a =>
      rw [attributesOf_attr, List.foldlM_cons, List.foldlM_cons]
      exact congrArg _ (funext ih)

theorem sourceOf_of_string {a : Attribute} {s : String}
    (h : a.value.evaluate? [] = some (.string s)) : sourceOf text path a = .ok s := by
  rw [sourceOf, Expr.value_eq_string_iff.2 h]

theorem sourceOf_of_not_string {a : Attribute}
    (h : ∀ s, a.value.evaluate? [] ≠ some (.string s)) :
    sourceOf text path a = .error (.parse ⟨path, a.span.map fun span => .ofOffset text span.start,
      .sourceFilter ("expected a string, found " ++ a.value.value.typeName)⟩) := by
  unfold sourceOf
  split
  · next s hs => exact absurd (Expr.value_eq_string_iff.1 hs) (h s)
  · rfl

/-- **Attributes in order**: if all sources are strings, the last one counts, and the others are set
one after the other. -/
theorem foldlM_addAttribute_ok (text : String) (path : Path) {as : List Attribute}
    (h : ∀ a ∈ as, a.name = sourceName → ∃ s, a.value.evaluate? [] = some (.string s))
    (p : Patch) :
    ∃ source, as.foldlM (addAttribute text path) p = .ok
        { p with
          source := source
          attributes := (as.filter (·.name != sourceName)).foldl
            (fun t a => t.insert a.name (patchAttribute a.value)) p.attributes } ∧
      source.map Value.string = ((as.filter (·.name == sourceName)).getLast?.map (·.value.value)).or
        (p.source.map Value.string) := by
  induction as generalizing p with
  | nil => exact ⟨p.source, rfl, rfl⟩
  | cons a as ih =>
    obtain ⟨ha, has⟩ := List.forall_mem_cons.1 h
    rw [List.foldlM_cons, addAttribute]
    by_cases hname : a.name = sourceName
    · obtain ⟨s, hs⟩ := ha hname
      rw [if_pos hname, sourceOf_of_string hs]
      obtain ⟨source, hfold, hsource⟩ := ih has { p with source := some s }
      refine ⟨source, ?_, ?_⟩
      · refine hfold.trans ?_
        simp [hname]
      · rw [hsource, List.filter_cons_of_pos (by simpa using hname), List.getLast?_cons]
        cases (as.filter (·.name == sourceName)).getLast? with
        | none => simp [Expr.value_eq_string_iff.2 hs]
        | some b => simp
    · rw [if_neg hname]
      obtain ⟨source, hfold, hsource⟩ := ih has
        { p with attributes := p.attributes.insert a.name (patchAttribute a.value) }
      refine ⟨source, ?_, ?_⟩
      · refine hfold.trans ?_
        simp [hname]
      · simpa [hname] using hsource

/-- The first source that is no string ends it. -/
theorem foldlM_addAttribute_error {front back : List Attribute} {a : Attribute} {span : Span}
    (hname : a.name = sourceName)
    (hfront : ∀ c ∈ front, c.name = sourceName → ∃ s, c.value.evaluate? [] = some (.string s))
    (hvalue : ∀ s, a.value.evaluate? [] ≠ some (.string s)) (hspan : a.span = some span)
    (p : Patch) : (front ++ a :: back).foldlM (addAttribute text path) p =
      .error (.parse ⟨path, some (.ofOffset text span.start),
        .sourceFilter ("expected a string, found " ++ a.value.value.typeName)⟩) := by
  obtain ⟨source, hfold, -⟩ := foldlM_addAttribute_ok text path hfront p
  rw [List.foldlM_append, hfold]
  change List.foldlM (addAttribute text path) _ (a :: back) = _
  rw [List.foldlM_cons, addAttribute, if_pos hname, sourceOf_of_not_string hvalue, hspan]
  rfl

/-! ## Block by block -/

/-- How reading a patch block ends. -/
def resultOf (text : String) (path : Path) (b : Block) : Except Failure Patch :=
  match targetOf? b.labelTexts with
  | none =>
    .error (.parse ⟨path, some (.ofOffset text b.span.start), .patchLabels b.labels.length⟩)
  | some (type, name) =>
    (attributesOf b.body).foldlM (addAttribute text path) ⟨type, name, none, []⟩

theorem outcome_patchOf (b : Block) (s : List Notice) :
    (outcome (patchOf text path b) s).1 = resultOf text path b := by
  rw [patchOf, resultOf]
  rcases targetOf? b.labelTexts with _ | ⟨type, name⟩
  · rfl
  · dsimp only
    rw [outcome_foldlM_fst outcome_addStructure, foldlM_addInner]

theorem targetOf?_eq_some_iff {labels : List String} {type name : String} :
    targetOf? labels = some (type, name) ↔ labels = [type, name] ∧ type ≠ "" ∧ name ≠ "" := by
  unfold targetOf?
  split
  · next type' name' =>
    simp only [Option.ite_none_left_eq_some, Bool.or_eq_true, String.isEmpty_iff, not_or,
      Option.some.injEq, Prod.mk.injEq, List.cons.injEq, and_true]
    constructor
    · rintro ⟨hne, rfl, rfl⟩
      exact ⟨⟨rfl, rfl⟩, hne⟩
    · rintro ⟨⟨rfl, rfl⟩, hne⟩
      exact ⟨hne, rfl, rfl⟩
  · next hother =>
    refine iff_of_false nofun ?_
    rintro ⟨rfl, -⟩
    exact hother type name rfl

theorem targetOf?_eq_none {b : Block} (h : ¬ b.HasTarget) : targetOf? b.labelTexts = none := by
  cases htarget : targetOf? b.labelTexts with
  | none => rfl
  | some target => exact absurd ⟨_, _, targetOf?_eq_some_iff.1 htarget⟩ h

/-- **A well-formed block** is read as the patch that it says. -/
theorem resultOf_wellFormed (text : String) (path : Path) {b : Block} (h : b.WellFormed) :
    ∃ p, resultOf text path b = .ok p ∧ p.SaidBy b := by
  obtain ⟨type, name, hlabels, htype, hname⟩ := h.target
  have hstrings : ∀ a ∈ attributesOf b.body, a.name = sourceName →
      ∃ s, a.value.evaluate? [] = some (.string s) := by
    intro a ha hsource
    refine h.sources a.value (List.mem_map.2 ⟨(a.name, a.value), ?_, rfl⟩)
    exact List.mem_filter.2 ⟨List.mem_map.2 ⟨a, ha, rfl⟩, beq_iff_eq.2 hsource⟩
  obtain ⟨source, hfold, hsource⟩ := foldlM_addAttribute_ok text path hstrings
    ⟨type, name, none, []⟩
  -- setting the attributes one after the other is making a table of them
  let table := Table.ofEntries (b.settings.map fun s => (s.1, patchAttribute s.2))
  have htable : ((attributesOf b.body).filter (·.name != sourceName)).foldl
      (fun t a => Table.insert t a.name (patchAttribute a.value)) [] = table := by
    simp only [table, Block.settings, Block.assignments, List.filter_map, List.map_map,
      Table.ofEntries, List.foldl_map]
    rfl
  rw [htable] at hfold
  have hnames : table.keys = (b.settings.map Prod.fst).eraseDups := by
    rw [Table.keys_ofEntries, List.map_map]
    rfl
  have hvalues : ∀ key, table.find? key =
      (b.settings.filter (·.1 == key)).getLast?.map fun s => patchAttribute s.2 := by
    intro key
    rw [Table.find?_ofEntries, List.filter_map, List.getLast?_map, Option.map_map]
    rfl
  refine ⟨⟨type, name, source, table⟩, ?_, hlabels, ?_, hnames, fun hmem => ?_, hvalues⟩
  · rw [resultOf, targetOf?_eq_some_iff.2 ⟨hlabels, htype, hname⟩]
    exact hfold
  · rw [hsource, Option.map_none, Option.or_none, Block.sources, Block.assignments,
      List.filter_map, List.map_map, List.getLast?_map, Option.map_map]
    rfl
  · change sourceName ∈ table.keys at hmem
    rw [hnames, List.mem_eraseDups] at hmem
    simp [Block.settings] at hmem

/-- **A faulty block** fails as its fault says. -/
theorem resultOf_fault {b : Block} {span : Span} {fault : ParseFault}
    (h : PatchFault b span fault) :
    resultOf text path b = .error (.parse ⟨path, some (.ofOffset text span.start), fault⟩) := by
  cases h with
  | labels h => rw [resultOf, targetOf?_eq_none h]
  | source h hsplit hname hfront hvalue hspan =>
    obtain ⟨type, name, htarget⟩ := h
    rw [resultOf, targetOf?_eq_some_iff.2 htarget, hsplit]
    exact foldlM_addAttribute_error hname hfront hvalue hspan _

/-- A block is well formed or has a fault. -/
theorem wellFormed_or_fault {b : Block}
    (hspans : ∀ a ∈ attributesOf b.body, ∃ span, a.span = some span) :
    b.WellFormed ∨ ∃ span fault, PatchFault b span fault := by
  classical
  by_cases htarget : b.HasTarget
  · let bad : Attribute → Bool := fun a =>
      decide (a.name = sourceName ∧ ∀ s, a.value.evaluate? [] ≠ some (.string s))
    cases hfind : (attributesOf b.body).find? bad with
    | none =>
      refine .inl ⟨htarget, fun e he => ?_⟩
      obtain ⟨⟨name, value⟩, hmem, rfl⟩ := List.mem_map.1 he
      obtain ⟨hmem, hname⟩ := List.mem_filter.1 hmem
      obtain ⟨a, ha, heq⟩ := List.mem_map.1 hmem
      cases heq
      have hgood := List.find?_eq_none.1 hfind a ha
      simp only [bad, decide_eq_true_eq, not_and, not_forall, not_not] at hgood
      exact hgood (beq_iff_eq.1 hname)
    | some a =>
      obtain ⟨hbad, front, back, hsplit, hfront⟩ := List.find?_eq_some_iff_append.1 hfind
      obtain ⟨hname, hvalue⟩ := of_decide_eq_true hbad
      obtain ⟨span, hspan⟩ := hspans a (by rw [hsplit]; simp)
      refine .inr ⟨span, _, .source htarget hsplit hname (fun c hc hsource => ?_) hvalue hspan⟩
      simpa [bad, hsource] using hfront c hc
  · exact .inr ⟨b.span, _, .labels htarget⟩

/-! ## The overlay -/

/-- The patch blocks of a document, in order. -/
def patchBlocks (d : Document) : List Block := d.blocks.filter (·.kind == patchKind)

theorem run_read {d : Document} (h : Document.read? text = some d) :
    (read text path).run.1 = (patchBlocks d).mapM (resultOf text path) := by
  have hdocument : readDocument text path = .ok d := by rw [readDocument, h]
  change (outcome (read text path) []).1 = _
  rw [read, outcome_bind, hdocument, outcome_lift]
  exact outcome_mapM_fst outcome_patchOf _ _

theorem wellFormed_congr {b c : Block} (h : b.SaysSame c) (hb : b.WellFormed) : c.WellFormed := by
  have hsources : b.sources = c.sources := by rw [Block.sources, h.2, Block.sources]
  refine ⟨?_, hsources ▸ hb.sources⟩
  obtain ⟨type, name, hlabels, hne⟩ := hb.target
  exact ⟨type, name, h.1 ▸ hlabels, hne⟩

/-- Blocks that are all well formed are read as the patches that they say. -/
theorem mapM_resultOf_ok (text : String) (path : Path) {blocks : List Block}
    (h : ∀ b ∈ blocks, b.WellFormed) :
    ∃ patches, blocks.mapM (resultOf text path) = .ok patches ∧
      List.Forall₂ (fun b (p : Patch) => p.SaidBy b) blocks patches := by
  induction blocks with
  | nil => exact ⟨[], rfl, .nil⟩
  | cons b blocks ih =>
    obtain ⟨hb, hblocks⟩ := List.forall_mem_cons.1 h
    obtain ⟨p, hp, hsaid⟩ := resultOf_wellFormed text path hb
    obtain ⟨patches, hpatches, hall⟩ := ih hblocks
    refine ⟨p :: patches, ?_, .cons hsaid hall⟩
    rw [mapM_eq_ok_iff] at hpatches ⊢
    exact .cons hp hpatches

theorem forall₂_unique {blocks others : List Block} (h : List.Forall₂ Block.SaysSame blocks others)
    {patches found : List Patch}
    (hp : List.Forall₂ (fun b (p : Patch) => p.SaidBy b) blocks patches)
    (hf : List.Forall₂ (fun b (p : Patch) => p.SaidBy b) others found) : found = patches := by
  induction h generalizing patches found with
  | nil =>
    cases hp
    cases hf
    rfl
  | cons hsame _ ih =>
    cases hp with
    | cons hsaid hp =>
      cases hf with
      | cons hsaid' hf => rw [hsaid.unique hsaid' hsame, ih hp hf]

end Overlay

open Overlay

/-- **Overlays are read block by block.** Take a text that is a document. It is accepted as an
overlay if and only if all its patch blocks are well formed. Then the patches are those that the
blocks say, in order; any other text whose patch blocks have the same labels and attributes gives
the same patches. Otherwise the failure is the fault of the first block that has one, at the place
of this fault; and places are those of names in the text. -/
theorem read_overlay_blockwise {text : String} {d : Document} (h : Document.read? text = some d)
    (path : Path) :
    let blocks := patchBlocks d
    let result := (Overlay.read text path).run.1
    ((∃ patches, result = .ok patches) ↔ ∀ b ∈ blocks, b.WellFormed) ∧
      (∀ patches, result = .ok patches →
        List.Forall₂ (fun b (p : Patch) => p.SaidBy b) blocks patches ∧
        ∀ other e otherPath, Document.read? other = some e →
          List.Forall₂ Block.SaysSame blocks (patchBlocks e) →
          (Overlay.read other otherPath).run.1 = .ok patches) ∧
      (∀ failure, result = .error failure ↔
        ∃ front b back span fault, blocks = front ++ b :: back ∧ (∀ c ∈ front, c.WellFormed) ∧
          PatchFault b span fault ∧
          failure = .parse ⟨path, some (.ofOffset text span.start), fault⟩) ∧
      ∀ b ∈ blocks, NameAt text.toList b.span.start patchKind ∧
        ∀ a ∈ attributesOf b.body,
          ∃ span, a.span = some span ∧ NameAt text.toList span.start a.name := by
  intro blocks result
  have hresult : result = blocks.mapM (resultOf text path) := run_read h
  have hplaces : ∀ b ∈ blocks, NameAt text.toList b.span.start patchKind ∧
      ∀ a ∈ attributesOf b.body,
        ∃ span, a.span = some span ∧ NameAt text.toList span.start a.name := by
    intro b hb
    obtain ⟨hb, hkind⟩ := List.mem_filter.1 hb
    have hnames := Document.nameAt_of_block h hb
    rwa [eq_of_beq hkind] at hnames
  have hcases : ∀ b ∈ blocks, b.WellFormed ∨ ∃ span fault, PatchFault b span fault :=
    fun b hb => wellFormed_or_fault fun a ha =>
      ((hplaces b hb).2 a ha).imp fun span hspan => hspan.1
  -- a block that is read is well formed, since a faulty one fails
  have hwell : ∀ b ∈ blocks, ∀ p, resultOf text path b = .ok p → b.WellFormed := by
    intro b hb p hp
    refine (hcases b hb).resolve_right ?_
    rintro ⟨span, fault, hfault⟩
    rw [resultOf_fault hfault] at hp
    cases hp
  have hall : ∀ patches, result = .ok patches → ∀ b ∈ blocks, b.WellFormed := by
    intro patches hok b hb
    rw [hresult, mapM_eq_ok_iff] at hok
    obtain ⟨p, -, hp⟩ := exists_of_mem_forall₂ hok b hb
    exact hwell b hb p hp
  refine ⟨⟨fun ⟨patches, hok⟩ => hall patches hok, fun hgood => ?_⟩, fun patches hok => ?_,
    fun failure => ⟨fun herror => ?_, ?_⟩, hplaces⟩
  · obtain ⟨patches, hok, -⟩ := mapM_resultOf_ok text path hgood
    exact ⟨patches, hresult.trans hok⟩
  · have hgood := hall patches hok
    obtain ⟨found, hfound, hsaid⟩ := mapM_resultOf_ok text path hgood
    obtain rfl : patches = found := Except.ok.inj (hok.symm.trans (hresult.trans hfound))
    refine ⟨hsaid, fun other e otherPath he hsame => ?_⟩
    have hothers : ∀ c ∈ patchBlocks e, c.WellFormed := by
      intro c hc
      obtain ⟨b, hb, hbc⟩ := exists_of_mem_forall₂ hsame.flip c hc
      exact wellFormed_congr hbc (hgood b hb)
    obtain ⟨found, hfound, hsaid'⟩ := mapM_resultOf_ok other otherPath hothers
    rw [run_read he, hfound, forall₂_unique hsame hsaid hsaid']
  · rw [hresult, mapM_eq_error_iff] at herror
    obtain ⟨front, b, back, hsplit, hfront, hb⟩ := herror
    have hmem : ∀ c ∈ front ++ [b], c ∈ blocks := by
      intro c hc
      rw [hsplit]
      rw [List.append_cons]
      exact List.mem_append_left back hc
    rcases hcases b (hmem b (by simp)) with hgood | ⟨span, fault, hfault⟩
    · obtain ⟨p, hp, -⟩ := resultOf_wellFormed text path hgood
      rw [hp] at hb
      cases hb
    · rw [resultOf_fault hfault] at hb
      cases hb
      refine ⟨front, b, back, span, fault, hsplit, fun c hc => ?_, hfault, rfl⟩
      obtain ⟨p, hp⟩ := hfront c hc
      exact hwell c (hmem c (by simp [hc])) p hp
  · rintro ⟨front, b, back, span, fault, hsplit, hfront, hfault, rfl⟩
    rw [hresult, mapM_eq_error_iff]
    refine ⟨front, b, back, hsplit, fun c hc => ?_, resultOf_fault hfault⟩
    obtain ⟨p, hp, -⟩ := resultOf_wellFormed text path (hfront c hc)
    exact ⟨p, hp⟩

/-- An overlay between other structures, and one with two faulty blocks: the first of them counts,
though its source is faulty as well. -/
theorem read_overlay_blockwise_faulty :
    let good := "a = 1\npatch k w \x7b\n  x = merge(1)\n  b \x7b\x7d\n  source = \"s\"\n\x7d\n" ++
      "c \x7b\x7d\n"
    let bad := good ++ "patch k \"\" \x7b\n  source = 2\n\x7d\n" ++
      "patch k w \x7b\n  source = 3\n\x7d\n"
    let message := "Parse Error: o:8:1: patch block requires exactly 2 non-empty labels " ++
      "(type and name), got 2"
    (∃ d patches, Document.read? good = some d ∧
        (Overlay.read good ⟨"o"⟩).run.1 = .ok patches ∧ patches.map (·.source) = [some "s"] ∧
        List.Forall₂ (fun b (p : Patch) => p.SaidBy b) (patchBlocks d) patches) ∧
      ∃ d failure, Document.read? bad = some d ∧
        (Overlay.read bad ⟨"o"⟩).run.1 = .error failure ∧ failure.message = message ∧
        ∃ front b back span fault, patchBlocks d = front ++ b :: back ∧
          (∀ c ∈ front, c.WellFormed) ∧ PatchFault b span fault ∧
          failure = .parse ⟨⟨"o"⟩, some (.ofOffset bad span.start), fault⟩ := by
  intro good bad message
  obtain ⟨hgood, hpatches⟩ : (Document.read? good).isSome = true ∧
      ((Overlay.read good ⟨"o"⟩).run.1.toOption.map fun patches => patches.map (·.source)) =
        some [some "s"] := by
    decide +kernel
  obtain ⟨hbad, hmessage⟩ : (Document.read? bad).isSome = true ∧
      (match (Overlay.read bad ⟨"o"⟩).run.1 with
        | .ok _ => none
        | .error failure => some failure.message) = some message := by
    decide +kernel
  constructor
  · obtain ⟨d, hd⟩ := Option.isSome_iff_exists.1 hgood
    obtain ⟨-, hsaid, -⟩ := read_overlay_blockwise hd ⟨"o"⟩
    cases hresult : (Overlay.read good ⟨"o"⟩).run.1 with
    | error failure =>
      rw [hresult] at hpatches
      cases hpatches
    | ok patches =>
      rw [hresult] at hpatches
      exact ⟨d, patches, hd, rfl, Option.some.inj hpatches, (hsaid patches hresult).1⟩
  · obtain ⟨d, hd⟩ := Option.isSome_iff_exists.1 hbad
    obtain ⟨-, -, hfaulty, -⟩ := read_overlay_blockwise hd ⟨"o"⟩
    cases hresult : (Overlay.read bad ⟨"o"⟩).run.1 with
    | ok patches =>
      rw [hresult] at hmessage
      cases hmessage
    | error failure =>
      rw [hresult] at hmessage
      exact ⟨d, failure, hd, rfl, Option.some.inj hmessage, (hfaulty failure).1 hresult⟩

end HclOverlay
