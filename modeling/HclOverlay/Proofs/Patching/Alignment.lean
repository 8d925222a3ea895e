import HclOverlay.Proofs.Documents.Interiors
import HclOverlay.Proofs.Documents.Pieces
import HclOverlay.Proofs.Patching.Safety
import HclOverlay.Proofs.Patching.Writing
import HclOverlay.Proofs.Rendering.Lines

/-!
# Alignment

An attribute that is written is meant to stand at the indentation of the other attributes of its
block. That indentation is looked up where attributes were read from, and an attribute that is written
forgets where that was. So it is found as long as one attribute of the block has not been written yet.
After that, what is found is the indentation of a nested block, or one level more than that of the
block.

* `ModuleFile.indentAfter` — the indentation that is found after some attributes were written;
  `indentFor_without`.
* `ModuleFile.ShowsBehind` — where the text of a file shows an attribute.
* `written_attributes_indented` — **how far attributes and the lines of their values are indented**
  after any patches.
-/

namespace HclOverlay

open Hcl Source

/-! ## Line ends -/

theorem mem_restoreReturns (t : List Char) : '\n' ∈ restoreReturns t ↔ '\n' ∈ t := by
  induction t with
  | nil => rfl
  | cons c t ih =>
    rcases restoreReturns_cases c t with ⟨rfl, h⟩ | ⟨rfl, -, h⟩ | ⟨-, h⟩ <;> rw [h] <;> simp [ih]

theorem lastLine_cons {c : Char} (hc : c ≠ '\n') (t : List Char) :
    lastLine (c :: t) = if '\n' ∈ t then lastLine t else c :: t := by
  split
  · next h =>
    obtain ⟨x, y, rfl⟩ := List.append_of_mem h
    rw [lastLine_append, ← List.cons_append, lastLine_append]
  · next h => exact lastLine_of_not_mem (by simp [h, hc.symm])

/-- Restoring line ends changes nothing behind the last one. -/
theorem lastLine_restoreReturns (t : List Char) : lastLine (restoreReturns t) = lastLine t := by
  induction t with
  | nil => rfl
  | cons c t ih =>
    rcases restoreReturns_cases c t with ⟨rfl, h⟩ | ⟨rfl, hline, h⟩ | ⟨hc, h⟩
    · rw [h]
      exact (lastLine_append ['\r'] _).trans (ih.trans (lastLine_append [] t).symm)
    · obtain ⟨y, rfl⟩ := List.head?_eq_some_iff.1 hline
      rw [h, ih]
      exact (lastLine_append [] y).trans (lastLine_append ['\r'] y).symm
    · rw [h, lastLine_cons hc, lastLine_cons hc, ih]
      simp only [mem_restoreReturns]
      split
      · rfl
      · next hnot => rw [changesEnds_restoreReturns.same t hnot]

/-- Blanks at the front of a text do not depend on its line ends. -/
theorem prefix_restoreReturns {w : List Char} (hw : ∀ c ∈ w, Reader.isBlankChar c = true)
    (t : List Char) : w <+: restoreReturns t ↔ w <+: t := by
  induction w generalizing t with
  | nil => simp
  | cons c w ih =>
    have hblank := hw c List.mem_cons_self
    have hline : c ≠ '\n' := by
      rintro rfl
      cases hblank
    have hreturn : c ≠ '\r' := by
      rintro rfl
      cases hblank
    cases t with
    | nil => rfl
    | cons d t =>
      rcases restoreReturns_cases d t with ⟨rfl, h⟩ | ⟨rfl, hhead, h⟩ | ⟨-, h⟩
      · rw [h, List.cons_prefix_cons, List.cons_prefix_cons]
        simp [hline, hreturn]
      · obtain ⟨y, rfl⟩ := List.head?_eq_some_iff.1 hhead
        rw [h, restoreReturns_line, List.cons_prefix_cons, List.cons_prefix_cons]
        simp [hreturn]
      · rw [h, List.cons_prefix_cons, List.cons_prefix_cons,
          ih fun c hc => hw c (List.mem_cons_of_mem _ hc)]

theorem continuesAt_restoreReturns {w : List Char} (hw : ∀ c ∈ w, Reader.isBlankChar c = true)
    (t : List Char) : ContinuesAt w (restoreReturns t) ↔ ContinuesAt w t := by
  induction t with
  | nil => rfl
  | cons c t ih =>
    rcases restoreReturns_cases c t with ⟨rfl, h⟩ | ⟨rfl, -, h⟩ | ⟨hc, h⟩
    · rw [h, continuesAt_cons, continuesAt_cons, continuesAt_cons, ih, prefix_restoreReturns hw]
      simp
    · rw [h, continuesAt_cons, ih]
      simp
    · rw [h, continuesAt_cons, continuesAt_cons, ih]
      simp [hc]

namespace ModuleFile

theorem lastLine_lineEnds (f : ModuleFile) (t : List Char) : lastLine (f.lineEnds t) = lastLine t := by
  unfold lineEnds
  split
  · exact lastLine_restoreReturns t
  · rfl

theorem continuesAt_lineEnds (f : ModuleFile) {w : List Char}
    (hw : ∀ c ∈ w, Reader.isBlankChar c = true) (t : List Char) :
    ContinuesAt w (f.lineEnds t) ↔ ContinuesAt w t := by
  unfold lineEnds
  split
  · exact continuesAt_restoreReturns hw t
  · rfl

/-! ## The indentation that is found -/

/-- The indentation for an attribute of a block of which no attribute is left: that of the first
nested block that starts a line, else one level more than the block. -/
def innerIndent (f : ModuleFile) (b : Block) : List Char :=
  match ((blocksOf b.body).map (·.span)).findSome? fun span => f.indentAt? span.start with
  | some indent => indent
  | none => ((f.indentAt? b.span.start).getD []) ++ Value.indentStep

/-- The indentation for an attribute of a block whose attributes stand at `w`, after those of the
given names were written. -/
def indentAfter (f : ModuleFile) (b : Block) (w : List Char) (names : List String) : List Char :=
  if (attributesOf b.body).all (fun a => names.contains a.name) then f.innerIndent b else w

/-- The attributes of a block stand at an indentation: each of them, and there is one, was read from a
line that starts with it and with nothing else. -/
structure StandAt (f : ModuleFile) (b : Block) (w : List Char) : Prop where
  nonempty : attributesOf b.body ≠ []
  each : ∀ a ∈ attributesOf b.body, ∃ span ∈ a.span, f.indentAt? span.start = some w

theorem StandAt.blank {f : ModuleFile} {b : Block} {w : List Char} (h : f.StandAt b w) :
    ∀ c ∈ w, Reader.isBlankChar c = true := by
  obtain ⟨a, ha⟩ := List.exists_mem_of_ne_nil _ h.nonempty
  obtain ⟨span, -, hw⟩ := h.each a ha
  exact indentAt?_blank hw

/-- Of places that all have one indentation, the first one has it. -/
theorem findSome?_of_forall {f : ModuleFile} {w : List Char} {spans : List Span}
    (h : ∀ span ∈ spans, f.indentAt? span.start = some w) (hne : spans ≠ []) :
    (spans.findSome? fun span => f.indentAt? span.start) = some w := by
  cases spans with
  | nil => exact absurd rfl hne
  | cons span rest => rw [List.findSome?_cons, h span List.mem_cons_self]

/-- **The indentation that is found** after attributes were written. -/
theorem indentFor_without {f : ModuleFile} {b : Block} {w : List Char} (h : f.StandAt b w)
    (names : List String) (name : String) :
    f.indentFor (b.without names) name = f.indentAfter b w names := by
  have hattributes := attributesOf_without b names
  have hleft : ∀ a ∈ attributesOf (b.without names).body, ∀ span, a.span = some span →
      f.indentAt? span.start = some w := by
    intro a ha span hspan
    rw [hattributes] at ha
    obtain ⟨span', hspan', hw⟩ := h.each a (List.mem_of_mem_filter ha)
    obtain rfl := Option.some.inj (hspan.symm.trans hspan')
    exact hw
  rw [indentFor, indentAfter, List.findSome?_append, blocksOf_without]
  by_cases hall : (attributesOf b.body).all (fun a => names.contains a.name) = true
  · -- no attribute is left
    have hnone : attributesOf (b.without names).body = [] := by
      rw [hattributes, List.filter_eq_nil_iff]
      intro a ha
      simpa using List.all_eq_true.1 hall a ha
    rw [if_pos hall, Block.attribute?, hnone]
    rfl
  · obtain ⟨a, ha, hname⟩ : ∃ a ∈ attributesOf b.body, (!names.contains a.name) = true := by
      simpa using hall
    obtain ⟨span, hspan, -⟩ := h.each a ha
    have hin : a ∈ attributesOf (b.without names).body := by
      rw [hattributes]
      exact List.mem_filter.2 ⟨ha, hname⟩
    rw [if_neg hall, findSome?_of_forall, Option.some_or]
    · intro span hspan
      rcases List.mem_append.1 hspan with hown | hsibling
      · obtain ⟨a, ha, hspan⟩ := List.mem_filterMap.1 hown
        exact hleft a (List.mem_of_find?_eq_some (Option.mem_toList.1 ha)) span hspan
      · obtain ⟨a, ha, hspan⟩ := List.mem_filterMap.1 hsibling
        exact hleft a ha span hspan
    · exact List.append_ne_nil_of_right_ne_nil _
        (List.ne_nil_of_mem (List.mem_filterMap.2 ⟨a, hin, hspan⟩))

end ModuleFile

/-! ## Where an attribute is shown -/

namespace Hcl

/-- The text of a block on several lines up to its first structure. -/
def Block.openingLine (b : Block) (opening : Trivia) : List Char :=
  b.before ++ (b.kind.toList ++ (b.gap ++ (b.labels.flatMap Label.print ++
    '{' :: (opening ++ ['\n']))))

/-- The text of a document shows an attribute of a block behind `ahead`: what is printed up to the
name of the attribute. -/
inductive Document.ShowsBehind (d : Document) (b : Block) (a : Attribute) : List Char → Prop
  | intro {above below pre post : List Structure} {opening closing : Trivia}
      (structures : d.structures = above ++ .block b :: below)
      (body : b.body = pre ++ .attr a :: post) (layout : b.layout = .lines opening closing) :
      d.ShowsBehind b a (printLines above ++ (b.openingLine opening ++ (printLines pre ++ a.before)))

theorem printLines_append (ss ts : List Structure) :
    printLines (ss ++ ts) = printLines ss ++ printLines ts := by
  induction ss with
  | nil => rfl
  | cons s ss ih => rw [List.cons_append, printLines, printLines, ih, List.append_assoc,
      List.cons_append]

theorem getLast?_printLines {x : List Char} (hx : x.getLast? = some '\n') (ss : List Structure) :
    (x ++ printLines ss).getLast? = some '\n' := by
  induction ss generalizing x with
  | nil => rwa [printLines, List.append_nil]
  | cons s ss ih =>
    have hline := ih (x := x ++ (s.print ++ ['\n'])) (by simp)
    simpa [printLines] using hline

namespace Document.ShowsBehind

variable {d : Document} {b : Block} {a : Attribute} {ahead : List Char}

/-- What is printed from there on. -/
theorem print_eq (h : d.ShowsBehind b a ahead) : ∃ tail, d.print = ahead ++ a.fromName tail := by
  obtain ⟨hstructures, hbody, hlayout⟩ := h
  next above below pre post opening closing =>
  have hblock : ∀ y, b.print ++ y = b.openingLine opening ++ (printLines pre ++ (a.before ++
      a.fromName (a.after.getD [] ++ '\n' :: (printLines post ++ (closing ++ '}' :: (b.after ++ y)))))) := by
    intro y
    rw [Block.print_append, hlayout, hbody, Layout.print, printLines_append, printLines,
      Structure.print]
    have hattribute := a.print_append [] ('\n' :: (printLines post ++ (closing ++ '}' :: (b.after ++ y))))
    simp only [Block.openingLine, List.append_assoc, List.cons_append, List.nil_append, hattribute]
  have hdocument : ∃ y, d.print = printLines above ++ (b.print ++ y) := by
    rw [Document.print, hstructures, printLines_append, printLines, Structure.print]
    cases d.endsLine with
    | true => exact ⟨'\n' :: printLines below ++ d.closing, by simp⟩
    | false =>
      refine ⟨('\n' :: printLines below).dropLast ++ d.closing, ?_⟩
      simp [List.dropLast_append_of_ne_nil]
  obtain ⟨y, hy⟩ := hdocument
  refine ⟨a.after.getD [] ++ '\n' :: (printLines post ++ (closing ++ '}' :: (b.after ++ y))), ?_⟩
  rw [hy, hblock]
  simp only [List.append_assoc]

/-- The attribute comes behind a line end and the trivia in front of it. -/
theorem exists_line (h : d.ShowsBehind b a ahead) : ∃ x, ahead = x ++ '\n' :: a.before := by
  obtain ⟨hstructures, hbody, hlayout⟩ := h
  next above below pre post opening closing =>
  have hhead : (printLines above ++ b.openingLine opening).getLast? = some '\n' := by
    have hline : printLines above ++ b.openingLine opening = printLines above ++ (b.before ++
        (b.kind.toList ++ (b.gap ++ (b.labels.flatMap Label.print ++ '{' :: opening)))) ++ ['\n'] := by
      simp [Block.openingLine]
    rw [hline, List.getLast?_concat]
  obtain ⟨x, hx⟩ := List.getLast?_eq_some_iff.1 (getLast?_printLines hhead pre)
  refine ⟨x, ?_⟩
  rw [← List.append_assoc, ← List.append_assoc, hx]
  simp

end Document.ShowsBehind

end Hcl

namespace ModuleFile

/-- The text of a file shows an attribute of a block behind `front`. A file that was not written shows
it where it was read from. -/
def ShowsBehind (g : ModuleFile) (b : Block) (a : Attribute) (front : List Char) : Prop :=
  if g.modified then ∃ ahead, g.document.ShowsBehind b a ahead ∧ front = g.lineEnds ahead
  else ∃ span ∈ a.span, front = takeBytes span.start g.source.toList

variable {g : ModuleFile} {b : Block} {a : Attribute} {front : List Char}

/-- The line of an attribute of a file that was written starts with the trivia in front of it. -/
theorem ShowsBehind.lastLine (h : g.ShowsBehind b a front) (hmodified : g.modified = true) :
    lastLine front = Source.lastLine a.before := by
  rw [ShowsBehind, if_pos hmodified] at h
  obtain ⟨ahead, hahead, rfl⟩ := h
  obtain ⟨x, rfl⟩ := hahead.exists_line
  rw [lastLine_lineEnds, lastLine_append]

/-- An attribute of a file that was written is shown there. -/
theorem exists_showsBehind {n : Nat} {opening closing : Trivia}
    (hmodified : g.modified = true) (hb : g.document.blocks[n]? = some b)
    (hlayout : b.layout = .lines opening closing) (ha : a ∈ attributesOf b.body) :
    ∃ front, g.ShowsBehind b a front := by
  obtain ⟨above, below, hstructures, -⟩ := exists_append_of_blocksOf hb
  obtain ⟨s, hs, hattribute⟩ := List.mem_filterMap.1 ha
  obtain ⟨pre, post, hbody⟩ := List.append_of_mem hs
  cases s with
  | block b' => cases hattribute
  | attr a' =>
    cases hattribute
    have hshown : ∃ ahead, g.document.ShowsBehind b a ahead := ⟨_, .intro hstructures hbody hlayout⟩
    obtain ⟨ahead, hahead⟩ := hshown
    refine ⟨g.lineEnds ahead, ?_⟩
    rw [ShowsBehind, if_pos hmodified]
    exact ⟨ahead, hahead, rfl⟩

/-- The text of an attribute that was written stands where it is shown. -/
theorem ShowsBehind.text (hmodified : g.modified = true) {name : String}
    (hname : Text.isIdentifier name = true) {e : Expr} (he : e.print.getLast? ≠ some '\r')
    {before : Trivia} {after : Option Trivia}
    (h : g.ShowsBehind b (.ofWrite name e before after) front) :
    front ++ (name.toList ++ [' ', '=', ' '] ++ g.lineEnds e.print) <+: g.text.toList := by
  rw [ShowsBehind, if_pos hmodified] at h
  obtain ⟨ahead, hahead, rfl⟩ := h
  obtain ⟨tail, htail⟩ := hahead.print_eq
  have hconv := g.changesEnds_lineEnds
  obtain ⟨c, more, hcons, hstart, hn, hr⟩ := isIdentifier_toList hname
  have htoken : g.lineEnds (name.toList ++ ([' ', '=', ' '] ++ (e.print ++ tail))) =
      name.toList ++ ([' ', '=', ' '] ++ (g.lineEnds e.print ++ g.lineEnds tail)) := by
    rw [hconv.token hn hr, hconv.token (by decide) (by decide),
      hconv.append e.print tail fun hlast => absurd hlast he]
  have hhead : (name.toList ++ ([' ', '=', ' '] ++ (e.print ++ tail))).head? ≠ some '\n' := by
    rw [hcons]
    intro heq
    rw [hcons] at hn
    exact hn (Option.some.inj heq ▸ List.mem_cons_self)
  rw [text_of_modified hmodified, String.toList_ofList, htail]
  have hfrom : (Attribute.ofWrite name e before after).fromName tail =
      name.toList ++ ([' ', '=', ' '] ++ (e.print ++ tail)) := rfl
  rw [hfrom, hconv.white ahead hhead, htoken]
  exact ⟨g.lineEnds tail, by simp⟩

end ModuleFile

/-! ## Any patches -/

/-- Attributes written to a block are writes to its file. -/
theorem Patching.attributesFor_eq_nil {files : ModuleFiles} {patches : List Patch} {i : Nat}
    (h : ranksIn i (Patching.writes files patches) = []) (n : Nat) :
    Patching.attributesFor files i n patches = [] := by
  rw [Patching.attributesFor, List.flatMap_eq_nil_iff]
  intro p hp
  split
  · rfl
  · next rank handle hlocate =>
    split
    · next hplace =>
      obtain ⟨rfl, -⟩ := Prod.mk.inj hplace
      refine List.eq_nil_iff_forall_not_mem.2 fun attr hattr => ?_
      have hwrite : (rank, handle.rank) ∈ Patching.writes files patches := by
        refine List.mem_flatMap.2 ⟨p, hp, ?_⟩
        rw [hlocate]
        exact List.mem_map.2 ⟨attr, hattr, rfl⟩
      have hrank : handle.rank ∈ ranksIn rank (Patching.writes files patches) :=
        List.mem_filterMap.2 ⟨_, hwrite, if_pos rfl⟩
      rw [h] at hrank
      cases hrank
    · rfl

theorem Patching.exists_patch_of_attributesFor {files : ModuleFiles} {i n : Nat}
    {patches : List Patch} {attr : String × PatchAttribute}
    (h : attr ∈ Patching.attributesFor files i n patches) : ∃ p ∈ patches, attr ∈ p.attributes := by
  obtain ⟨p, hp, hattr⟩ := List.mem_flatMap.1 h
  refine ⟨p, hp, ?_⟩
  split at hattr
  · cases hattr
  · split at hattr
    · exact hattr
    · cases hattr

/-- What stands in front of the attributes of a block on several lines of a text ends in the blanks
of their lines. -/
theorem Hcl.Block.Interior.lastLine_before {whole : List Char} {b : Block} (h : b.Interior whole)
    {a : Attribute} (ha : a ∈ attributesOf b.body) {span : Span} (hspan : a.span = some span) :
    lastLine (takeBytes span.start whole) = lastLine a.before := by
  obtain ⟨front, cs, rest, ended, rfl, hfront, hplaced⟩ := h.body
  obtain ⟨s, hs, hattribute⟩ := List.mem_filterMap.1 ha
  obtain ⟨ahead, back, htext, hstart⟩ := hplaced.behindLine hfront s hs
  cases s with
  | block b' => cases hattribute
  | attr a' =>
    cases hattribute
    have hplace : span.start = byteSize (ahead ++ '\n' :: a.before) := by
      have hsome : a.span.map Span.start = some (byteSize (ahead ++ '\n' :: a.before)) := hstart
      rw [hspan] at hsome
      exact Option.some.inj hsome
    have hsplit : front ++ cs = (ahead ++ '\n' :: a.before) ++ back := by
      rw [htext]
      simp [Structure.before]
    rw [hplace, hsplit, takeBytes_byteSize, lastLine_append]

theorem ModuleFile.lastLine_of_indentAt? {f : ModuleFile} {offset : Nat} {w : List Char}
    (h : f.indentAt? offset = some w) : lastLine (takeBytes offset f.source.toList) = w := by
  unfold ModuleFile.indentAt? at h
  dsimp only at h
  split at h
  · exact Option.some.inj h
  · cases h

theorem lastLine_of_blank {w : List Char} (h : ∀ c ∈ w, Reader.isBlankChar c = true) :
    lastLine w = w :=
  lastLine_of_not_mem fun hn => absurd (h _ hn) (by decide)

section Runs

variable {f : ModuleFile} {b c : Block} {w : List Char} {attrs : List (String × PatchAttribute)}

/-- **How far attributes are indented** in a block on several lines whose attributes stood at `w`. An
attribute that was there stays at `w`. A new one stands at the indentation that was found when it was
first written. -/
theorem lastLine_before_of_written (hinterior : b.Interior f.source.toList)
    (hb : (Structure.block b).Shaped) (hw : f.StandAt b w)
    (h : attrs.foldlM f.rewriteBlock? b = some c) {a : Attribute} (ha : a ∈ attributesOf c.body) :
    lastLine a.before = if (b.attribute? a.name).isSome then w
      else f.indentAfter b w ((attrs.map Prod.fst).takeWhile (· != a.name)) := by
  have hline : f.onOneLine b = false := by
    simpa [ModuleFile.onOneLine] using hinterior.lines
  have hshaped := (sameButAttributes_of_written h hb).shaped
  rcases before_of_written hline hb h (attribute?_of_mem hshaped ha) with
    ⟨a₀, ha₀, hbefore⟩ | ⟨hnone, front, attr, back, rfl, hname, hfront, hbefore⟩
  · have hmem : a₀ ∈ attributesOf b.body := List.mem_of_find?_eq_some ha₀
    obtain ⟨span, hspan, hindent⟩ := hw.each a₀ hmem
    rw [ha₀, hbefore, ← hinterior.lastLine_before hmem hspan]
    exact ModuleFile.lastLine_of_indentAt? hindent
  · have hwhile : ((front ++ attr :: back).map Prod.fst).takeWhile (· != a.name) =
        front.map Prod.fst := by
      rw [List.map_append, List.takeWhile_append_of_pos, List.map_cons, hname,
        List.takeWhile_cons_of_neg, List.append_nil]
      · simp
      · intro name hmem
        exact bne_iff_ne.2 fun heq : name = a.name => hfront (heq ▸ hmem)
    rw [hnone, hwhile, hbefore, lastLine_of_blank (indentFor_blank f _ _),
      ModuleFile.indentFor_without hw]
    rfl

/-- **How far the lines of a value are indented.** The value of the last write to an attribute, if it
is a list or object, is written at the indentation that is found then. -/
theorem continuesAt_of_written (hb : (Structure.block b).Shaped) (hw : f.StandAt b w)
    {front back : List (String × PatchAttribute)} {attr : String × PatchAttribute}
    (hlast : attr.1 ∉ back.map Prod.fst) (hvalue : attr.2.value.IsWhole)
    (h : (front ++ attr :: back).foldlM f.rewriteBlock? b = some c) {d : Block}
    (hd : front.foldlM f.rewriteBlock? b = some d)
    (hscalar : (ModuleFile.newValue d attr.1 attr.2).isScalar = false)
    (hnumbers : ∀ n ∈ (ModuleFile.newValue d attr.1 attr.2).numbers, n.isReadable = true) :
    ∃ e before after, c.attribute? attr.1 = some (.ofWrite attr.1 e before after) ∧
      e.print.getLast? ≠ some '\r' ∧
      (ContinuesAt w e.print ↔ (ModuleFile.newValue d attr.1 attr.2).takesOneLine = true ∨
        w <+: f.indentAfter b w (front.map Prod.fst)) := by
  obtain ⟨e, before, after, he, hwritten⟩ := attribute?_of_written hlast hd h
  have hblank := indentFor_blank f d attr.1
  -- only data takes several lines
  have hdata : (ModuleFile.newValue d attr.1 attr.2).IsData := by
    refine (ModuleFile.isWhole_newValue d hvalue).resolve_left fun hkept => ?_
    cases hv : ModuleFile.newValue d attr.1 attr.2 with
    | unevaluated source =>
      rw [hv] at hscalar
      cases hscalar
    | _ =>
      rw [hv] at hkept
      cases hkept
  have htree : e = (ModuleFile.newValue d attr.1 attr.2).tree (f.indentFor d attr.1) := by
    rw [Value.read?_chars ((Value.plain_iff _).2 ⟨hdata, hnumbers⟩) hblank] at he
    split at he
    · cases he
    · exact (Option.some.inj he).symm
  refine ⟨e, before, after, hwritten, ?_, ?_⟩
  · obtain ⟨most, bracket, hbracket, hprint⟩ :=
      Value.print_tree_of_not_scalar hscalar (f.indentFor d attr.1)
    rw [htree, hprint, List.getLast?_concat]
    rcases hbracket with rfl | rfl <;> decide
  · rw [htree, Value.continuesAt_tree hw.blank fun hn => absurd (hblank _ hn) (by decide),
      indentFor_of_written hd hb, ModuleFile.indentFor_without hw]

end Runs

/-- **Written attributes and their siblings.** Take files as they were read and patches of overlays
that are applied to them, and a block on several lines whose attributes stand at the indentation `w`.
In the text of its file afterwards, the attributes that it had stand at `w`, and each new one at the
indentation that was found when it was first written; this is `w` as long as an attribute of the block
had not been written. The lines of a list or object that was written, with numbers of 64 bits, start
with `w` if it takes one line, or if the indentation that was found for it starts with `w`. -/
theorem written_attributes_indented {sources : List (Path × String)} {files final : ModuleFiles}
    {patches : List Patch} {notices notices' : List Notice}
    (hread : (readFiles sources).run = (.ok files, notices))
    (hpatches : ∀ p ∈ patches, ∃ text path ps found,
      (Overlay.read text path).run = (.ok ps, found) ∧ p ∈ ps)
    (hrun : (applyPatches patches).run files = (.ok (), final, notices')) {i n : Nat} {path : Path}
    {f : ModuleFile} {b : Block} (hf : files[i]? = some (path, f))
    (hb : f.document.blocks[n]? = some b) {opening closing : Trivia}
    (hlines : b.layout = .lines opening closing) {w : List Char} (hw : f.StandAt b w) :
    let attrs := Patching.attributesFor files i n patches
    ∃ g c, final[i]? = some (path, g) ∧ g.document.blocks[n]? = some c ∧
      (∀ a ∈ attributesOf c.body, ∃ front, g.ShowsBehind c a front ∧
        lastLine front = if (b.attribute? a.name).isSome then w
          else f.indentAfter b w ((attrs.map Prod.fst).takeWhile (· != a.name))) ∧
      ∀ before attr after, attrs = before ++ attr :: after → attr.1 ∉ after.map Prod.fst →
        ∃ d, before.foldlM f.rewriteBlock? b = some d ∧
        ((ModuleFile.newValue d attr.1 attr.2).isScalar = false →
          (∀ n ∈ (ModuleFile.newValue d attr.1 attr.2).numbers, n.isReadable = true) →
          ∃ a front, c.attribute? attr.1 = some a ∧ g.ShowsBehind c a front ∧
            let text := g.lineEnds a.value.print
            front ++ (attr.1.toList ++ [' ', '=', ' '] ++ text) <+: g.text.toList ∧
            (ContinuesAt w text ↔ (ModuleFile.newValue d attr.1 attr.2).takesOneLine = true ∨
              w <+: f.indentAfter b w (before.map Prod.fst))) := by
  intro attrs
  have hfile := List.mem_of_getElem? hf
  have hpatched := Patched.read hread
  obtain ⟨hfresh, hdocument⟩ := readFiles_fresh hread _ hfile
  have hshaped := shaped_of_block (hpatched.shaped _ hfile) hb
  have hinterior := Document.interior hdocument (List.mem_of_getElem? hb) hlines
  have hpatch := Patching.patchAll_of_run hrun
  obtain ⟨g, c, hg, hsource, hc, hwritten⟩ := block_patchAll hpatched.indexed hpatch hf hb
  have hsame := sameButAttributes_of_written hwritten hshaped
  have hlayout : c.layout = .lines opening closing :=
    (congrArg (fun b => b.layout) hsame.bare).trans hlines
  -- the file was written if the block was
  have hmodified : g.modified = false → attrs = [] := by
    intro hnot
    obtain ⟨g', hg', hrewritten⟩ := rewritten_patchAll patches files i path f hf
    rw [hpatch, hg] at hg'
    obtain ⟨-, rfl⟩ := Prod.mk.inj (Option.some.inj hg')
    rw [log_eq_writes (congrArg Prod.fst hpatch)] at hrewritten
    rw [hrewritten.modified, hfresh, Bool.false_or, Bool.not_eq_false', List.isEmpty_iff] at hnot
    exact Patching.attributesFor_eq_nil hnot n
  refine ⟨g, c, hg, hc, fun a ha => ?_, ?_⟩
  · cases hm : g.modified with
    | true =>
      obtain ⟨front, hfront⟩ := ModuleFile.exists_showsBehind hm hc hlayout ha
      exact ⟨front, hfront, (hfront.lastLine hm).trans
        (lastLine_before_of_written hinterior hshaped hw hwritten ha)⟩
    | false =>
      have hnone : Patching.attributesFor files i n patches = [] := hmodified hm
      rw [hnone] at hwritten
      obtain rfl := Option.some.inj hwritten
      obtain ⟨span, hspan, hindent⟩ := hw.each a ha
      refine ⟨takeBytes span.start g.source.toList, ?_, ?_⟩
      · rw [ModuleFile.ShowsBehind, hm, if_neg Bool.false_ne_true]
        exact ⟨span, hspan, rfl⟩
      · rw [attribute?_of_mem hshaped ha, hsource]
        exact ModuleFile.lastLine_of_indentAt? hindent
  · intro before attr after hsplit hlast
    have hfold := hwritten
    have hattrs : Patching.attributesFor files i n patches = before ++ attr :: after := hsplit
    rw [hattrs, List.foldlM_append] at hfold
    obtain ⟨d, hd, -⟩ := Option.bind_eq_some_iff.1 hfold
    refine ⟨d, hd, fun hscalar hnumbers => ?_⟩
    have hm : g.modified = true := by
      by_contra hnot
      rw [hmodified (Bool.eq_false_iff.2 hnot)] at hsplit
      simp at hsplit
    have hsound : Text.isIdentifier attr.1 = true ∧ attr.2.value.IsWhole := by
      have hmem : attr ∈ Patching.attributesFor files i n patches := by
        rw [hattrs]
        simp
      obtain ⟨p, hp, hattr⟩ := Patching.exists_patch_of_attributesFor hmem
      obtain ⟨overlay, place, ps, found', hoverlay, hin⟩ := hpatches p hp
      exact Overlay.sound_of_read hoverlay p hin attr hattr
    obtain ⟨e, ahead, behind, hattribute, hreturn, hcontinues⟩ :=
      continuesAt_of_written hshaped hw hlast hsound.2 (hattrs ▸ hwritten) hd hscalar hnumbers
    have hmem : Attribute.ofWrite attr.1 e ahead behind ∈ attributesOf c.body :=
      List.mem_of_find?_eq_some hattribute
    obtain ⟨front, hfront⟩ := ModuleFile.exists_showsBehind hm hc hlayout hmem
    refine ⟨_, front, hattribute, hfront, hfront.text hm hsound.1 hreturn, ?_⟩
    exact (g.continuesAt_lineEnds hw.blank _).trans hcontinues

/-- The only attribute of a block is written, and then a new one, which is put where the attributes of
a block that has none are put. -/
theorem written_attributes_indented_lost :
    let source := "resource k w \x7b\n    a = 1\n\x7d\n"
    let overlay := "patch k w \x7b\n  a = 2\n  b = [[1]]\n\x7d\n"
    let patches := (Overlay.read overlay ⟨"o"⟩).run.1.toOption.getD []
    let files := (readFiles [(⟨"main.tf"⟩, source)]).run.1.toOption.getD []
    let final := ((applyPatches patches).run files).2.1
    let w := [' ', ' ', ' ', ' ']
    final.map (·.2.text) = ["resource k w \x7b\n    a = 2\n  b = [\n    [1],\n  ]\n\x7d\n"] ∧
      ∀ path f b, files[0]? = some (path, f) → f.document.blocks[0]? = some b →
        f.StandAt b w ∧ ∃ g c, final[0]? = some (path, g) ∧ g.document.blocks[0]? = some c ∧
          ∀ a ∈ attributesOf c.body, ∃ front, g.ShowsBehind c a front ∧
            lastLine front = if a.name = "a" then w else [' ', ' '] := by
  intro source overlay patches files final w
  obtain ⟨hoverlay, hfiles, hrun, htext, hnames, hfinal⟩ :
      (Overlay.read overlay ⟨"o"⟩).run.1.isOk = true ∧
      (readFiles [(⟨"main.tf"⟩, source)]).run.1.isOk = true ∧
      ((applyPatches patches).run files).1.isOk = true ∧
      final.map (·.2.text) = ["resource k w \x7b\n    a = 2\n  b = [\n    [1],\n  ]\n\x7d\n"] ∧
      (Patching.attributesFor files 0 0 patches).map Prod.fst = ["a", "b"] ∧
      ∀ e ∈ final, ∀ c ∈ e.2.document.blocks, ∀ a ∈ attributesOf c.body,
        a.name = "a" ∨ a.name = "b" := by
    decide +kernel
  have hblock : ∀ e ∈ files, ∀ b ∈ e.2.document.blocks,
      b.layout.opening.isEmpty = false ∧
      (attributesOf b.body).isEmpty = false ∧
      (∀ a ∈ attributesOf b.body,
        a.span.any (fun span => e.2.indentAt? span.start == some w) = true) ∧
      (b.attribute? "a").isSome = true ∧ (b.attribute? "b").isSome = false ∧
      e.2.indentAfter b w ["a"] = [' ', ' '] := by
    decide +kernel
  refine ⟨htext, fun path f b hf hb => ?_⟩
  obtain ⟨hlines, hempty, hspans, ha, hb', hindent⟩ :=
    hblock _ (List.mem_of_getElem? hf) b (List.mem_of_getElem? hb)
  have hw : f.StandAt b w := by
    refine ⟨by simpa using hempty, fun a ha => ?_⟩
    obtain ⟨span, hspan, heq⟩ := (Option.any_eq_true _ _).1 (hspans a ha)
    exact ⟨span, hspan, by simpa using heq⟩
  cases hlayout : b.layout with
  | oneLine inner =>
    rw [hlayout] at hlines
    cases hlines
  | lines opening closing =>
    obtain ⟨g, c, hg, hc, hattributes, -⟩ := written_attributes_indented (eq_ok_of_isOk hfiles)
      (fun p hp => ⟨overlay, ⟨"o"⟩, patches, _, eq_ok_of_isOk (d := []) hoverlay, hp⟩)
      (patchingRun_eq_of_isOk hrun) hf hb hlayout hw
    refine ⟨hw, g, c, hg, hc, fun a hmem => ?_⟩
    obtain ⟨front, hfront, hline⟩ := hattributes a hmem
    refine ⟨front, hfront, hline.trans ?_⟩
    rw [hnames]
    rcases hfinal _ (List.mem_of_getElem? hg) c (List.mem_of_getElem? hc) a hmem with hname | hname
    · rw [hname, ha]
      rfl
    · rw [hname, hb']
      exact hindent

end HclOverlay
