import Mathlib.Data.List.Infix
import HclOverlay.Proofs.Documents.Copying
import HclOverlay.Proofs.Documents.Pieces
import HclOverlay.Proofs.Documents.Values
import HclOverlay.Proofs.Patching.Writing

/-!
# Comments

A write puts a new value behind the name of an attribute and leaves what stands around it, so the
comments there stay. Only where a block that was on one line gets a second attribute, the first one is
put on a line of its own without what stood around it, and comments there are lost.

* `ModuleFile.keptPieces` — the pieces of a file but for those that writes to some attributes put
  something else for.
* `comments_of_written` — writes to a block leave the comments in these pieces, by induction along the
  writes: one write changes none of them.
* `ModuleFile.comments` — the comments in a piece of a file.
* `comments_survive` — **the comments in these pieces** stand in the text afterwards, in order.
-/

namespace HclOverlay

open Hcl Reader

/-! ## What is kept -/

namespace Hcl

/-- The pieces of an attribute that are kept: those around it unless it is `moved` to another line,
and its own unless it is `written`. -/
def Attribute.keptPieces (written moved : Bool) (a : Attribute) : List Piece :=
  (if moved then [] else [.trivia a.before]) ++
    ((if written then [] else [.trivia a.gap, .trivia a.lead, .value a.value]) ++
      (if moved then [] else [.trivia (a.after.getD [])]))

/-- The pieces of a structure of a body that are kept, given the names of the written attributes and
whether attributes are moved. -/
def Structure.keptPieces (names : List String) (moved : Bool) : Structure → List Piece
  | .attr a => a.keptPieces (names.contains a.name) moved
  | .block b => b.pieces

/-- The pieces of a block that are kept. -/
def Block.keptPieces (names : List String) (moved : Bool) (b : Block) : List Piece :=
  b.opening ++ b.body.flatMap (Structure.keptPieces names moved) ++ b.closing

/-- The pieces of structures that are kept, given the names of the attributes that are written to each
block and whether its attributes are moved; blocks are counted from a rank on. -/
def keptPiecesOf (names : Nat → List String) (moved : Nat → Bool) : Nat → List Structure → List Piece
  | _, [] => []
  | n, .attr a :: rest => a.pieces ++ keptPiecesOf names moved n rest
  | n, .block b :: rest =>
    b.keptPieces (names n) (moved n) ++ keptPiecesOf names moved (n + 1) rest

end Hcl

namespace ModuleFile

/-- Whether writing attributes moves those that the block of a rank has: it was on one line, and one
that is written is new. -/
def moves (f : ModuleFile) (names : Nat → List String) (n : Nat) : Bool :=
  f.document.blocks[n]?.any fun b =>
    f.onOneLine b && (names n).any fun name => (b.attribute? name).isNone

/-- The pieces of a file that are kept, given the names of the attributes that are written to each
block. -/
def keptPieces (f : ModuleFile) (names : Nat → List String) : List Piece :=
  keptPiecesOf names (f.moves names) 0 f.document.structures ++ [.trivia f.document.closing]

/-- The comments in a piece of a file. Those in a value are the ones that its tree holds and that
stand in the text of the file. -/
def comments (f : ModuleFile) (p : Piece) : List (List Char) :=
  p.comments fun e => e.comments.filter fun c => c <:+: f.source.toList

end ModuleFile

/-! ## One write -/

section Writes

variable {f : ModuleFile} {b c : Block} {attr : String × PatchAttribute}
  {inValue : Expr → List (List Char)} {names : List String} {moved : Bool}

/-- The comments in what is kept of structures. -/
def keptComments (inValue : Expr → List (List Char)) (names : List String) (moved : Bool)
    (body : List Structure) : List (List Char) :=
  body.flatMap fun s => (s.keptPieces names moved).flatMap (Piece.comments inValue)

theorem keptComments_append (ss ts : List Structure) :
    keptComments inValue names moved (ss ++ ts) =
      keptComments inValue names moved ss ++ keptComments inValue names moved ts :=
  List.flatMap_append

/-- A written attribute keeps what stands around it. -/
theorem keptComments_replaceAttribute {name : String} (hname : name ∈ names) (e : Expr)
    (body : List Structure) :
    keptComments inValue names moved (replaceAttribute name e body) =
      keptComments inValue names moved body := by
  induction body with
  | nil => rfl
  | cons s rest ih =>
    cases s with
    | block b => exact congrArg (_ ++ ·) ih
    | attr a =>
      rw [replaceAttribute]
      split
      · next heq =>
        have hsame : (Structure.attr ⟨a.before, name, [' '], [' '], e, a.after, none⟩).keptPieces names
            moved = (Structure.attr a).keptPieces names moved := by
          simp [Structure.keptPieces, Attribute.keptPieces, beq_iff_eq.1 heq, hname]
        rw [keptComments, List.flatMap_cons, hsame]
        rfl
      · exact congrArg (_ ++ ·) ih

/-- A new attribute has no comments. -/
theorem keptComments_insertAttribute {name : String} (hname : name ∈ names) (e : Expr)
    {indent : Trivia} (hindent : ∀ c ∈ indent, isBlankChar c = true) (body : List Structure) :
    keptComments inValue names moved
        (insertAttribute ⟨indent, name, [' '], [' '], e, none, none⟩ body) =
      keptComments inValue names moved body := by
  obtain ⟨front, back, rfl, hinsert, -, -⟩ :=
    insertAttribute_eq ⟨indent, name, [' '], [' '], e, none, none⟩ body
  have hnew : keptComments inValue names moved
      [.attr ⟨indent, name, [' '], [' '], e, none, none⟩] = [] := by
    cases moved <;> simp [keptComments, Structure.keptPieces, Attribute.keptPieces, hname,
      Piece.comments, commentsOf_of_blank hindent, commentsOf_of_blank (t := [])]
  rw [hinsert, keptComments_append, ← List.singleton_append, keptComments_append, hnew,
    List.nil_append, keptComments_append]

/-- Attributes that are moved keep their own comments. -/
theorem keptComments_reflow (indent : Trivia) (body : List Structure) :
    keptComments inValue names true (reflow indent body) =
      keptComments inValue names true body := by
  induction body with
  | nil => rfl
  | cons s rest ih => cases s <;> exact congrArg (_ ++ ·) ih

/-- **One write** changes none of the comments that are kept. -/
theorem comments_rewriteBlock? (h : f.rewriteBlock? b attr = some c) (hname : attr.1 ∈ names)
    (hmoved : f.onOneLine b = true → b.attribute? attr.1 = none → moved = true) :
    (c.keptPieces names moved).flatMap (Piece.comments inValue) =
      (b.keptPieces names moved).flatMap (Piece.comments inValue) := by
  obtain ⟨-, e, -, rfl⟩ := rewriteBlock?_eq_some h
  have hblank := indentFor_blank f b attr.1
  have hbody : keptComments inValue names moved (setAttribute (f.indentFor b attr.1)
      (f.onOneLine b) attr.1 e b.body) = keptComments inValue names moved b.body := by
    rw [setAttribute]
    split
    · exact keptComments_replaceAttribute hname e b.body
    · next hany =>
      rw [keptComments_insertAttribute hname e hblank]
      split
      · next hline =>
        have hnone : b.attribute? attr.1 = none := by
          rw [any_name_eq] at hany
          simpa [Block.attribute?] using hany
        rw [hmoved hline hnone]
        exact keptComments_reflow _ b.body
      · rfl
  have hflat : ∀ body : List Structure, (body.flatMap (Structure.keptPieces names moved)).flatMap
      (Piece.comments inValue) = keptComments inValue names moved body := fun body =>
    List.flatMap_assoc
  simp only [Block.keptPieces, List.flatMap_append, hflat, hbody]
  rfl

/-- Attributes stay where they are, with other values. -/
theorem isSome_attribute?_rewriteBlock? (h : f.rewriteBlock? b attr = some c) {name : String}
    (hb : (b.attribute? name).isSome = true) : (c.attribute? name).isSome = true := by
  by_cases hname : name = attr.1
  · subst hname
    obtain ⟨e, after, -, hself⟩ := attribute?_rewriteBlock? h
    rw [hself]
    rfl
  · rcases attribute?_rewriteBlock?_of_ne h hname with hsame | ⟨-, hmoved⟩
    · rw [hsame, hb]
    · rw [hmoved, Option.isSome_map, hb]

/-- **Writes to a block** change none of the comments that are kept. -/
theorem comments_of_written {attrs : List (String × PatchAttribute)}
    (h : attrs.foldlM f.rewriteBlock? b = some c) (hnames : ∀ attr ∈ attrs, attr.1 ∈ names)
    (hmoved : ∀ attr ∈ attrs, f.onOneLine b = true → b.attribute? attr.1 = none → moved = true) :
    (c.keptPieces names moved).flatMap (Piece.comments inValue) =
      (b.keptPieces names moved).flatMap (Piece.comments inValue) := by
  induction attrs generalizing b with
  | nil =>
    obtain rfl := Option.some.inj h
    rfl
  | cons attr rest ih =>
    obtain ⟨b', hb', h⟩ := Option.bind_eq_some_iff.1 h
    rw [List.forall_mem_cons] at hnames hmoved
    have hline : f.onOneLine b' = f.onOneLine b := by
      obtain ⟨-, e, -, rfl⟩ := rewriteBlock?_eq_some hb'
      rfl
    refine (ih h hnames.2 fun other hother hone hnone => hmoved.2 other hother (hline ▸ hone) ?_).trans
      (comments_rewriteBlock? hb' hnames.1 hmoved.1)
    refine Option.not_isSome_iff_eq_none.1 fun hsome => ?_
    have hstill := isSome_attribute?_rewriteBlock? hb' hsome
    rw [hnone] at hstill
    cases hstill

end Writes

/-! ## Documents -/

namespace Hcl

variable {names : Nat → List String} {moved : Nat → Bool} {inValue : Expr → List (List Char)}

theorem Attribute.keptPieces_sublist (written moved : Bool) (a : Attribute) :
    (a.keptPieces written moved).Sublist a.pieces := by
  cases written <;> cases moved <;> simp [keptPieces, pieces]

theorem flatMap_keptPieces_sublist (names : List String) (moved : Bool) (body : List Structure) :
    (body.flatMap (Structure.keptPieces names moved)).Sublist (piecesOf body) := by
  induction body with
  | nil => exact List.Sublist.refl _
  | cons s rest ih =>
    rw [List.flatMap_cons, piecesOf]
    refine List.Sublist.append ?_ ih
    cases s with
    | attr a => exact a.keptPieces_sublist _ _
    | block b => exact List.Sublist.refl _

theorem keptPiecesOf_sublist (n : Nat) (ss : List Structure) :
    (keptPiecesOf names moved n ss).Sublist (piecesOf ss) := by
  induction ss generalizing n with
  | nil => exact List.Sublist.refl _
  | cons s rest ih =>
    cases s with
    | attr a => exact (List.Sublist.refl a.pieces).append (ih n)
    | block b =>
      refine List.Sublist.append ?_ (ih (n + 1))
      rw [Structure.pieces, Block.pieces_eq]
      exact ((List.Sublist.refl _).append (flatMap_keptPieces_sublist _ _ b.body)).append
        (List.Sublist.refl _)

/-- Structures that differ in blocks alone have the same comments if their blocks have. -/
theorem comments_of_edited {written : List Nat} {n : Nat} {ss ts : List Structure}
    (h : Edited written n ss ts)
    (hblocks : ∀ (k : Nat) (b : Block), (blocksOf ss)[k]? = some b →
      ∃ c : Block, (blocksOf ts)[k]? = some c ∧
      (c.keptPieces (names (n + k)) (moved (n + k))).flatMap (Piece.comments inValue) =
        (b.keptPieces (names (n + k)) (moved (n + k))).flatMap (Piece.comments inValue)) :
    (keptPiecesOf names moved n ts).flatMap (Piece.comments inValue) =
      (keptPiecesOf names moved n ss).flatMap (Piece.comments inValue) := by
  induction h with
  | nil => rfl
  | @cons n s t ss ts hs hmore ih =>
    have hblock : ∀ b c, s = .block b → t = .block c →
        (keptPiecesOf names moved n (t :: ts)).flatMap (Piece.comments inValue) =
          (keptPiecesOf names moved n (s :: ss)).flatMap (Piece.comments inValue) := by
      rintro b c rfl rfl
      obtain ⟨c', hc', hsame⟩ := hblocks 0 b rfl
      obtain rfl := Option.some.inj hc'
      have hrest := ih fun k b' hb' => by
        have hnext := hblocks (k + 1) b' hb'
        rwa [← Nat.add_assoc, Nat.add_right_comm] at hnext
      rw [keptPiecesOf, keptPiecesOf, List.flatMap_append, List.flatMap_append]
      exact congrArg₂ (· ++ ·) hsame hrest
    cases hs with
    | same s =>
      cases s with
      | attr a =>
        rw [keptPiecesOf, keptPiecesOf, List.flatMap_append, List.flatMap_append]
        exact congrArg (_ ++ ·) (ih hblocks)
      | block b => exact hblock b b rfl rfl
    | body b body hwritten => exact hblock b _ rfl rfl

end Hcl

/-! ## Texts -/

/-- The comments in a piece of a file stand in its text. -/
theorem Hcl.Piece.occurs_comments (f : ModuleFile) (p : Piece) : Occurs (f.comments p) p.text := by
  cases p with
  | trivia t => exact occurs_commentsOf t
  | value e => exact e.occurs_comments.sublist List.filter_sublist

/-- What is a comment in a piece of a file that was read is one, and stands in the text of the file. -/
theorem ModuleFile.comments_spec {f : ModuleFile} (hf : Document.read? f.source = some f.document)
    {p : Piece} (hp : p ∈ f.document.pieces) {c : List Char} (hc : c ∈ f.comments p) :
    IsComment c ∧ c <:+: f.source.toList := by
  cases p with
  | trivia t =>
    have htrivia : t ∈ triviaOf f.document.pieces := List.mem_filterMap.2 ⟨_, hp, rfl⟩
    exact ⟨isComment_of_mem hc, ((occurs_commentsOf t).infix_of_mem hc).trans
      ((Document.occurs_trivia hf).infix_of_mem htrivia)⟩
  | value e =>
    obtain ⟨hcomment, htext⟩ := List.mem_filter.1 hc
    obtain ⟨t, -, ht⟩ := List.mem_flatMap.1 hcomment
    exact ⟨isComment_of_mem ht, of_decide_eq_true htext⟩

/-- A comment of a file keeps its line ends when the file is printed. -/
theorem ModuleFile.lineEnds_of_isComment (f : ModuleFile) {c : List Char} (hc : IsComment c)
    (htext : c <:+: f.source.toList) : f.lineEnds c = c := by
  unfold ModuleFile.lineEnds
  split
  · next hall =>
    obtain ⟨front, back, hsplit⟩ := htext
    exact (restores_restoreReturns hall).piece (by rw [← hsplit, List.append_assoc]) fun _ => hc.ends.1
  · rfl

/-- **No other comment is lost.** Take files as they were read and patches that are applied to them
without failure. A file that was not written has its text back. In the text of a file that was written
stand all comments of the file, in their order, but for those between the name and the end of the value
of an attribute that was written, and those around the attribute of a block on one line that got
another attribute. -/
theorem comments_survive {sources : List (Path × String)} {files final : ModuleFiles}
    {patches : List Patch} {notices notices' : List Notice}
    (hread : (readFiles sources).run = (.ok files, notices))
    (hrun : (applyPatches patches).run files = (.ok (), final, notices')) {i : Nat} {path : Path}
    {f : ModuleFile} (hf : files[i]? = some (path, f)) :
    let names := fun n => (Patching.attributesFor files i n patches).map Prod.fst
    ∃ g, final[i]? = some (path, g) ∧ (g.modified = false → g.text = f.source) ∧
      (g.modified = true → Occurs ((f.keptPieces names).flatMap f.comments) g.text.toList) := by
  intro names
  obtain ⟨-, hdocument⟩ := readFiles_fresh hread _ (List.mem_of_getElem? hf)
  have hpatch := Patching.patchAll_of_run hrun
  obtain ⟨g, hg, hfg⟩ := rewritten_patchAll patches files i path f hf
  rw [hpatch] at hg
  refine ⟨g, hg, fun hnot => ?_, fun hmodified => ?_⟩
  · rw [ModuleFile.text_of_not_modified hnot, hfg.source]
  · -- the writes keep the comments of the pieces that are not theirs
    have hkept : (keptPiecesOf names (f.moves names) 0 g.document.structures ++
        [Piece.trivia g.document.closing]).flatMap f.comments = (f.keptPieces names).flatMap f.comments := by
      rw [ModuleFile.keptPieces, List.flatMap_append, List.flatMap_append, hfg.closing]
      refine congrArg (· ++ _) (comments_of_edited hfg.structures ?_)
      intro k b hb
      obtain ⟨g', c, hg', -, hc, hwritten⟩ := block_patchAll (Patched.read hread).indexed
        hpatch hf hb
      obtain ⟨-, rfl⟩ := Prod.mk.inj (Option.some.inj (hg.symm.trans hg'))
      rw [Nat.zero_add]
      refine ⟨c, hc, comments_of_written hwritten
        (fun attr hattr => List.mem_map_of_mem hattr) fun attr hattr hline hnone => ?_⟩
      have hblock : f.document.blocks[k]? = some b := hb
      rw [ModuleFile.moves, hblock, Option.any_some, hline, Bool.true_and, List.any_eq_true]
      exact ⟨attr.1, List.mem_map_of_mem hattr, by rw [hnone]; rfl⟩
    -- and what is kept is printed
    have hprinted : Occurs ((f.keptPieces names).flatMap f.comments) g.document.print := by
      rw [← hkept]
      have hholds : Holds g.document.print (keptPiecesOf names (f.moves names) 0
          g.document.structures ++ [Piece.trivia g.document.closing]) :=
        Occurs.sublist g.document.holds_pieces
          (((keptPiecesOf_sublist 0 _).append (List.Sublist.refl _)).map _)
      exact hholds.flatMap fun p _ => p.occurs_comments f
    rw [ModuleFile.text_of_modified hmodified, String.toList_ofList]
    refine hprinted.conv g.changesEnds_lineEnds fun c hc => ?_
    obtain ⟨p, hp, hcomment⟩ := List.mem_flatMap.1 hc
    have hpiece : p ∈ f.document.pieces :=
      ((keptPiecesOf_sublist 0 f.document.structures).append (List.Sublist.refl _)).subset hp
    obtain ⟨his, htext⟩ := ModuleFile.comments_spec hdocument hpiece hcomment
    exact ⟨his, g.lineEnds_of_isComment his (hfg.source ▸ htext)⟩

/-- Comments before, behind and after an attribute that is written, behind the opening brace, in a
value, in front of the closing brace and in a block that is not written. -/
theorem comments_survive_around :
    let source := "resource k w \x7b # open\n  // one\n  a /* old */ = 1 # two\n  b = [2 /* in */]\n" ++
      "  /* three */\n\x7d // four\nvariable v \x7b /* five */ default = 1 \x7d\n# six\n"
    let overlay := "patch k w \x7b\n  a = 2\n  c = 3\n\x7d\n"
    let patches := (Overlay.read overlay ⟨"o"⟩).run.1.toOption.getD []
    let files := (readFiles [(⟨"main.tf"⟩, source)]).run.1.toOption.getD []
    let final := ((applyPatches patches).run files).2.1
    ∀ path f, files[0]? = some (path, f) → ∃ g, final[0]? = some (path, g) ∧
      Occurs (["# open", "// one", "# two", "/* in */", "/* three */", "// four", "/* five */",
        "# six"].map String.toList) g.text.toList := by
  intro source overlay patches files final path f hf
  obtain ⟨hfiles, hrun, hcomments, hmodified⟩ :
      (readFiles [(⟨"main.tf"⟩, source)]).run.1.isOk = true ∧
      ((applyPatches patches).run files).1.isOk = true ∧
      (∀ e ∈ files, (e.2.keptPieces fun n =>
        (Patching.attributesFor files 0 n patches).map Prod.fst).flatMap e.2.comments =
          ["# open", "// one", "# two", "/* in */", "/* three */", "// four", "/* five */",
            "# six"].map String.toList) ∧
      ∀ e ∈ final, e.2.modified = true := by
    decide +kernel
  obtain ⟨g, hg, -, hoccurs⟩ := comments_survive (eq_ok_of_isOk hfiles)
    (patchingRun_eq_of_isOk hrun) hf
  refine ⟨g, hg, ?_⟩
  rw [← hcomments _ (List.mem_of_getElem? hf)]
  exact hoccurs (hmodified _ (List.mem_of_getElem? hg))

end HclOverlay
