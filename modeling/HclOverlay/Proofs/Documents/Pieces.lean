import HclOverlay.Proofs.Documents.Comments
import HclOverlay.Proofs.Documents.Rereading
import HclOverlay.Proofs.Reading.Consumption

/-!
# The pieces of a document

A document holds trivia and values; the rest of its text are names, labels and marks. Both the text
that a document is read from and the text that is printed hold the trivia in the order of the tree.

* `Piece` — trivia or a value; `Structure.pieces`, `Document.pieces` — those of a tree in order.
* `Document.occurs_pieces` — **printing**: the pieces stand in the printed text.
* `Passes` — the texts that reading passes over. `Document.occurs_trivia` — **reading**: the trivia
  stands in the text that was read.
-/

namespace HclOverlay.Hcl

open Reader

/-- Trivia or a value. -/
inductive Piece where
  | trivia (t : Trivia)
  | value (e : Expr)

namespace Piece

/-- The text of a piece. -/
def text : Piece → List Char
  | .trivia t => t
  | .value e => e.print

/-- The trivia a piece is. -/
def trivia? : Piece → Option Trivia
  | .trivia t => some t
  | .value _ => none

/-- The comments of a piece, given those of the values. -/
def comments (inValue : Expr → List (List Char)) : Piece → List (List Char)
  | .trivia t => commentsOf t
  | .value e => inValue e

end Piece

/-- The trivia among pieces. -/
def triviaOf (ps : List Piece) : List Trivia := ps.filterMap Piece.trivia?

/-! ## The pieces of a tree -/

/-- The pieces of an attribute. -/
def Attribute.pieces (a : Attribute) : List Piece :=
  [.trivia a.before, .trivia a.gap, .trivia a.lead, .value a.value, .trivia (a.after.getD [])]

/-- What stands in front of a body. -/
def Layout.opening : Layout → List Piece
  | .lines opening _ => [.trivia opening]
  | .oneLine _ => []

/-- What stands behind a body. -/
def Layout.closing : Layout → List Piece
  | .lines _ closing => [.trivia closing]
  | .oneLine enclosed => [.trivia enclosed]

/-- What stands in front of the body of a block. -/
def Block.opening (b : Block) : List Piece :=
  .trivia b.before :: .trivia b.gap :: b.labels.map (.trivia ·.after) ++ b.layout.opening

/-- What stands behind the body of a block. -/
def Block.closing (b : Block) : List Piece := b.layout.closing ++ [.trivia b.after]

mutual

/-- The pieces of a structure, in order. -/
def Structure.pieces : Structure → List Piece
  | .attr a => a.pieces
  | .block b => b.pieces
termination_by structural s => s

/-- The pieces of a block, in order. -/
def Block.pieces : Block → List Piece
  | ⟨before, kind, gap, labels, layout, body, after, span⟩ =>
    Block.opening ⟨before, kind, gap, labels, layout, body, after, span⟩ ++ piecesOf body ++
      Block.closing ⟨before, kind, gap, labels, layout, body, after, span⟩
termination_by structural b => b

/-- The pieces of structures, in order. -/
def piecesOf : List Structure → List Piece
  | [] => []
  | first :: rest => first.pieces ++ piecesOf rest
termination_by structural ss => ss

end

theorem Block.pieces_eq (b : Block) : b.pieces = b.opening ++ piecesOf b.body ++ b.closing := by
  cases b
  rfl

/-- The pieces of a document, in order. -/
def Document.pieces (d : Document) : List Piece := piecesOf d.structures ++ [.trivia d.closing]

/-! ## Printing -/

/-- The texts of pieces stand in a text, one behind the other. -/
def Holds (cs : List Char) (ps : List Piece) : Prop := Occurs (ps.map Piece.text) cs

theorem Holds.append {x y : List Char} {ps qs : List Piece} (h : Holds x ps) (h' : Holds y qs) :
    Holds (x ++ y) (ps ++ qs) := by
  rw [Holds, List.map_append]
  exact Occurs.append h h'

theorem holds_trivia (t : Trivia) : Holds t [.trivia t] := occurs_singleton t

theorem Attribute.holds_pieces (a : Attribute) (side : Trivia) : Holds (a.print side) a.pieces := by
  have hafter : Holds (a.after.getD side) [.trivia (a.after.getD [])] := by
    cases a.after with
    | none => exact ⟨[], side, rfl, trivial⟩
    | some after => exact holds_trivia after
  have hvalue : Holds a.value.print [.value a.value] := occurs_singleton _
  have hprint : a.print side = a.before ++ (a.name.toList ++ (a.gap ++ (['='] ++ (a.lead ++
      (a.value.print ++ a.after.getD side))))) := by simp [Attribute.print]
  rw [hprint]
  exact (holds_trivia a.before).append (((holds_trivia a.gap).append
    (((holds_trivia a.lead).append (hvalue.append hafter)).prepend ['='])).prepend a.name.toList)

theorem holds_labels (ls : List Label) :
    Holds (ls.flatMap Label.print) (ls.map (.trivia ·.after)) := by
  induction ls with
  | nil => trivial
  | cons l rest ih =>
    have hlabel : Holds l.print [.trivia l.after] := (holds_trivia l.after).prepend _
    exact hlabel.append ih

theorem Layout.holds_print (layout : Layout) {body : List Structure}
    (h : Holds (printLines body) (piecesOf body)) :
    Holds (layout.print body) (layout.opening ++ piecesOf body ++ layout.closing) := by
  match layout, body with
  | .lines opening closing, body =>
    rw [List.append_assoc]
    exact (holds_trivia opening).append ((h.append (holds_trivia closing)).prepend ['\n'])
  | .oneLine enclosed, [] => exact holds_trivia enclosed
  | .oneLine enclosed, [.attr a] => exact (a.holds_pieces [' ']).append (holds_trivia enclosed)
  | .oneLine enclosed, .attr _ :: _ :: _ => exact (h.append (holds_trivia enclosed)).prepend ['\n']
  | .oneLine enclosed, .block _ :: _ => exact (h.append (holds_trivia enclosed)).prepend ['\n']

theorem Block.holds_of_body {b : Block} (h : Holds (printLines b.body) (piecesOf b.body)) :
    Holds b.print b.pieces := by
  have hprint : b.print = b.before ++ (b.kind.toList ++ (b.gap ++ (b.labels.flatMap Label.print ++
      (['{'] ++ (b.layout.print b.body ++ (['}'] ++ b.after)))))) := by
    simpa using b.print_append []
  have hbody := (b.layout.holds_print h).append ((holds_trivia b.after).prepend ['}'])
  have hlabels := (holds_labels b.labels).append (hbody.prepend ['{'])
  have hall := (holds_trivia b.before).append
    (((holds_trivia b.gap).append hlabels).prepend b.kind.toList)
  rw [hprint, Block.pieces_eq]
  simpa [Block.opening, Block.closing, Holds] using hall

mutual

/-- The pieces of a structure stand in its text. -/
theorem Structure.holds_pieces (s : Structure) : Holds s.print s.pieces := by
  match s with
  | .attr a => exact a.holds_pieces []
  | .block b => exact b.holds_pieces
termination_by structural s

theorem Block.holds_pieces (b : Block) : Holds b.print b.pieces := by
  match b with
  | ⟨before, kind, gap, labels, layout, body, after, span⟩ =>
    exact Block.holds_of_body (holds_piecesOf body)
termination_by structural b

theorem holds_piecesOf (ss : List Structure) : Holds (printLines ss) (piecesOf ss) := by
  match ss with
  | [] => trivial
  | first :: rest => exact first.holds_pieces.append ((holds_piecesOf rest).prepend ['\n'])
termination_by structural ss

end

/-- The last line needs no end. -/
theorem holds_dropLast (ss : List Structure) : Holds (printLines ss).dropLast (piecesOf ss) := by
  induction ss with
  | nil => trivial
  | cons first rest ih =>
    rw [printLines, List.dropLast_append_of_ne_nil (List.cons_ne_nil _ _)]
    refine first.holds_pieces.append ?_
    cases rest with
    | nil => trivial
    | cons second rest =>
      have hne : printLines (second :: rest) ≠ [] := by
        rw [printLines]
        exact List.append_ne_nil_of_right_ne_nil _ (List.cons_ne_nil _ _)
      rw [List.dropLast_cons_of_ne_nil hne]
      exact ih.prepend ['\n']

/-- **The pieces of a document** stand in the text that is printed, in order. -/
theorem Document.holds_pieces (d : Document) : Holds d.print d.pieces := by
  rw [Document.print, Document.pieces]
  refine Holds.append ?_ (holds_trivia d.closing)
  split
  · exact holds_piecesOf d.structures
  · exact holds_dropLast d.structures

/-! ## Reading -/

/-- Reading passes from a text to a rest of it, and over the given texts on the way. -/
def Passes (ts : List (List Char)) (cs rest : List Char) : Prop :=
  ∃ used, cs = used ++ rest ∧ Occurs ts used

section

variable {ts us : List (List Char)} {cs mid rest : List Char}

theorem Passes.append (h : Passes ts cs mid) (h' : Passes us mid rest) :
    Passes (ts ++ us) cs rest := by
  obtain ⟨used, rfl, hused⟩ := h
  obtain ⟨more, rfl, hmore⟩ := h'
  exact ⟨used ++ more, by simp, hused.append hmore⟩

theorem passes_nil (h : rest <:+ cs) : Passes [] cs rest := by
  obtain ⟨used, rfl⟩ := h
  exact ⟨used, rfl, trivial⟩

/-- Nothing that matters is passed over first. -/
theorem Passes.behind (h : Passes ts mid rest) (hmid : mid <:+ cs) : Passes ts cs rest :=
  (passes_nil hmid).append h

/-- Nothing that matters is passed over last. -/
theorem Passes.before (h : Passes ts cs mid) (hrest : rest <:+ mid) : Passes ts cs rest := by
  have hall := h.append (passes_nil hrest)
  rwa [List.append_nil] at hall

theorem passes_singleton {t : List Char} (h : cs = t ++ rest) : Passes [t] cs rest :=
  ⟨t, h, occurs_singleton t⟩

end

theorem triviaOf_append (ps qs : List Piece) : triviaOf (ps ++ qs) = triviaOf ps ++ triviaOf qs :=
  List.filterMap_append

theorem triviaOf_cons (t : Trivia) (ps : List Piece) :
    triviaOf (.trivia t :: ps) = t :: triviaOf ps := rfl

theorem triviaOf_labels (ls : List Label) :
    triviaOf (ls.map (.trivia ·.after)) = ls.map Label.after := by
  induction ls with
  | nil => rfl
  | cons l rest ih => exact congrArg (l.after :: ·) ih

theorem Block.triviaOf_pieces (b : Block) :
    triviaOf b.pieces = [b.before, b.gap] ++ (b.labels.map Label.after ++
      (triviaOf (b.layout.opening ++ piecesOf b.body ++ b.layout.closing) ++ [b.after])) := by
  have hafter : triviaOf [.trivia b.after] = [b.after] := rfl
  rw [Block.pieces_eq, Block.opening, Block.closing]
  simp only [List.cons_append, triviaOf_cons, triviaOf_append, triviaOf_labels, hafter,
    List.nil_append, List.append_assoc]

namespace Reader

variable {cs rest : List Char}

theorem label_passes {l : Label} (h : label cs = .ok (l, rest)) : Passes [l.after] cs rest := by
  obtain ⟨o, mid, hname, h⟩ := bind_eq_ok h
  have hmid : mid <:+ cs := Consumes.leaves hname
  cases o with
  | some name =>
    obtain ⟨after, last, hafter, h⟩ := bind_eq_ok h
    obtain ⟨rfl, rfl⟩ := pure_eq_ok h
    exact (passes_singleton (blank_eq_ok hafter).1).behind hmid
  | none =>
    obtain ⟨content, c₁, hcontent, h⟩ := bind_eq_ok h
    obtain ⟨after, last, hafter, h⟩ := bind_eq_ok h
    obtain ⟨rfl, rfl⟩ := pure_eq_ok h
    exact (passes_singleton (blank_eq_ok hafter).1).behind ((Consumes.leaves hcontent).trans hmid)

theorem labels_passes {n : Nat} {ls : List Label} (h : labels n cs = .ok (ls, rest)) :
    Passes (ls.map Label.after) cs rest := by
  induction n generalizing cs ls with
  | zero => cases h
  | succ n ih =>
    obtain ⟨o, mid, hlabel, hlabels⟩ := bind_eq_ok h
    rcases opt_eq_ok hlabel with ⟨l, rfl, hl⟩ | ⟨rfl, -, rfl⟩
    · obtain ⟨more, last, hmore, hlabels⟩ := bind_eq_ok hlabels
      obtain ⟨rfl, rfl⟩ := pure_eq_ok hlabels
      exact (label_passes hl).append (ih hmore)
    · obtain ⟨rfl, rfl⟩ := pure_eq_ok hlabels
      exact passes_nil (List.suffix_refl _)

theorem attributeAt_passes {size start : Nat} {before gap : Trivia} {name : String} {a : Attribute}
    (h : attributeAt size start before name gap cs = .ok (a, rest)) : Passes [a.lead] cs rest := by
  obtain ⟨u, c₁, hequals, h⟩ := bind_eq_ok h
  obtain ⟨lead, c₂, hlead, h⟩ := bind_eq_ok h
  obtain ⟨value, c₃, hvalue, h⟩ := bind_eq_ok h
  obtain ⟨stop, c₄, hstop, h⟩ := bind_eq_ok h
  cases hstop
  obtain ⟨rfl, rfl⟩ := pure_eq_ok h
  exact ((passes_singleton (blank_eq_ok hlead).1).behind (Consumes.leaves hequals)).before
    (Consumes.leaves hvalue)

/-- What a reader of bodies passes over. -/
def PassesTrivia (body : Reader (List Structure)) : Prop :=
  ∀ {cs rest : List Char} {ss : List Structure}, body cs = .ok (ss, rest) →
    Passes (triviaOf (piecesOf ss)) cs rest

theorem bodyOfLines_passes {body : Reader (List Structure)} (hbody : PassesTrivia body)
    {layout : Layout} {ss : List Structure} (h : bodyOfLines body cs = .ok ((layout, ss), rest)) :
    Passes (triviaOf (layout.opening ++ piecesOf ss ++ layout.closing)) cs rest := by
  obtain ⟨opening, c₁, hopening, h⟩ := bind_eq_ok h
  obtain ⟨eol, c₂, heol, h⟩ := bind_eq_ok h
  obtain ⟨found, c₃, hfound, h⟩ := bind_eq_ok h
  obtain ⟨closing, c₄, hclosing, h⟩ := bind_eq_ok h
  obtain ⟨u, c₅, hend, h⟩ := bind_eq_ok h
  obtain ⟨heq, rfl⟩ := pure_eq_ok h
  cases heq
  have hfront := (passes_singleton (lineTail_eq_ok hopening).1).before (Consumes.leaves heol)
  have hback := (passes_singleton (white_eq_ok hclosing).1).before (Consumes.leaves hend)
  rw [triviaOf_append, triviaOf_append]
  exact (hfront.append (hbody hfound)).append hback

theorem inlineAttribute_passes {size : Nat} {a : Attribute}
    (h : inlineAttribute size cs = .ok (a, rest)) : Passes (triviaOf a.pieces) cs rest := by
  obtain ⟨before, c₁, hbefore, h⟩ := bind_eq_ok h
  obtain ⟨start, c₂, hstart, h⟩ := bind_eq_ok h
  obtain ⟨name, c₃, hname, h⟩ := bind_eq_ok h
  obtain ⟨gap, c₄, hgap, h⟩ := bind_eq_ok h
  obtain ⟨b, c₅, hb, h⟩ := bind_eq_ok h
  obtain ⟨after, c₆, hafter, h⟩ := bind_eq_ok h
  obtain ⟨rfl, rfl⟩ := pure_eq_ok h
  cases hstart
  obtain ⟨rfl, -, rfl, -, -⟩ := attributeAt_eq_ok hb
  exact (passes_singleton (blank_eq_ok hbefore).1).append
    (((passes_singleton (blank_eq_ok hgap).1).behind (Consumes.leaves hname)).append
      ((attributeAt_passes hb).append (passes_singleton (blank_eq_ok hafter).1)))

theorem bodyOnLine_passes {size : Nat} {layout : Layout} {ss : List Structure}
    (h : bodyOnLine size cs = .ok ((layout, ss), rest)) :
    Passes (triviaOf (layout.opening ++ piecesOf ss ++ layout.closing)) cs rest := by
  obtain ⟨o, mid, hattribute, hbody⟩ := bind_eq_ok h
  rcases opt_eq_ok hattribute with ⟨a, rfl, ha⟩ | ⟨rfl, -, rfl⟩
  · obtain ⟨u, last, hend, hbody⟩ := bind_eq_ok hbody
    obtain ⟨heq, rfl⟩ := pure_eq_ok hbody
    cases heq
    exact (inlineAttribute_passes ha).append
      ((passes_singleton (t := []) (List.nil_append _).symm).before (Consumes.leaves hend))
  · obtain ⟨enclosed, last, henclosed, hbody⟩ := bind_eq_ok hbody
    obtain ⟨u, last', hend, hbody⟩ := bind_eq_ok hbody
    obtain ⟨heq, rfl⟩ := pure_eq_ok hbody
    cases heq
    exact (passes_singleton (blank_eq_ok henclosed).1).before (Consumes.leaves hend)

/-- A block, from its labels on, in front of what its line ends with. -/
theorem blockAt_passes {size start : Nat} {body : Reader (List Structure)} [Consumes body]
    (hbody : PassesTrivia body) {before gap : Trivia} {kind : String} {b : Block}
    (h : blockAt size start body before kind gap cs = .ok (b, rest)) :
    b.before = before ∧ b.gap = gap ∧ Passes (b.labels.map Label.after ++
      triviaOf (b.layout.opening ++ piecesOf b.body ++ b.layout.closing)) cs rest := by
  obtain ⟨names, c₁, hnames, h⟩ := bind_eq_ok h
  obtain ⟨u, c₂, hbrace, h⟩ := bind_eq_ok h
  obtain ⟨⟨layout, ss⟩, c₃, hlayout, h⟩ := bind_eq_ok h
  obtain ⟨stop, c₄, hstop, h⟩ := bind_eq_ok h
  cases hstop
  obtain ⟨rfl, rfl⟩ := pure_eq_ok h
  have hlabels : Passes (names.map Label.after) cs c₂ :=
    (labels_passes (n := cs.length + 1) hnames).before (Consumes.leaves hbrace)
  refine ⟨rfl, rfl, hlabels.append ?_⟩
  rcases orElse_eq_ok hlayout with hlines | ⟨-, hline⟩
  · exact bodyOfLines_passes hbody hlines
  · exact bodyOnLine_passes hline

theorem structureLine_passes {size : Nat} {body : Reader (List Structure)} [Consumes body]
    (hbody : PassesTrivia body) {names : List String} {s : Structure} {ended : Bool}
    (h : structureLine size body names cs = .ok ((s, ended), rest)) :
    Passes (triviaOf s.pieces) cs rest := by
  obtain ⟨before, c₁, hbefore, h⟩ := bind_eq_ok h
  obtain ⟨start, c₂, hstart, h⟩ := bind_eq_ok h
  obtain ⟨name, c₃, hname, h⟩ := bind_eq_ok h
  obtain ⟨gap, c₄, hgap, h⟩ := bind_eq_ok h
  obtain ⟨seen, c₅, hseen, hline⟩ := bind_eq_ok h
  cases hstart
  cases hseen
  have hfront : Passes [before, gap] cs c₄ := (passes_singleton (white_eq_ok hbefore).1).append
    ((passes_singleton (blank_eq_ok hgap).1).behind (Consumes.leaves hname))
  split at hline
  · split at hline
    · obtain ⟨u, c₆, habsent, -⟩ := bind_eq_ok hline
      cases habsent
    · obtain ⟨a, c₆, ha, hline⟩ := bind_eq_ok hline
      obtain ⟨after, c₇, hafter, hline⟩ := bind_eq_ok hline
      obtain ⟨e, c₈, he, hline⟩ := bind_eq_ok hline
      obtain ⟨heq, rfl⟩ := pure_eq_ok hline
      cases heq
      have hlead := attributeAt_passes ha
      obtain ⟨rfl, -, rfl, -, -⟩ := attributeAt_eq_ok ha
      exact hfront.append (hlead.append
        ((passes_singleton (lineTail_eq_ok hafter).1).before (Consumes.leaves he)))
  · obtain ⟨b, c₆, hb, hline⟩ := bind_eq_ok hline
    obtain ⟨after, c₇, hafter, hline⟩ := bind_eq_ok hline
    obtain ⟨e, c₈, he, hline⟩ := bind_eq_ok hline
    obtain ⟨heq, rfl⟩ := pure_eq_ok hline
    cases heq
    obtain ⟨rfl, rfl, hinside⟩ := blockAt_passes hbody hb
    have hback := (passes_singleton (lineTail_eq_ok hafter).1).before (Consumes.leaves he)
    rw [Structure.pieces, Block.triviaOf_pieces, ← List.append_assoc (b.labels.map _)]
    exact hfront.append (hinside.append hback)

/-- **Bodies**: reading structures passes over their trivia. -/
theorem structuresWithin_passes {size n : Nat} {names : List String} {ss : List Structure}
    {ended : Bool} (h : structuresWithin size n names cs = .ok ((ss, ended), rest)) :
    Passes (triviaOf (piecesOf ss)) cs rest := by
  induction n generalizing cs rest names ss ended with
  | zero => cases h
  | succ n ih =>
    obtain ⟨o, mid, hline, hss⟩ := bind_eq_ok h
    rcases opt_eq_ok hline with ⟨⟨s, e⟩, rfl, hs⟩ | ⟨rfl, -, rfl⟩
    · have hfirst : Passes (triviaOf s.pieces) cs mid := by
        refine structureLine_passes (fun {cs rest ss} hread => ?_) hs
        -- the body of a block is read with one less depth
        obtain ⟨⟨found, e⟩, last, hfound, hread⟩ := bind_eq_ok hread
        obtain ⟨rfl, rfl⟩ := pure_eq_ok hread
        exact ih hfound
      cases e with
      | true =>
        obtain ⟨⟨more, e⟩, last, hmore, hss⟩ := bind_eq_ok hss
        obtain ⟨heq, rfl⟩ := pure_eq_ok hss
        cases heq
        rw [piecesOf, triviaOf_append]
        exact hfirst.append (ih hmore)
      | false =>
        obtain ⟨heq, rfl⟩ := pure_eq_ok hss
        cases heq
        rw [piecesOf, triviaOf_append]
        exact hfirst.append (passes_nil (List.suffix_refl _))
    · obtain ⟨heq, rfl⟩ := pure_eq_ok hss
      cases heq
      exact passes_nil (List.suffix_refl _)

end Reader

/-- **The trivia of a document** stands in the text that was read, in order. -/
theorem Document.occurs_trivia {source : String} {d : Document} (h : Document.read? source = some d) :
    Occurs (triviaOf d.pieces) source.toList := by
  have hread := all?_eq_some.1 h
  obtain ⟨⟨ss, ended⟩, c₁, hss, hread⟩ := bind_eq_ok hread
  obtain ⟨closing, c₂, hclosing, hread⟩ := bind_eq_ok hread
  obtain ⟨u, c₃, hend, hread⟩ := bind_eq_ok hread
  obtain ⟨rfl, rfl⟩ := pure_eq_ok hread
  have hall := (structuresWithin_passes hss).append (passes_singleton (white_eq_ok hclosing).1)
  obtain ⟨used, hsplit, hused⟩ := hall
  rw [Document.pieces, triviaOf_append, hsplit]
  exact hused.extend _

end HclOverlay.Hcl
