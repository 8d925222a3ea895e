import HclOverlay.Hcl.Reader.Body
import HclOverlay.Proofs.Reading.Rules

/-!
# The shape of documents

A document that was read holds more than its tree says: names are names, trivia is trivia, and no
attribute comes twice in a body. All of it is needed to read the document again from the text it is
printed as, and none of it speaks about the values of attributes.

* `Attribute.Shaped`, `Block.Headed`, `Structure.Shaped`, `Document.Shaped` — the shape.
* `Distinct` — no attribute twice.
* `shaped_of_read?` — **what is read has this shape**, by induction on the depth of the reader.
-/

namespace HclOverlay.Hcl

open Reader

/-! ## Shapes -/

/-- An attribute on a line of its own. -/
structure Attribute.Shaped (a : Attribute) : Prop where
  before : Skips true a.before
  name : Text.isIdentifier a.name = true
  gap : Skips false a.gap
  lead : Skips false a.lead
  after : ∀ t ∈ a.after, Tails false t

/-- The text of labels up to the opening brace. -/
def labelsText (labels : List Label) : List Char := labels.flatMap Label.print ++ ['{']

/-- Labels that can be told apart: a bare one is a name, and it ends where it should. -/
def LabelsShaped : List Label → Prop
  | [] => True
  | l :: rest =>
    Skips false l.after ∧
      (l.quoted = false → Text.isIdentifier l.text = true ∧ EndsName (l.after ++ labelsText rest)) ∧
      LabelsShaped rest

/-- What stands in front of the body of a block and behind it. -/
structure Block.Headed (b : Block) : Prop where
  before : Skips true b.before
  kind : Text.isIdentifier b.kind = true
  gap : Skips false b.gap
  apart : EndsName (b.gap ++ labelsText b.labels)
  labels : LabelsShaped b.labels
  after : Tails false b.after

/-- No attribute of a body has the name of another, nor any of the given names. -/
def Distinct (names : List String) : List Structure → Prop
  | [] => True
  | .attr a :: rest => a.name ∉ names ∧ Distinct (a.name :: names) rest
  | .block _ :: rest => Distinct names rest

/-- The trivia of a layout. On one line, a single attribute has blanks around itself. -/
def Layout.Shaped : Layout → List Structure → Prop
  | .lines opening closing, _ => Tails false opening ∧ Skips true closing
  | .oneLine blanks, [.attr a] =>
    Skips false blanks ∧ Skips false a.before ∧ ∀ t ∈ a.after, Skips false t
  | .oneLine blanks, _ => Skips false blanks

/-- An attribute or a block on lines of its own. -/
inductive Structure.Shaped : Structure → Prop
  | attr {a : Attribute} (h : a.Shaped) : Shaped (.attr a)
  | block {b : Block} (head : b.Headed) (layout : b.layout.Shaped b.body)
      (distinct : Distinct [] b.body) (body : ∀ s ∈ b.body, Shaped s) : Shaped (.block b)

/-- The structures of a document and the trivia behind them. -/
structure Document.Shaped (d : Document) : Prop where
  structures : ∀ s ∈ d.structures, s.Shaped
  distinct : Distinct [] d.structures
  closing : Tails true d.closing
  /-- nothing stands behind a line that does not end -/
  unended : d.endsLine = false → d.closing = []

theorem Structure.Shaped.of_attr {a : Attribute} (h : (Structure.attr a).Shaped) : a.Shaped := by
  cases h with
  | attr h => exact h

/-! ## Names and attributes -/

namespace Reader

variable {cs rest : List Char}

/-- A name is read up to where it ends. -/
theorem identifier_eq_ok {name : String} (h : identifier cs = .ok (name, rest)) :
    cs = name.toList ++ rest ∧ Text.isIdentifier name = true ∧ EndsName rest := by
  cases cs with
  | nil => cases h
  | cons c tail =>
    rw [identifier] at h
    split at h
    · next hc =>
      rw [List.span_eq_takeWhile_dropWhile] at h
      cases h
      refine ⟨by simp [List.takeWhile_append_dropWhile], ?_, fun d hd => ?_⟩
      · rw [Text.isIdentifier, String.toList_ofList, Text.isIdentifierChars, hc, Bool.true_and]
        exact List.all_takeWhile
      · have hhead := List.head?_dropWhile_not Text.isIdentifierContinue tail
        cases hdrop : tail.dropWhile Text.isIdentifierContinue with
        | nil =>
          rw [hdrop] at hd
          cases hd
        | cons e more =>
          rw [hdrop] at hd hhead
          obtain rfl : e = d := Option.some.inj hd
          simpa using hhead
    · cases h

theorem identifier_ne_nil {name : String} (h : identifier cs = .ok (name, rest)) : cs ≠ [] := by
  rintro rfl
  cases h

/-- An attribute that was read has the parts it was read with, and blanks behind its sign. -/
theorem attributeAt_eq_ok {size start : Nat} {before gap : Trivia} {name : String} {a : Attribute}
    (h : attributeAt size start before name gap cs = .ok (a, rest)) :
    a.before = before ∧ a.name = name ∧ a.gap = gap ∧ Skips false a.lead ∧ a.after = none := by
  obtain ⟨-, mid, -, h⟩ := bind_eq_ok h
  obtain ⟨lead, mid, hlead, h⟩ := bind_eq_ok h
  obtain ⟨value, mid, -, h⟩ := bind_eq_ok h
  obtain ⟨stop, mid, -, h⟩ := bind_eq_ok h
  obtain ⟨rfl, -⟩ := pure_eq_ok h
  exact ⟨rfl, rfl, rfl, (blank_eq_ok hlead).2.2, rfl⟩

/-! ## Blocks -/

/-- A line that does not end is the last of the text. -/
theorem lineEndOrEnd_eq_ok {ended : Bool} (h : lineEndOrEnd cs = .ok (ended, rest)) :
    ended = false → rest = [] := by
  rcases orElse_eq_ok h with h | ⟨-, h⟩
  · obtain ⟨u, mid, hend, h⟩ := bind_eq_ok h
    obtain ⟨-, rfl⟩ := pure_eq_ok h
    cases cs with
    | nil =>
      cases hend
      exact fun _ => rfl
    | cons c tail => cases hend
  · obtain ⟨eol, mid, -, h⟩ := bind_eq_ok h
    obtain ⟨rfl, -⟩ := pure_eq_ok h
    exact nofun

/-- A label that was read, and how its text starts. -/
theorem label_eq_ok {l : Label} (h : label cs = .ok (l, rest)) :
    Skips false l.after ∧
      (l.quoted = false → Text.isIdentifier l.text = true ∧ EndsName (l.after ++ rest) ∧
        cs = l.text.toList ++ (l.after ++ rest)) ∧
      (l.quoted = true → cs.head? = some '"') := by
  obtain ⟨o, mid, hname, hlabel⟩ := bind_eq_ok h
  rcases opt_eq_ok hname with ⟨name, rfl, hread⟩ | ⟨rfl, -, rfl⟩
  · obtain ⟨after, last, hafter, hlabel⟩ := bind_eq_ok hlabel
    obtain ⟨rfl, rfl⟩ := pure_eq_ok hlabel
    obtain ⟨hcs, hid, hends⟩ := identifier_eq_ok hread
    obtain ⟨rfl, -, hskips⟩ := blank_eq_ok hafter
    exact ⟨hskips, fun _ => ⟨hid, hends, hcs⟩, nofun⟩
  · obtain ⟨content, mid, hcontent, hlabel⟩ := bind_eq_ok hlabel
    obtain ⟨after, last, hafter, hlabel⟩ := bind_eq_ok hlabel
    obtain ⟨rfl, rfl⟩ := pure_eq_ok hlabel
    obtain ⟨u, tail, hquote, -⟩ := bind_eq_ok hcontent
    exact ⟨(blank_eq_ok hafter).2.2, nofun, fun _ => by rw [char_eq_ok hquote]; rfl⟩

theorem EndsName.of_head {t a b : List Char} (h : EndsName (t ++ a)) (hab : a.head? = b.head?) :
    EndsName (t ++ b) := by
  cases t with
  | nil =>
    intro c hc
    exact h c (hab ▸ hc)
  | cons d t => exact h

theorem head?_labelsText_bare {l : Label} (hq : l.quoted = false) {more : List Char}
    (hid : Text.isIdentifier l.text = true) (rest : List Label) :
    (l.text.toList ++ more).head? = (labelsText (l :: rest)).head? := by
  have hlabels : labelsText (l :: rest) = l.text.toList ++ (l.after ++ labelsText rest) := by
    simp [labelsText, Label.print, hq]
  rw [hlabels]
  cases htext : l.text.toList with
  | nil => simp [Text.isIdentifier, htext, Text.isIdentifierChars] at hid
  | cons c tail => rfl

theorem head?_labelsText_quoted {l : Label} (hq : l.quoted = true) (rest : List Label) :
    (labelsText (l :: rest)).head? = some '"' := by
  simp [labelsText, Label.print, hq, Quoted.quoteAll]

/-- Labels that were read can be told apart, and their text starts like the one they were read
from. -/
theorem labels_eq_ok {n : Nat} {ls : List Label} (h : labels n cs = .ok (ls, '{' :: rest)) :
    LabelsShaped ls ∧ cs.head? = (labelsText ls).head? := by
  induction n generalizing cs ls with
  | zero => cases h
  | succ n ih =>
    obtain ⟨o, mid, hlabel, hmore⟩ := bind_eq_ok h
    rcases opt_eq_ok hlabel with ⟨l, rfl, hl⟩ | ⟨rfl, -, rfl⟩
    · obtain ⟨more, last, hlabels, hmore⟩ := bind_eq_ok hmore
      obtain ⟨rfl, rfl⟩ := pure_eq_ok hmore
      obtain ⟨hafter, hbare, hquoted⟩ := label_eq_ok hl
      obtain ⟨hshaped, hhead⟩ := ih hlabels
      cases hq : l.quoted with
      | false =>
        obtain ⟨hid, hends, hcs⟩ := hbare hq
        refine ⟨⟨hafter, fun _ => ⟨hid, hends.of_head hhead⟩, hshaped⟩, ?_⟩
        rw [hcs]
        exact head?_labelsText_bare hq hid more
      | true =>
        refine ⟨⟨hafter, fun h => absurd (hq.symm.trans h) (by decide), hshaped⟩, ?_⟩
        rw [hquoted hq, head?_labelsText_quoted hq]
    · obtain ⟨rfl, hcs⟩ := pure_eq_ok hmore
      exact ⟨trivial, by rw [← hcs]; rfl⟩

/-- The body of a block on one line has a single attribute or none. -/
theorem bodyOnLine_eq_ok {size : Nat} {layout : Layout} {body : List Structure}
    (h : bodyOnLine size cs = .ok ((layout, body), rest)) :
    layout.Shaped body ∧ Distinct [] body ∧ ∀ s ∈ body, s.Shaped := by
  obtain ⟨o, mid, hattr, hbody⟩ := bind_eq_ok h
  rcases opt_eq_ok hattr with ⟨a, rfl, ha⟩ | ⟨rfl, -, rfl⟩
  · obtain ⟨u, last, -, hbody⟩ := bind_eq_ok hbody
    obtain ⟨heq, -⟩ := pure_eq_ok hbody
    cases heq
    obtain ⟨before, c₁, hbefore, ha⟩ := bind_eq_ok ha
    obtain ⟨start, c₂, -, ha⟩ := bind_eq_ok ha
    obtain ⟨name, c₃, hname, ha⟩ := bind_eq_ok ha
    obtain ⟨gap, c₄, hgap, ha⟩ := bind_eq_ok ha
    obtain ⟨b, c₅, hb, ha⟩ := bind_eq_ok ha
    obtain ⟨after, c₆, hafter, ha⟩ := bind_eq_ok ha
    obtain ⟨rfl, -⟩ := pure_eq_ok ha
    obtain ⟨rfl, rfl, rfl, hlead, -⟩ := attributeAt_eq_ok hb
    have hbefore := (blank_eq_ok hbefore).2.2
    have hafter := (blank_eq_ok hafter).2.2
    refine ⟨⟨.nil, hbefore, fun t ht => ?_⟩, by simp [Distinct], fun s hs => ?_⟩
    · cases ht
      exact hafter
    · rw [List.mem_singleton.1 hs]
      refine .attr ⟨hbefore.to_true, (identifier_eq_ok hname).2.1, (blank_eq_ok hgap).2.2,
        hlead, fun t ht => ?_⟩
      cases ht
      exact Tails.trivia hafter
  · obtain ⟨inner, last, hinner, hbody⟩ := bind_eq_ok hbody
    obtain ⟨u, last', -, hbody⟩ := bind_eq_ok hbody
    obtain ⟨heq, -⟩ := pure_eq_ok hbody
    cases heq
    exact ⟨(blank_eq_ok hinner).2.2, trivial, by simp⟩

/-- What a reader of bodies gives. -/
def GivesShaped (body : Reader (List Structure)) : Prop :=
  ∀ {cs rest : List Char} {ss : List Structure}, body cs = .ok (ss, rest) →
    Distinct [] ss ∧ ∀ s ∈ ss, s.Shaped

theorem blockAt_eq_ok {size start : Nat} {body : Reader (List Structure)}
    (hbody : GivesShaped body) {before gap : Trivia} {kind : String} {b : Block}
    (h : blockAt size start body before kind gap cs = .ok (b, rest)) :
    b.before = before ∧ b.kind = kind ∧ b.gap = gap ∧ LabelsShaped b.labels ∧
      cs.head? = (labelsText b.labels).head? ∧ b.layout.Shaped b.body ∧ Distinct [] b.body ∧
      ∀ s ∈ b.body, s.Shaped := by
  obtain ⟨names, c₁, hnames, h⟩ := bind_eq_ok h
  obtain ⟨u, c₂, hbrace, h⟩ := bind_eq_ok h
  obtain ⟨⟨layout, structures⟩, c₃, hlayout, h⟩ := bind_eq_ok h
  obtain ⟨stop, c₄, -, h⟩ := bind_eq_ok h
  obtain ⟨rfl, -⟩ := pure_eq_ok h
  obtain rfl := char_eq_ok hbrace
  obtain ⟨hlabels, hhead⟩ := labels_eq_ok hnames
  refine ⟨rfl, rfl, rfl, hlabels, hhead, ?_⟩
  rcases orElse_eq_ok hlayout with hlayout | ⟨-, hlayout⟩
  · obtain ⟨opening, c₅, hopening, hlayout⟩ := bind_eq_ok hlayout
    obtain ⟨eol, c₆, heol, hlayout⟩ := bind_eq_ok hlayout
    obtain ⟨ss, c₇, hss, hlayout⟩ := bind_eq_ok hlayout
    obtain ⟨closing, c₈, hclosing, hlayout⟩ := bind_eq_ok hlayout
    obtain ⟨u, c₉, hend, hlayout⟩ := bind_eq_ok hlayout
    obtain ⟨heq, -⟩ := pure_eq_ok hlayout
    cases heq
    obtain rfl := char_eq_ok hend
    exact ⟨⟨(lineTail_eq_ok hopening).2,
      (white_eq_ok hclosing).2.2.2 (List.cons_ne_nil _ _)⟩, hbody hss⟩
  · exact bodyOnLine_eq_ok hlayout

/-! ## Bodies -/

/-- A structure that was read on a line, and whether it adds a name. -/
theorem structureLine_eq_ok {size : Nat} {body : Reader (List Structure)}
    (hbody : GivesShaped body) {names : List String} {s : Structure} {ended : Bool}
    (h : structureLine size body names cs = .ok ((s, ended), rest)) :
    s.Shaped ∧ (∀ a, s = .attr a → a.name ∉ names) ∧ (ended = false → rest = []) := by
  obtain ⟨before, c₁, hbefore, h⟩ := bind_eq_ok h
  obtain ⟨start, c₂, hstart, h⟩ := bind_eq_ok h
  obtain ⟨name, c₃, hname, h⟩ := bind_eq_ok h
  obtain ⟨gap, c₄, hgap, h⟩ := bind_eq_ok h
  obtain ⟨seen, c₅, hseen, hline⟩ := bind_eq_ok h
  cases hstart
  cases hseen
  have hne := identifier_ne_nil hname
  have hbefore := (white_eq_ok hbefore).2.2.2 hne
  obtain ⟨-, hid, hends⟩ := identifier_eq_ok hname
  obtain ⟨rfl, -, hgap⟩ := blank_eq_ok hgap
  split at hline
  · split at hline
    · obtain ⟨u, c₆, habsent, -⟩ := bind_eq_ok hline
      cases habsent
    · next hnew =>
      obtain ⟨a, c₆, ha, hline⟩ := bind_eq_ok hline
      obtain ⟨after, c₇, hafter, hline⟩ := bind_eq_ok hline
      obtain ⟨e, c₈, he, hline⟩ := bind_eq_ok hline
      obtain ⟨heq, rfl⟩ := pure_eq_ok hline
      cases heq
      have hrest := lineEndOrEnd_eq_ok he
      obtain ⟨rfl, rfl, rfl, hlead, -⟩ := attributeAt_eq_ok ha
      refine ⟨.attr ⟨hbefore, hid, hgap, hlead, fun t ht => ?_⟩, fun b hb => ?_, hrest⟩
      · cases ht
        exact (lineTail_eq_ok hafter).2
      · cases hb
        simpa using hnew
  · obtain ⟨b, c₆, hb, hline⟩ := bind_eq_ok hline
    obtain ⟨after, c₇, hafter, hline⟩ := bind_eq_ok hline
    obtain ⟨e, c₈, he, hline⟩ := bind_eq_ok hline
    obtain ⟨heq, rfl⟩ := pure_eq_ok hline
    cases heq
    have hrest := lineEndOrEnd_eq_ok he
    obtain ⟨rfl, rfl, rfl, hlabels, hhead, hlayout, hdistinct, hshaped⟩ := blockAt_eq_ok hbody hb
    refine ⟨.block ⟨hbefore, hid, hgap, hends.of_head hhead, hlabels,
      (lineTail_eq_ok hafter).2⟩ hlayout hdistinct hshaped, nofun, hrest⟩

/-- An attribute in front of others has a name of its own. -/
theorem distinct_head {names : List String} {s : Structure} {ss : List Structure}
    (h : Distinct names (s :: ss)) : ∀ a, s = .attr a → a.name ∉ names := by
  rintro a rfl
  exact h.1

theorem distinct_tail {names : List String} {s : Structure} {ss : List Structure}
    (h : Distinct names (s :: ss)) : Distinct (addName names s) ss := by
  cases s with
  | attr a => exact h.2
  | block b => exact h

theorem distinct_cons {names : List String} {s : Structure} {ss : List Structure}
    (h : ∀ a, s = .attr a → a.name ∉ names) (hss : Distinct (addName names s) ss) :
    Distinct names (s :: ss) := by
  cases s with
  | attr a => exact ⟨h a rfl, hss⟩
  | block b => exact hss

/-- **Bodies**: the structures that were read have their shape, and different names. -/
theorem structuresWithin_eq_ok {size n : Nat} {names : List String} {ss : List Structure}
    {ended : Bool} (h : structuresWithin size n names cs = .ok ((ss, ended), rest)) :
    Distinct names ss ∧ (∀ s ∈ ss, s.Shaped) ∧ (ended = false → rest = []) := by
  induction n generalizing cs rest names ss ended with
  | zero => cases h
  | succ n ih =>
    obtain ⟨o, mid, hline, hss⟩ := bind_eq_ok h
    rcases opt_eq_ok hline with ⟨⟨s, e⟩, rfl, hs⟩ | ⟨rfl, -, rfl⟩
    · -- the body of a block is read with one less depth
      obtain ⟨hshaped, hnew, hrest⟩ := structureLine_eq_ok (by
        intro cs rest ss h
        obtain ⟨⟨found, e⟩, mid, hfound, hread⟩ := bind_eq_ok h
        obtain ⟨rfl, -⟩ := pure_eq_ok hread
        exact ⟨(ih hfound).1, (ih hfound).2.1⟩) hs
      cases e with
      | true =>
        obtain ⟨⟨more, e⟩, last, hmore, hss⟩ := bind_eq_ok hss
        obtain ⟨heq, rfl⟩ := pure_eq_ok hss
        cases heq
        obtain ⟨hdistinct, hall, hrest⟩ := ih hmore
        refine ⟨distinct_cons hnew hdistinct, fun s' hs' => ?_, hrest⟩
        rcases List.mem_cons.1 hs' with rfl | hs'
        · exact hshaped
        · exact hall s' hs'
      | false =>
        obtain ⟨heq, rfl⟩ := pure_eq_ok hss
        cases heq
        refine ⟨distinct_cons hnew trivial, fun s' hs' => ?_, hrest⟩
        rw [List.mem_singleton.1 hs']
        exact hshaped
    · obtain ⟨heq, -⟩ := pure_eq_ok hss
      cases heq
      exact ⟨trivial, by simp, nofun⟩

end Reader

/-- **What is read has the shape of a document.** -/
theorem Document.shaped_of_read? {source : String} {d : Document}
    (h : Document.read? source = some d) : d.Shaped := by
  have hread := all?_eq_some.1 h
  obtain ⟨⟨ss, ended⟩, c₁, hss, hread⟩ := bind_eq_ok hread
  obtain ⟨closing, c₂, hclosing, hread⟩ := bind_eq_ok hread
  obtain ⟨u, c₃, hend, hread⟩ := bind_eq_ok hread
  obtain ⟨rfl, rfl⟩ := pure_eq_ok hread
  obtain ⟨hdistinct, hshaped, hrest⟩ := structuresWithin_eq_ok hss
  have hnil : c₂ = [] := by
    cases c₂ with
    | nil => rfl
    | cons c tail => cases hend
  subst hnil
  obtain ⟨hsplit, -, htails, -⟩ := white_eq_ok hclosing
  rw [List.append_nil] at hsplit
  exact ⟨hshaped, hdistinct, htails, fun he => hsplit ▸ hrest he⟩

end HclOverlay.Hcl
