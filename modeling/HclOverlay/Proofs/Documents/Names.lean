import HclOverlay.Proofs.Documents.Places

/-!
# Where names and values stand

Every attribute and every block of a document, however deep it is nested, has a span, and the span
starts where its name stands in the text. So a message about a structure leads to its name. The span
of an attribute ends where its value ends, so it also tells from what text the value was read.

* `NameAt` — a name stands at an offset of a text.
* `Attribute.ReadFrom` — an attribute stands at its span, and its value was read from a stretch.
* `Structure.Anchored` — the spans of a structure, and of those inside it, are of this kind.
* `Document.anchored` — **so it is in a document that was read**, by induction on the depth of the
  reader.
-/

namespace HclOverlay.Hcl

open Reader Source

/-- A name stands at an offset of a text. -/
def NameAt (cs : List Char) (offset : Nat) (name : String) : Prop :=
  ∃ front rest, cs = front ++ (name.toList ++ rest) ∧ byteSize front = offset

/-- What stands behind a value: trivia, and then the line, the text or a body on its line ends. -/
inductive BehindValue : List Char → Prop
  | intro {t left : List Char} (trivia : Tails false t)
      (ends : AtLineEnd left ∨ left.head? = some '}') : BehindValue (t ++ left)

/-- An attribute stands in a text at its span: its name behind `front`, the text `stretch` of its
value in front of `back`. -/
structure Attribute.StandsIn (cs : List Char) (a : Attribute) (front stretch back : List Char) :
    Prop where
  text : cs = front ++ (a.name.toList ++ (a.gap ++ '=' :: (a.lead ++ (stretch ++ back))))
  span : a.span = some ⟨byteSize front, byteSize cs - byteSize back⟩

/-- The value of an attribute was read from a stretch of a text. -/
structure Attribute.ReadFrom (cs : List Char) (a : Attribute) (front stretch back : List Char) :
    Prop extends a.StandsIn cs front stretch back where
  value : expr .line (stretch ++ back) = .ok (a.value, back)
  behind : BehindValue back

/-- The spans of a structure and of all structures inside it start where their names stand, and
values were read from the text in front of the end of the span. -/
inductive Structure.Anchored (cs : List Char) : Structure → Prop
  | attr {a : Attribute} {front stretch back : List Char} (h : a.ReadFrom cs front stretch back) :
      Anchored cs (.attr a)
  | block {b : Block} (kind : NameAt cs b.span.start b.kind)
      (body : ∀ s ∈ b.body, Structure.Anchored cs s) : Anchored cs (.block b)

namespace Reader

variable {whole cs rest : List Char}

/-- A name that is read stands at the offset found in front of it. -/
theorem nameAt_of_identifier {name : String} (hcs : cs <:+ whole)
    (h : identifier cs = .ok (name, rest)) : NameAt whole (byteSize whole - byteSize cs) name := by
  obtain ⟨front, rfl⟩ := hcs
  refine ⟨front, rest, by rw [(identifier_eq_ok h).1], ?_⟩
  rw [byteSize_append]
  omega

/-- The value of an attribute is read from what stands in front of the rest. -/
theorem attributeAt_readFrom {before gap : Trivia} {name : String} {a : Attribute} {c₁ c₂ c₃ : List Char}
    (hcs : cs <:+ whole) (hname : identifier cs = .ok (name, c₁)) (hgap : blank c₁ = .ok (gap, c₂))
    (h : attributeAt (byteSize whole) (byteSize whole - byteSize cs) before name gap c₂ = .ok (a, c₃))
    (hbehind : BehindValue c₃) : ∃ front stretch, a.ReadFrom whole front stretch c₃ := by
  obtain ⟨front, rfl⟩ := hcs
  obtain ⟨u, c₄, hequals, h⟩ := bind_eq_ok h
  obtain ⟨lead, c₅, hlead, h⟩ := bind_eq_ok h
  obtain ⟨value, c₆, hvalue, h⟩ := bind_eq_ok h
  obtain ⟨stop, c₇, hstop, h⟩ := bind_eq_ok h
  cases hstop
  obtain ⟨rfl, rfl⟩ := pure_eq_ok h
  obtain ⟨stretch, rfl⟩ := Consumes.leaves hvalue
  obtain rfl := (identifier_eq_ok hname).1
  obtain ⟨rfl, -⟩ := blank_eq_ok hgap
  obtain rfl := char_eq_ok hequals
  obtain ⟨rfl, -⟩ := blank_eq_ok hlead
  refine ⟨front, stretch, ⟨rfl, ?_⟩, hvalue, hbehind⟩
  simp only [byteSize_append]
  congr 2
  omega

/-- What a reader of bodies gives. -/
def GivesAnchored (whole : List Char) (body : Reader (List Structure)) : Prop :=
  ∀ {cs rest : List Char} {ss : List Structure}, cs <:+ whole → body cs = .ok (ss, rest) →
    ∀ s ∈ ss, s.Anchored whole

theorem bodyOnLine_anchored {layout : Layout} {body : List Structure} (hcs : cs <:+ whole)
    (h : bodyOnLine (byteSize whole) cs = .ok ((layout, body), rest)) :
    ∀ s ∈ body, s.Anchored whole := by
  obtain ⟨o, mid, hattr, hline⟩ := bind_eq_ok h
  rcases opt_eq_ok hattr with ⟨a, rfl, ha⟩ | ⟨rfl, -, -⟩
  · obtain ⟨u, last, hend, hline⟩ := bind_eq_ok hline
    obtain ⟨heq, -⟩ := pure_eq_ok hline
    cases heq
    obtain ⟨before, c₁, hbefore, ha⟩ := bind_eq_ok ha
    obtain ⟨start, c₂, hstart, ha⟩ := bind_eq_ok ha
    obtain ⟨name, c₃, hname, ha⟩ := bind_eq_ok ha
    obtain ⟨gap, c₄, hgap, ha⟩ := bind_eq_ok ha
    obtain ⟨b, c₅, hb, ha⟩ := bind_eq_ok ha
    obtain ⟨after, c₆, hafter, ha⟩ := bind_eq_ok ha
    obtain ⟨rfl, rfl⟩ := pure_eq_ok ha
    cases hstart
    obtain ⟨rfl, -, hskips⟩ := blank_eq_ok hafter
    have hbehind : BehindValue (after ++ mid) :=
      .intro (.trivia hskips) (.inr (by rw [char_eq_ok hend]; rfl))
    obtain ⟨front, stretch, hread⟩ := attributeAt_readFrom
      ((Consumes.blank.leaves hbefore).trans hcs) hname hgap hb hbehind
    intro s hs
    rw [List.mem_singleton.1 hs]
    exact .attr ⟨⟨hread.text, hread.span⟩, hread.value, hread.behind⟩
  · obtain ⟨inner, last, -, hline⟩ := bind_eq_ok hline
    obtain ⟨u, last', -, hline⟩ := bind_eq_ok hline
    obtain ⟨heq, -⟩ := pure_eq_ok hline
    cases heq
    simp

theorem blockAt_anchored {start : Nat} {body : Reader (List Structure)}
    (hbody : GivesAnchored whole body) {before gap : Trivia} {kind : String} {b : Block}
    (hcs : cs <:+ whole)
    (h : blockAt (byteSize whole) start body before kind gap cs = .ok (b, rest)) :
    b.kind = kind ∧ b.span.start = start ∧ ∀ s ∈ b.body, s.Anchored whole := by
  obtain ⟨names, c₁, hnames, h⟩ := bind_eq_ok h
  obtain ⟨u, c₂, hbrace, h⟩ := bind_eq_ok h
  obtain ⟨⟨layout, structures⟩, c₃, hlayout, h⟩ := bind_eq_ok h
  obtain ⟨stop, c₄, -, h⟩ := bind_eq_ok h
  obtain ⟨rfl, -⟩ := pure_eq_ok h
  have hinside : c₂ <:+ whole := ((Consumes.char _).leaves hbrace).trans
    (((Consumes.bounded labels).leaves hnames).trans hcs)
  refine ⟨rfl, rfl, ?_⟩
  rcases orElse_eq_ok hlayout with hlayout | ⟨-, hlayout⟩
  · obtain ⟨opening, c₅, hopening, hlayout⟩ := bind_eq_ok hlayout
    obtain ⟨eol, c₆, heol, hlayout⟩ := bind_eq_ok hlayout
    obtain ⟨ss, c₇, hss, hlayout⟩ := bind_eq_ok hlayout
    obtain ⟨closing, c₈, -, hlayout⟩ := bind_eq_ok hlayout
    obtain ⟨u, c₉, -, hlayout⟩ := bind_eq_ok hlayout
    obtain ⟨heq, -⟩ := pure_eq_ok hlayout
    cases heq
    exact hbody ((Consumes.lineEnd.leaves heol).trans
      ((Consumes.lineTail.leaves hopening).trans hinside)) hss
  · exact bodyOnLine_anchored hinside hlayout

theorem atLineEnd_of_lineEndOrEnd {ended : Bool} (h : lineEndOrEnd cs = .ok (ended, rest)) :
    AtLineEnd cs := by
  rcases lineEndOrEnd_cases h with ⟨-, rfl, -⟩ | ⟨-, eol, rfl, rfl | rfl⟩
  · exact atLineEnd_nil
  · exact .inr rfl
  · exact .inr rfl

/-- What is read on a line is anchored, if bodies inside it are. -/
theorem structureLine_anchored {body : Reader (List Structure)} (hbody : GivesAnchored whole body)
    {names : List String} {s : Structure} {ended : Bool} (hcs : cs <:+ whole)
    (h : structureLine (byteSize whole) body names cs = .ok ((s, ended), rest)) :
    s.Anchored whole := by
  obtain ⟨before, c₁, hbefore, h⟩ := bind_eq_ok h
  obtain ⟨start, c₂, hstart, h⟩ := bind_eq_ok h
  obtain ⟨name, c₂, hname, h⟩ := bind_eq_ok h
  obtain ⟨gap, c₃, hgap, h⟩ := bind_eq_ok h
  obtain ⟨seen, c₄, hseen, h⟩ := bind_eq_ok h
  cases hstart
  cases hseen
  have hstart := (Consumes.white.leaves hbefore).trans hcs
  have hstands := nameAt_of_identifier hstart hname
  split at h
  · split at h
    · obtain ⟨u, mid, habsent, -⟩ := bind_eq_ok h
      cases habsent
    · obtain ⟨a, c₄, ha, h⟩ := bind_eq_ok h
      obtain ⟨after, c₅, hafter, h⟩ := bind_eq_ok h
      obtain ⟨e, mid, hend, h⟩ := bind_eq_ok h
      obtain ⟨heq, -⟩ := pure_eq_ok h
      cases heq
      obtain ⟨rfl, htails⟩ := lineTail_eq_ok hafter
      obtain ⟨front, stretch, hread⟩ := attributeAt_readFrom hstart hname hgap ha
        (.intro htails (.inl (atLineEnd_of_lineEndOrEnd hend)))
      exact .attr ⟨⟨hread.text, hread.span⟩, hread.value, hread.behind⟩
  · obtain ⟨b, c₄, hb, h⟩ := bind_eq_ok h
    obtain ⟨after, c₅, -, h⟩ := bind_eq_ok h
    obtain ⟨e, mid, -, h⟩ := bind_eq_ok h
    obtain ⟨heq, -⟩ := pure_eq_ok h
    cases heq
    obtain ⟨rfl, hspan, hinside⟩ := blockAt_anchored hbody ((Consumes.blank.leaves hgap).trans
      ((Consumes.identifier.leaves hname).trans hstart)) hb
    exact .block (hspan ▸ hstands) hinside

/-- **Bodies**: what is read as structures is anchored. -/
theorem structuresWithin_anchored {n : Nat} {names : List String} {ss : List Structure}
    {ended : Bool} (hcs : cs <:+ whole)
    (h : structuresWithin (byteSize whole) n names cs = .ok ((ss, ended), rest)) :
    ∀ s ∈ ss, s.Anchored whole := by
  induction n generalizing cs rest names ss ended with
  | zero => cases h
  | succ n ih =>
    obtain ⟨o, mid, hline, hss⟩ := bind_eq_ok h
    rcases opt_eq_ok hline with ⟨⟨s, e⟩, rfl, hs⟩ | ⟨rfl, -, -⟩
    · -- the body of a block is read with one less depth
      have hanchored : s.Anchored whole := structureLine_anchored (by
        intro cs rest ss hcs h
        obtain ⟨⟨found, e⟩, mid, hfound, hread⟩ := bind_eq_ok h
        obtain ⟨rfl, -⟩ := pure_eq_ok hread
        exact ih hcs hfound) hcs hs
      cases e with
      | true =>
        obtain ⟨⟨more, e⟩, last, hmore, hss⟩ := bind_eq_ok hss
        obtain ⟨heq, -⟩ := pure_eq_ok hss
        cases heq
        have hmid : mid <:+ cs := Consumes.leaves hline
        exact List.forall_mem_cons.2 ⟨hanchored, ih (hmid.trans hcs) hmore⟩
      | false =>
        obtain ⟨heq, -⟩ := pure_eq_ok hss
        cases heq
        exact List.forall_mem_singleton.2 hanchored
    · obtain ⟨heq, -⟩ := pure_eq_ok hss
      cases heq
      simp

end Reader

/-- **The spans of a document** that was read start at names in its text. -/
theorem Document.anchored {source : String} {d : Document} (h : Document.read? source = some d) :
    ∀ s ∈ d.structures, s.Anchored source.toList := by
  have hread := all?_eq_some.1 h
  obtain ⟨⟨ss, ended⟩, c₁, hss, hread⟩ := bind_eq_ok hread
  obtain ⟨closing, c₂, -, hread⟩ := bind_eq_ok hread
  obtain ⟨u, c₃, -, hread⟩ := bind_eq_ok hread
  obtain ⟨rfl, -⟩ := pure_eq_ok hread
  exact structuresWithin_anchored List.suffix_rfl hss

/-- So it is with a top-level block and its attributes. -/
theorem Document.anchored_of_block {source : String} {d : Document}
    (h : Document.read? source = some d) {b : Block} (hb : b ∈ d.blocks) :
    NameAt source.toList b.span.start b.kind ∧ ∀ a ∈ attributesOf b.body,
      ∃ front stretch back, a.ReadFrom source.toList front stretch back := by
  obtain ⟨s, hs, hsb⟩ := List.mem_filterMap.1 hb
  have hanchored := Document.anchored h s hs
  cases hanchored with
  | attr => cases hsb
  | @block c hkind hbody =>
    obtain rfl : c = b := Option.some.inj hsb
    refine ⟨hkind, fun a ha => ?_⟩
    obtain ⟨t, ht, hta⟩ := List.mem_filterMap.1 ha
    have hinside := hbody t ht
    cases hinside with
    | block => cases hta
    | @attr a' front stretch back hread =>
      obtain rfl : a' = a := Option.some.inj hta
      exact ⟨front, stretch, back, hread⟩

/-- The names of a top-level block and of its attributes stand where their spans start. -/
theorem Document.nameAt_of_block {source : String} {d : Document}
    (h : Document.read? source = some d) {b : Block} (hb : b ∈ d.blocks) :
    NameAt source.toList b.span.start b.kind ∧ ∀ a ∈ attributesOf b.body,
      ∃ span, a.span = some span ∧ NameAt source.toList span.start a.name := by
  obtain ⟨hkind, hattributes⟩ := Document.anchored_of_block h hb
  refine ⟨hkind, fun a ha => ?_⟩
  obtain ⟨front, stretch, back, hread⟩ := hattributes a ha
  exact ⟨_, hread.span, front, _, hread.text, rfl⟩

end HclOverlay.Hcl
