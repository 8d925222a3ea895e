import HclOverlay.Proofs.Reading.Ending
import HclOverlay.Proofs.Source.Spans

/-!
# Where structures stand

A document is read off its text without gaps: the trivia in front of a structure, the structure
itself at its span, the trivia up to the end of its line, the line end, and so on to the trivia that
closes the document. Only the structures themselves may print otherwise than they were written.

* `Structure.before`, `core`, `after` — the text of a structure in three parts.
* `Structure.span?` — where a structure was read from.
* `StandsAt`, `Placed` — how the top-level structures of a document lie in its text.
* `Document.placed` — **what is read lies so**, by induction on the depth of the reader.
-/

namespace HclOverlay.Hcl

open Reader Source

/-! ## The parts of a structure -/

namespace Structure

/-- The trivia in front of a structure. -/
def before : Structure → Trivia
  | .attr a => a.before
  | .block b => b.before

/-- The trivia behind a structure on its line. -/
def after : Structure → Trivia
  | .attr a => a.after.getD []
  | .block b => b.after

/-- The text of a structure without the trivia around it. -/
def core : Structure → List Char
  | .attr a => a.name.toList ++ (a.gap ++ '=' :: (a.lead ++ a.value.print))
  | .block b => Block.print { b with before := [], after := [] }

/-- Where a structure was read from. -/
def span? : Structure → Option Span
  | .attr a => a.span
  | .block b => some b.span

theorem print_eq (s : Structure) : s.print = s.before ++ (s.core ++ s.after) := by
  cases s with
  | attr a => simp [Structure.print, Attribute.print, before, core, after]
  | block b =>
    obtain ⟨before, kind, gap, labels, layout, body, after, span⟩ := b
    simp [Structure.print, Block.print, Structure.before, core, Structure.after]

end Structure

/-! ## Places -/

/-- A structure whose text `core` stands behind `front` and the trivia in front of it. -/
structure StandsAt (front : List Char) (s : Structure) (core : List Char) : Prop where
  span : s.span? = some ⟨byteSize (front ++ s.before), byteSize (front ++ s.before) + byteSize core⟩
  opens : ∃ c more, core = c :: more ∧ Text.isIdentifierStart c = true
  /-- it ends in a token -/
  last : ∃ most c, core = most ++ [c] ∧ isWhiteChar c = false

/-- Structures that lie one behind the other in a text `cs` that stands behind `front`; `rest` stands
behind them. Only the last structure may lack a line end, and then nothing stands behind it. -/
inductive Placed : List Char → List Structure → Bool → List Char → List Char → Prop
  | nil (front rest : List Char) : Placed front [] true rest rest
  | last {front core : List Char} {s : Structure} (h : StandsAt front s core) :
      Placed front [s] false (s.before ++ (core ++ s.after)) []
  | cons {front core eol cs rest : List Char} {s : Structure} {ss : List Structure} {ended : Bool}
      (h : StandsAt front s core) (heol : eol = ['\n'] ∨ eol = ['\r', '\n'])
      (more : Placed (front ++ (s.before ++ (core ++ (s.after ++ eol)))) ss ended cs rest) :
      Placed front (s :: ss) ended (s.before ++ (core ++ (s.after ++ (eol ++ cs)))) rest

/-! ## Reading -/

namespace Reader

/-- The stretch between two ends of a text. -/
theorem exists_stretch {cs mid rest : List Char} (h : mid <:+ cs)
    (hlast : ∃ most c, mid = most ++ c :: rest ∧ isWhiteChar c = false) :
    ∃ core, cs = core ++ rest ∧ ∃ most c, core = most ++ [c] ∧ isWhiteChar c = false := by
  obtain ⟨most, c, rfl, hc⟩ := last_of_suffix h hlast
  exact ⟨most ++ [c], by simp, most, c, rfl, hc⟩

/-- A text that starts with a name starts with the first character of it. -/
theorem opens_of_identifier {cs core rest mid : List Char} {name : String}
    (h : identifier cs = .ok (name, mid)) (hcs : cs = core ++ rest) (hne : core ≠ []) :
    ∃ c more, core = c :: more ∧ Text.isIdentifierStart c = true := by
  cases core with
  | nil => exact absurd rfl hne
  | cons c more =>
    refine ⟨c, more, rfl, ?_⟩
    rw [hcs, List.cons_append, identifier] at h
    split at h
    · next hc => exact hc
    · cases h

theorem attributeAt_place {size start : Nat} {before gap : Trivia} {name : String} {a : Attribute}
    {cs rest : List Char} (h : attributeAt size start before name gap cs = .ok (a, rest)) :
    a.span = some ⟨start, size - byteSize rest⟩ ∧
      ∃ most c, cs = most ++ c :: rest ∧ isWhiteChar c = false := by
  obtain ⟨u, c₁, hequals, h⟩ := bind_eq_ok h
  obtain ⟨lead, c₂, hlead, h⟩ := bind_eq_ok h
  obtain ⟨value, c₃, hvalue, h⟩ := bind_eq_ok h
  obtain ⟨stop, c₄, hstop, h⟩ := bind_eq_ok h
  cases hstop
  obtain ⟨rfl, rfl⟩ := pure_eq_ok h
  exact ⟨rfl, last_of_suffix ((Consumes.blank.leaves hlead).trans
    ((Consumes.char _).leaves hequals)) ((EndsInToken.expr .line).last hvalue)⟩

theorem blockAt_place {size start : Nat} {body : Reader (List Structure)} [Consumes body]
    {before gap : Trivia} {kind : String} {b : Block} {cs rest : List Char}
    (h : blockAt size start body before kind gap cs = .ok (b, rest)) :
    b.span = ⟨start, size - byteSize rest⟩ ∧
      ∃ most c, cs = most ++ c :: rest ∧ isWhiteChar c = false := by
  have hbodies : EndsInToken (bodyOfLines body <|> bodyOnLine size) := by
    have hlines : EndsInToken (bodyOfLines body) := by
      unfold bodyOfLines
      infer_instance
    have hline : EndsInToken (bodyOnLine size) := by
      have hattribute : Consumes (inlineAttribute size) := by
        unfold inlineAttribute
        infer_instance
      unfold bodyOnLine
      refine .andThen fun o => ?_
      cases o <;> infer_instance
    infer_instance
  obtain ⟨names, c₁, hnames, h⟩ := bind_eq_ok h
  obtain ⟨u, c₂, hbrace, h⟩ := bind_eq_ok h
  obtain ⟨⟨layout, structures⟩, c₃, hlayout, h⟩ := bind_eq_ok h
  obtain ⟨stop, c₄, hstop, h⟩ := bind_eq_ok h
  cases hstop
  obtain ⟨rfl, rfl⟩ := pure_eq_ok h
  exact ⟨rfl, last_of_suffix (((Consumes.char _).leaves hbrace).trans
    ((Consumes.bounded labels).leaves hnames)) (hbodies.last hlayout)⟩

/-- A structure whose name has been read stands where its span says. -/
theorem standsAt_of_place {front before : List Char} {c₁ c₂ c₃ c₄ : List Char} {name : String}
    {gap : Trivia} {s : Structure} (hbefore : s.before = before)
    (hname : identifier c₁ = .ok (name, c₂)) (hgap : blank c₂ = .ok (gap, c₃))
    (hspan : s.span? = some ⟨byteSize (front ++ (before ++ c₁)) - byteSize c₁,
      byteSize (front ++ (before ++ c₁)) - byteSize c₄⟩)
    (hlast : ∃ most c, c₃ = most ++ c :: c₄ ∧ isWhiteChar c = false) :
    ∃ core, StandsAt front s core ∧ c₁ = core ++ c₄ := by
  obtain ⟨core, hcore, hend⟩ := exists_stretch
    ((Consumes.blank.leaves hgap).trans (Consumes.identifier.leaves hname)) hlast
  subst hbefore
  refine ⟨core, ⟨?_, opens_of_identifier hname hcore ?_, hend⟩, hcore⟩
  · rw [hspan, hcore]
    simp only [byteSize_append]
    congr 2 <;> omega
  · rintro rfl
    obtain ⟨most, c, hnil, -⟩ := hend
    simp at hnil

/-- A line ends at a line end or with the text. -/
theorem lineEndOrEnd_cases {cs rest : List Char} {ended : Bool}
    (h : lineEndOrEnd cs = .ok (ended, rest)) :
    (ended = false ∧ cs = [] ∧ rest = []) ∨
      (ended = true ∧ ∃ eol, cs = eol ++ rest ∧ (eol = ['\n'] ∨ eol = ['\r', '\n'])) := by
  rcases orElse_eq_ok h with h | ⟨-, h⟩
  · obtain ⟨u, mid, hend, h⟩ := bind_eq_ok h
    obtain ⟨rfl, rfl⟩ := pure_eq_ok h
    cases cs with
    | nil =>
      cases hend
      exact .inl ⟨rfl, rfl, rfl⟩
    | cons c cs => cases hend
  · obtain ⟨eol, mid, heol, h⟩ := bind_eq_ok h
    obtain ⟨rfl, rfl⟩ := pure_eq_ok h
    exact .inr ⟨rfl, eol, lineEnd_eq_ok heol⟩

/-- What is read on a line: trivia, a structure at its span, trivia and the end of the line. -/
theorem structureLine_place {front cs rest : List Char} {body : Reader (List Structure)}
    [Consumes body] {names : List String} {s : Structure} {ended : Bool}
    (h : structureLine (byteSize (front ++ cs)) body names cs = .ok ((s, ended), rest)) :
    ∃ core c₅, StandsAt front s core ∧ cs = s.before ++ (core ++ (s.after ++ c₅)) ∧
      lineEndOrEnd c₅ = .ok (ended, rest) := by
  obtain ⟨before, c₁, hbefore, h⟩ := bind_eq_ok h
  obtain ⟨start, c₂, hstart, h⟩ := bind_eq_ok h
  obtain ⟨name, c₂, hname, h⟩ := bind_eq_ok h
  obtain ⟨gap, c₃, hgap, h⟩ := bind_eq_ok h
  obtain ⟨seen, c₄, hseen, h⟩ := bind_eq_ok h
  cases hstart
  cases hseen
  obtain ⟨rfl, -⟩ := white_eq_ok hbefore
  -- an attribute has a sign behind its name, and a block has not
  split at h
  · split at h
    · obtain ⟨u, mid, habsent, -⟩ := bind_eq_ok h
      cases habsent
    · obtain ⟨a, c₄, ha, h⟩ := bind_eq_ok h
      obtain ⟨after, c₅, hafter, h⟩ := bind_eq_ok h
      obtain ⟨e, mid, hend, h⟩ := bind_eq_ok h
      obtain ⟨heq, rfl⟩ := pure_eq_ok h
      cases heq
      obtain ⟨hspan, hlast⟩ := attributeAt_place ha
      obtain ⟨rfl, -⟩ := attributeAt_eq_ok ha
      obtain ⟨core, hstands, rfl⟩ := standsAt_of_place
        (s := .attr { a with after := some after }) rfl hname hgap hspan hlast
      obtain ⟨rfl, -⟩ := lineTail_eq_ok hafter
      exact ⟨core, c₅, hstands, rfl, hend⟩
  · obtain ⟨b, c₄, hb, h⟩ := bind_eq_ok h
    obtain ⟨after, c₅, hafter, h⟩ := bind_eq_ok h
    obtain ⟨e, mid, hend, h⟩ := bind_eq_ok h
    obtain ⟨heq, rfl⟩ := pure_eq_ok h
    cases heq
    obtain ⟨hspan, hlast⟩ := blockAt_place hb
    have hsame : b.before = before := by
      obtain ⟨names, mid, -, hb⟩ := bind_eq_ok hb
      obtain ⟨u, mid, -, hb⟩ := bind_eq_ok hb
      obtain ⟨l, mid, -, hb⟩ := bind_eq_ok hb
      obtain ⟨stop, mid, -, hb⟩ := bind_eq_ok hb
      rw [(pure_eq_ok hb).1]
    obtain ⟨core, hstands, rfl⟩ := standsAt_of_place (s := .block { b with after := after })
      hsame hname hgap (congrArg some hspan) hlast
    obtain ⟨rfl, -⟩ := lineTail_eq_ok hafter
    exact ⟨core, c₅, hstands, congrArg (· ++ _) hsame.symm, hend⟩

/-- **Bodies**: what is read as structures lies one behind the other. -/
theorem structuresWithin_placed {n : Nat} {names : List String} {front cs rest : List Char}
    {ss : List Structure} {ended : Bool}
    (h : structuresWithin (byteSize (front ++ cs)) n names cs = .ok ((ss, ended), rest)) :
    Placed front ss ended cs rest := by
  induction n generalizing front cs names ss with
  | zero => cases h
  | succ n ih =>
    obtain ⟨o, mid, hline, h⟩ := bind_eq_ok h
    rcases opt_eq_ok hline with ⟨⟨s, e⟩, rfl, hs⟩ | ⟨rfl, -, rfl⟩
    · obtain ⟨core, c₅, hstands, rfl, hend⟩ := structureLine_place hs
      rcases lineEndOrEnd_cases hend with ⟨rfl, rfl, rfl⟩ | ⟨rfl, eol, rfl, heol⟩
      · obtain ⟨heq, rfl⟩ := pure_eq_ok h
        cases heq
        rw [List.append_nil]
        exact .last hstands
      · obtain ⟨⟨more, e⟩, last, hmore, h⟩ := bind_eq_ok h
        obtain ⟨heq, rfl⟩ := pure_eq_ok h
        cases heq
        refine .cons hstands heol (ih (?_ : structuresWithin _ n (addName names s) mid = _))
        simpa using hmore
    · obtain ⟨heq, rfl⟩ := pure_eq_ok h
      cases heq
      exact .nil front rest

end Reader

/-- **What is read lies in its text**: the structures one behind the other, and then the trivia that
closes the document. -/
theorem Document.placed {source : String} {d : Document} (h : Document.read? source = some d) :
    Placed [] d.structures d.endsLine source.toList d.closing := by
  have hread := all?_eq_some.1 h
  obtain ⟨⟨ss, ended⟩, c₁, hss, hread⟩ := bind_eq_ok hread
  obtain ⟨closing, c₂, hclosing, hread⟩ := bind_eq_ok hread
  obtain ⟨u, c₃, hend, hread⟩ := bind_eq_ok hread
  obtain ⟨rfl, rfl⟩ := pure_eq_ok hread
  have hnil : c₂ = [] := by
    cases c₂ with
    | nil => rfl
    | cons c tail => cases hend
  obtain ⟨hsplit, -⟩ := white_eq_ok hclosing
  rw [hnil, List.append_nil] at hsplit
  rw [← List.nil_append source.toList] at hss
  exact hsplit ▸ Reader.structuresWithin_placed hss

end HclOverlay.Hcl
