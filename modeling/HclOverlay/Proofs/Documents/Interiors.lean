import HclOverlay.Proofs.Documents.Places

/-!
# Inside blocks

The body of a block on several lines lies in the text like the structures of a document: the
structures one behind the other, the first one behind the line of the opening brace. So each of them
stands behind a line end and the trivia in front of it.

* `lastLine_append`, `lastLine_of_not_mem` — the part of a text after its last line feed.
* `Placed.behindLine` — the structures of a body stand behind line ends.
* `Block.Interior`, `Document.interior` — **the blocks of a document that was read** have such bodies.
-/

namespace HclOverlay.Hcl

open Reader Source

/-! ## Last lines -/

theorem lastLine_of_not_mem {y : List Char} (h : '\n' ∉ y) : lastLine y = y := by
  have hall : ∀ c ∈ y.reverse, (c != '\n') = true := fun c hc =>
    bne_iff_ne.2 fun heq => h (heq ▸ List.mem_reverse.1 hc)
  have htake : (y.reverse ++ []).takeWhile (· != '\n') = y.reverse ++ [] :=
    List.takeWhile_append_of_pos hall
  rw [List.append_nil] at htake
  rw [lastLine, htake, List.reverse_reverse]

/-- What stands in front of a line feed does not matter. -/
theorem lastLine_append (x y : List Char) : lastLine (x ++ '\n' :: y) = lastLine y := by
  have hreverse : (x ++ '\n' :: y).reverse = y.reverse ++ '\n' :: x.reverse := by simp
  rw [lastLine, lastLine, hreverse, List.takeWhile_append]
  split
  · next hall =>
    rw [List.takeWhile_cons_of_neg (by simp), List.append_nil,
      (List.takeWhile_prefix _).eq_of_length hall]
  · rfl

/-! ## Structures behind line ends -/

/-- The structures of a body that stands behind a line end stand behind line ends, with the trivia in
front of them in between. -/
theorem Placed.behindLine {front cs rest : List Char} {ss : List Structure} {ended : Bool}
    (h : Placed front ss ended cs rest) (hfront : front.getLast? = some '\n') :
    ∀ s ∈ ss, ∃ ahead back, front ++ cs = ahead ++ '\n' :: (s.before ++ back) ∧
      s.span?.map Span.start = some (byteSize (ahead ++ '\n' :: s.before)) := by
  have hhead : ∀ {front core tail : List Char} {s : Structure}, front.getLast? = some '\n' →
      StandsAt front s core → ∃ ahead back, front ++ (s.before ++ (core ++ tail)) =
        ahead ++ '\n' :: (s.before ++ back) ∧
        s.span?.map Span.start = some (byteSize (ahead ++ '\n' :: s.before)) := by
    intro front core tail s hfront hs
    obtain ⟨ahead, rfl⟩ := List.getLast?_eq_some_iff.1 hfront
    exact ⟨ahead, core ++ tail, by simp, by rw [hs.span]; simp⟩
  induction h with
  | nil => nofun
  | last hs =>
    intro s' hs'
    rw [List.mem_singleton.1 hs']
    exact hhead hfront hs
  | @cons front core eol cs rest s ss ended hs heol _ ih =>
    intro s' hs'
    rcases List.mem_cons.1 hs' with rfl | hs'
    · exact hhead hfront hs
    · have hlast : (front ++ (s.before ++ (core ++ (s.after ++ eol)))).getLast? = some '\n' := by
        rcases heol with rfl | rfl <;> simp [← List.append_assoc]
      obtain ⟨ahead, back, htext, hspan⟩ := ih hlast s' hs'
      exact ⟨ahead, back, by rw [← htext]; simp, hspan⟩

/-- A block on several lines of a text: there is a line feed in it, and its body lies in the text
behind a line end. -/
structure Block.Interior (whole : List Char) (b : Block) : Prop where
  lines : '\n' ∈ b.span.text whole
  body : ∃ front cs rest ended, whole = front ++ cs ∧ front.getLast? = some '\n' ∧
    Placed front b.body ended cs rest

namespace Reader

/-- The body of a block on several lines is read behind the line of its brace. -/
theorem blockAt_lines {size start : Nat} {body : Reader (List Structure)} [Consumes body]
    {before gap : Trivia} {kind : String} {b : Block} {cs rest : List Char}
    (h : blockAt size start body before kind gap cs = .ok (b, rest)) {opening closing : Trivia}
    (hlayout : b.layout = .lines opening closing) :
    ∃ head inner tail, cs = head ++ '\n' :: inner ∧ rest <:+ inner ∧
      body inner = .ok (b.body, tail) := by
  obtain ⟨names, c₁, hnames, h⟩ := bind_eq_ok h
  obtain ⟨u, c₂, hbrace, h⟩ := bind_eq_ok h
  obtain ⟨⟨layout, structures⟩, c₃, hread, h⟩ := bind_eq_ok h
  obtain ⟨stop, c₄, hstop, h⟩ := bind_eq_ok h
  cases hstop
  obtain ⟨rfl, rfl⟩ := pure_eq_ok h
  have hinside : c₂ <:+ cs := ((Consumes.char _).leaves hbrace).trans
    ((Consumes.bounded labels).leaves hnames)
  rcases orElse_eq_ok hread with hread | ⟨-, hread⟩
  · obtain ⟨opening, c₅, hopening, hread⟩ := bind_eq_ok hread
    obtain ⟨eol, c₆, heol, hread⟩ := bind_eq_ok hread
    obtain ⟨ss, c₇, hss, hread⟩ := bind_eq_ok hread
    obtain ⟨closing, c₈, hclosing, hread⟩ := bind_eq_ok hread
    obtain ⟨u, c₉, hend, hread⟩ := bind_eq_ok hread
    obtain ⟨heq, rfl⟩ := pure_eq_ok hread
    cases heq
    obtain ⟨head, hhead⟩ := (Consumes.lineTail.leaves hopening).trans hinside
    have hrest : rest <:+ c₆ := ((Consumes.char _).leaves hend).trans
      ((Consumes.white.leaves hclosing).trans (Consumes.leaves hss))
    obtain ⟨rfl, hends⟩ := lineEnd_eq_ok heol
    rcases hends with rfl | rfl
    · exact ⟨head, c₆, c₇, by rw [← hhead]; rfl, hrest, hss⟩
    · exact ⟨head ++ ['\r'], c₆, c₇, by rw [← hhead]; simp, hrest, hss⟩
  · -- a body on the line of its block has another layout
    obtain ⟨o, mid, -, hread⟩ := bind_eq_ok hread
    cases o with
    | some a =>
      obtain ⟨u, last, -, hread⟩ := bind_eq_ok hread
      obtain ⟨heq, -⟩ := pure_eq_ok hread
      cases heq
      cases hlayout
    | none =>
      obtain ⟨inner, last, -, hread⟩ := bind_eq_ok hread
      obtain ⟨u, last', -, hread⟩ := bind_eq_ok hread
      obtain ⟨heq, -⟩ := pure_eq_ok hread
      cases heq
      cases hlayout

/-- What is read on a line: a block on several lines stands at its span, and there its body. -/
theorem structureLine_interior {front cs rest : List Char} {body : Reader (List Structure)}
    [Consumes body] {names : List String} {b : Block} {ended : Bool}
    (h : structureLine (byteSize (front ++ cs)) body names cs = .ok ((.block b, ended), rest))
    {opening closing : Trivia} (hlayout : b.layout = .lines opening closing) :
    '\n' ∈ b.span.text (front ++ cs) ∧ ∃ ahead inner tail,
      front ++ cs = ahead ++ '\n' :: inner ∧ body inner = .ok (b.body, tail) := by
  obtain ⟨before, c₁, hbefore, h⟩ := bind_eq_ok h
  obtain ⟨start, c₂, hstart, h⟩ := bind_eq_ok h
  obtain ⟨name, c₂, hname, h⟩ := bind_eq_ok h
  obtain ⟨gap, c₃, hgap, h⟩ := bind_eq_ok h
  obtain ⟨seen, c₄, hseen, h⟩ := bind_eq_ok h
  cases hstart
  cases hseen
  obtain ⟨rfl, -⟩ := white_eq_ok hbefore
  split at h
  · split at h
    · obtain ⟨u, mid, habsent, -⟩ := bind_eq_ok h
      cases habsent
    · obtain ⟨a, c₄, ha, h⟩ := bind_eq_ok h
      obtain ⟨after, c₅, hafter, h⟩ := bind_eq_ok h
      obtain ⟨e, mid, hend, h⟩ := bind_eq_ok h
      obtain ⟨heq, -⟩ := pure_eq_ok h
      cases heq
  · obtain ⟨b', c₄, hb, h⟩ := bind_eq_ok h
    obtain ⟨after, c₅, hafter, h⟩ := bind_eq_ok h
    obtain ⟨e, mid, hend, h⟩ := bind_eq_ok h
    obtain ⟨heq, -⟩ := pure_eq_ok h
    cases heq
    obtain ⟨hspan, hlast⟩ := blockAt_place hb
    obtain ⟨head, inner, tail, rfl, ⟨used, rfl⟩, hread⟩ := blockAt_lines hb hlayout
    obtain ⟨name', hname'⟩ := (Consumes.blank.leaves hgap).trans (Consumes.identifier.leaves hname)
    subst hname'
    -- the block ends behind the line feed
    have hwhole : front ++ (before ++ (name' ++ (head ++ '\n' :: (used ++ c₄)))) =
        (front ++ before) ++ (name' ++ (head ++ '\n' :: used) ++ c₄) := by simp
    have hstart : name' ++ (head ++ '\n' :: (used ++ c₄)) =
        name' ++ (head ++ '\n' :: used) ++ c₄ := by simp
    refine ⟨?_, front ++ before ++ name' ++ head, used ++ c₄, tail, by simp, hread⟩
    have hplace : b'.span = ⟨byteSize (front ++ before),
        byteSize (front ++ before) + byteSize (name' ++ (head ++ '\n' :: used))⟩ := by
      rw [hspan, hwhole, hstart]
      simp only [byteSize_append]
      congr 1 <;> omega
    show '\n' ∈ b'.span.text _
    rw [hplace, hwhole, Span.text_append]
    simp

/-- **Bodies**: every block among structures that were read has its own body inside. -/
theorem structuresWithin_interior {n : Nat} {names : List String} {front cs rest : List Char}
    {ss : List Structure} {ended : Bool}
    (h : structuresWithin (byteSize (front ++ cs)) n names cs = .ok ((ss, ended), rest)) :
    ∀ b ∈ blocksOf ss, ∀ opening closing, b.layout = .lines opening closing →
      b.Interior (front ++ cs) := by
  induction n generalizing front cs names ss ended with
  | zero => cases h
  | succ n ih =>
    obtain ⟨o, mid, hline, h⟩ := bind_eq_ok h
    have hmid : mid <:+ cs := Consumes.leaves hline
    rcases opt_eq_ok hline with ⟨⟨s, e⟩, rfl, hs⟩ | ⟨rfl, -, rfl⟩
    · -- the body of a block on several lines starts behind the line of its brace
      have hfirst : ∀ b, s = .block b → ∀ opening closing, b.layout = .lines opening closing →
          b.Interior (front ++ cs) := by
        rintro b rfl opening closing hlayout
        obtain ⟨hfeed, ahead, inner, tail, hinner, hread⟩ := structureLine_interior hs hlayout
        obtain ⟨⟨found, e⟩, last, hfound, hread⟩ := bind_eq_ok hread
        obtain ⟨hbody, -⟩ := pure_eq_ok hread
        have hsplit : front ++ cs = (ahead ++ ['\n']) ++ inner := by simp [hinner]
        rw [hsplit] at hfound
        refine ⟨hfeed, ahead ++ ['\n'], inner, last, e, hsplit, List.getLast?_concat, ?_⟩
        rw [hbody]
        exact structuresWithin_placed hfound
      cases e with
      | true =>
        obtain ⟨⟨more, e⟩, last, hmore, h⟩ := bind_eq_ok h
        obtain ⟨heq, rfl⟩ := pure_eq_ok h
        cases heq
        obtain ⟨used, rfl⟩ := hmid
        rw [← List.append_assoc] at hmore
        have hrest := ih hmore
        intro b hb opening closing hlayout
        cases s with
        | attr a => simpa using hrest b hb opening closing hlayout
        | block c =>
          rcases List.mem_cons.1 hb with rfl | hb
          · exact hfirst b rfl opening closing hlayout
          · simpa using hrest b hb opening closing hlayout
      | false =>
        obtain ⟨heq, -⟩ := pure_eq_ok h
        cases heq
        intro b hb opening closing hlayout
        cases s with
        | attr a => cases hb
        | block c => exact hfirst b (by rw [List.mem_singleton.1 hb]) opening closing hlayout
    · obtain ⟨heq, -⟩ := pure_eq_ok h
      cases heq
      nofun

end Reader

/-- **The blocks on several lines** of a document that was read have their bodies inside. -/
theorem Document.interior {source : String} {d : Document} (h : Document.read? source = some d)
    {b : Block} (hb : b ∈ d.blocks) {opening closing : Trivia}
    (hlayout : b.layout = .lines opening closing) : b.Interior source.toList := by
  have hread := all?_eq_some.1 h
  obtain ⟨⟨ss, ended⟩, c₁, hss, hread⟩ := bind_eq_ok hread
  obtain ⟨final, c₂, hclosing, hread⟩ := bind_eq_ok hread
  obtain ⟨u, c₃, hend, hread⟩ := bind_eq_ok hread
  obtain ⟨rfl, -⟩ := pure_eq_ok hread
  rw [← List.nil_append source.toList] at hss ⊢
  exact structuresWithin_interior hss b hb opening closing hlayout

end HclOverlay.Hcl
