import HclOverlay.Hcl.Reader.Body
import HclOverlay.Proofs.Reading.Rules

/-!
# The rules of documents

For each reader of attributes, blocks and bodies, what it does on a text whose pieces are known.
Like the rules of expressions, they do not depend on how the pieces were written.

* `attributeAt_ok`, `label_bare`, `label_quoted`, `labels_cons` — the parts of a structure.
* `bodyOfLines_ok`, `bodyOnLine_attr`, `bodyOnLine_nil`, `blockAt_ok` — bodies and blocks.
* `structureLine_attr`, `structureLine_block`, `structuresWithin_cons` and its companions — the
  structures of a body.
-/

namespace HclOverlay.Hcl.Reader

variable {size start : Nat} {cs c₁ c₂ c₃ c₄ c₅ rest : List Char}

/-! ## Attributes -/

theorem attributeAt_ok {before gap lead : Trivia} {name : String} {e : Expr}
    (hlead : blank cs = .ok (lead, c₁)) (hvalue : expr .line c₁ = .ok (e, rest)) :
    ∃ span, attributeAt size start before name gap ('=' :: cs) =
      .ok (⟨before, name, gap, lead, e, none, span⟩, rest) := by
  refine ⟨some ⟨start, size - Source.byteSize rest⟩, ?_⟩
  rw [attributeAt, bind_ok (char_self _ _), bind_ok hlead, bind_ok hvalue]
  rfl

/-! ## Labels -/

/-- No name starts where the first character of none stands. -/
theorem identifier_absent (h : ∀ c ∈ cs.head?, Text.isIdentifierStart c = false) :
    identifier cs = .error .absent := by
  cases cs with
  | nil => rfl
  | cons c cs => rw [identifier, if_neg (by simp [h c rfl])]

theorem label_bare {name : String} {after : Trivia} (hname : identifier cs = .ok (name, c₁))
    (hafter : blank c₁ = .ok (after, rest)) : label cs = .ok (⟨name, false, after⟩, rest) := by
  rw [label, bind_ok (opt_ok hname)]
  change (blank >>= _) c₁ = _
  rw [bind_ok hafter]
  rfl

theorem label_quoted {content : String} {after : Trivia}
    (hcontent : quotedText cs = .ok (content, c₁)) (hafter : blank c₁ = .ok (after, rest)) :
    label cs = .ok (⟨content, true, after⟩, rest) := by
  have hquote : identifier cs = .error .absent := by
    obtain ⟨u, mid, hchar, -⟩ := bind_eq_ok hcontent
    rw [char_eq_ok hchar]
    rfl
  rw [label, bind_ok (opt_absent hquote)]
  change (quotedText >>= _) cs = _
  rw [bind_ok hcontent, bind_ok hafter]
  rfl

theorem labels_nil (n : Nat) (rest : List Char) :
    labels (n + 1) ('{' :: rest) = .ok ([], '{' :: rest) := by
  have hlabel : label ('{' :: rest) = .error .absent := by
    rw [label, bind_ok (opt_absent rfl)]
    rfl
  rw [labels, bind_ok (opt_absent hlabel)]
  rfl

theorem labels_cons {n : Nat} {l : Label} {ls : List Label} (hl : label cs = .ok (l, c₁))
    (hmore : labels n c₁ = .ok (ls, rest)) : labels (n + 1) cs = .ok (l :: ls, rest) := by
  rw [labels, bind_ok (opt_ok hl)]
  change (labels n >>= _) c₁ = _
  rw [bind_ok hmore]
  rfl

/-! ## Bodies and blocks -/

section Bodies

variable {body : Reader (List Structure)} {ss : List Structure}

theorem bodyOfLines_ok {opening closing eol : Trivia} (hopening : lineTail cs = .ok (opening, c₁))
    (heol : lineEnd c₁ = .ok (eol, c₂)) (hbody : body c₂ = .ok (ss, c₃))
    (hclosing : white c₃ = .ok (closing, '}' :: rest)) :
    bodyOfLines body cs = .ok ((.lines opening closing, ss), rest) := by
  rw [bodyOfLines, bind_ok hopening, bind_ok heol, bind_ok hbody, bind_ok hclosing,
    bind_ok (char_self _ _)]
  rfl

theorem bodyOfLines_absent {opening : Trivia} (hopening : lineTail cs = .ok (opening, c₁))
    (heol : lineEnd c₁ = .error .absent) : bodyOfLines body cs = .error .absent := by
  rw [bodyOfLines, bind_ok hopening, bind_error heol]

/-- Structures have lines of their own only if the line of the brace ends. -/
theorem bodyOfLines_of_token {blanks : Trivia} {c : Char} (hc : startsToken c = true)
    (hblank : blank cs = .ok (blanks, c :: rest)) : bodyOfLines body cs = .error .absent := by
  simp only [startsToken, isWhiteChar, Bool.not_eq_true', Bool.or_eq_false_iff,
    beq_eq_false_iff_ne, ne_eq] at hc
  obtain ⟨⟨⟨⟨-, hn⟩, hr⟩, hhash⟩, hslash⟩ := hc
  have hcomment : ofOption lineComment? (c :: rest) = .error .absent := by
    rw [ofOption, lineComment?_of_ne hslash hhash]
  have htail : lineTail cs = .ok (blanks, c :: rest) := by
    rw [lineTail, bind_ok hblank, bind_ok (opt_absent hcomment)]
    simp
  have hline : lineEnd (c :: rest) = .error .absent := by
    unfold lineEnd
    split
    · next heq => exact absurd (List.cons.inj heq).1 hn
    · next heq => exact absurd (List.cons.inj heq).1 hr
    · rfl
  exact bodyOfLines_absent htail hline

theorem bodyOnLine_attr {before gap after : Trivia} {name : String} {a : Attribute}
    (hbefore : blank cs = .ok (before, c₁)) (hname : identifier c₁ = .ok (name, c₂))
    (hgap : blank c₂ = .ok (gap, c₃))
    (ha : ∀ start, ∃ span, attributeAt size start before name gap c₃ =
      .ok ({ a with span := span }, c₄))
    (hafter : blank c₄ = .ok (after, '}' :: rest)) :
    ∃ span, bodyOnLine size cs =
      .ok ((.oneLine [], [.attr { a with after := some after, span := span }]), rest) := by
  obtain ⟨span, ha⟩ := ha (size - Source.byteSize c₁)
  have hoffset : offset size c₁ = .ok (size - Source.byteSize c₁, c₁) := rfl
  have hinline : inlineAttribute size cs =
      .ok ({ a with after := some after, span := span }, '}' :: rest) := by
    rw [inlineAttribute, bind_ok hbefore, bind_ok hoffset, bind_ok hname, bind_ok hgap, bind_ok ha,
      bind_ok hafter]
    rfl
  refine ⟨span, ?_⟩
  rw [bodyOnLine, bind_ok (opt_ok hinline)]
  change (char '}' >>= _) ('}' :: rest) = _
  rw [bind_ok (char_self _ _)]
  rfl

theorem bodyOnLine_nil {blanks : Trivia} (h : blank cs = .ok (blanks, '}' :: rest)) :
    bodyOnLine size cs = .ok ((.oneLine blanks, []), rest) := by
  have hoffset : offset size ('}' :: rest) =
      .ok (size - Source.byteSize ('}' :: rest), '}' :: rest) := rfl
  have hname : identifier ('}' :: rest) = .error .absent := rfl
  have hinline : inlineAttribute size cs = .error .absent := by
    rw [inlineAttribute, bind_ok h, bind_ok hoffset, bind_error hname]
  rw [bodyOnLine, bind_ok (opt_absent hinline)]
  change (blank >>= _) cs = _
  rw [bind_ok h, bind_ok (char_self _ _)]
  rfl

theorem blockAt_ok {before gap : Trivia} {kind : String} {ls : List Label} {layout : Layout}
    (hlabels : labels (cs.length + 1) cs = .ok (ls, '{' :: c₁))
    (hbody : (bodyOfLines body <|> bodyOnLine size) c₁ = .ok ((layout, ss), rest)) :
    ∃ span, blockAt size start body before kind gap cs =
      .ok (⟨before, kind, gap, ls, layout, ss, [], span⟩, rest) := by
  refine ⟨⟨start, size - Source.byteSize rest⟩, ?_⟩
  rw [blockAt, bind_ok (show bounded labels cs = _ from hlabels), bind_ok (char_self _ _),
    bind_ok hbody]
  rfl

/-! ## Lines -/

variable {names : List String} {before gap after : Trivia} {name : String} {ended : Bool}

theorem structureLine_attr {a : Attribute} (hbefore : white cs = .ok (before, c₁))
    (hname : identifier c₁ = .ok (name, c₂)) (hgap : blank c₂ = .ok (gap, c₃))
    (hequals : c₃.head? = some '=') (hnew : name ∉ names)
    (ha : ∀ start, ∃ span, attributeAt size start before name gap c₃ =
      .ok ({ a with span := span }, c₄))
    (hafter : lineTail c₄ = .ok (after, c₅)) (hend : lineEndOrEnd c₅ = .ok (ended, rest)) :
    ∃ span, structureLine size body names cs =
      .ok ((.attr { a with after := some after, span := span }, ended), rest) := by
  obtain ⟨span, ha⟩ := ha (size - Source.byteSize c₁)
  have hoffset : offset size c₁ = .ok (size - Source.byteSize c₁, c₁) := rfl
  refine ⟨span, ?_⟩
  rw [structureLine, bind_ok hbefore, bind_ok hoffset, bind_ok hname, bind_ok hgap,
    bind_ok (a := c₃) rfl, if_pos (by simp [hequals]), if_neg (by simpa using hnew)]
  change (attributeAt size _ before name gap >>= _) c₃ = _
  rw [bind_ok ha, bind_ok hafter, bind_ok hend]
  rfl

theorem structureLine_block (names : List String) {b : Block} (hbefore : white cs = .ok (before, c₁))
    (hname : identifier c₁ = .ok (name, c₂)) (hgap : blank c₂ = .ok (gap, c₃))
    (hequals : c₃.head? ≠ some '=')
    (hb : ∀ start, ∃ span, blockAt size start body before name gap c₃ =
      .ok ({ b with span := span }, c₄))
    (hafter : lineTail c₄ = .ok (after, c₅)) (hend : lineEndOrEnd c₅ = .ok (ended, rest)) :
    ∃ span, structureLine size body names cs =
      .ok ((.block { b with after := after, span := span }, ended), rest) := by
  obtain ⟨span, hb⟩ := hb (size - Source.byteSize c₁)
  have hoffset : offset size c₁ = .ok (size - Source.byteSize c₁, c₁) := rfl
  refine ⟨span, ?_⟩
  rw [structureLine, bind_ok hbefore, bind_ok hoffset, bind_ok hname, bind_ok hgap,
    bind_ok (a := c₃) rfl, if_neg (by simpa using hequals)]
  rw [bind_ok hb, bind_ok hafter, bind_ok hend]
  rfl

/-- There is no structure where no name starts. -/
theorem structureLine_absent (hbefore : white cs = .ok (before, c₁))
    (hname : ∀ c ∈ c₁.head?, Text.isIdentifierStart c = false) :
    structureLine size body names cs = .error .absent := by
  have hoffset : offset size c₁ = .ok (size - Source.byteSize c₁, c₁) := rfl
  rw [structureLine, bind_ok hbefore, bind_ok hoffset, bind_error (identifier_absent hname)]

end Bodies

/-- The reader for the body of a block among structures that are read with the given depth. -/
def nestedBody (size depth : Nat) : Reader (List Structure) :=
  Prod.fst <$> structuresWithin size depth []

variable {depth : Nat} {names : List String} {s : Structure} {ss : List Structure}

theorem nestedBody_ok {ended : Bool} (h : structuresWithin size depth [] cs = .ok ((ss, ended), rest)) :
    nestedBody size depth cs = .ok (ss, rest) :=
  map_ok h Prod.fst

theorem structuresWithin_nil
    (h : structureLine size (nestedBody size depth) names cs = .error .absent) :
    structuresWithin size (depth + 1) names cs = .ok (([], true), cs) := by
  rw [structuresWithin]
  change (opt (structureLine size (nestedBody size depth) names) >>= _) cs = _
  rw [bind_ok (opt_absent h)]
  rfl

theorem structuresWithin_cons {ended : Bool}
    (hs : structureLine size (nestedBody size depth) names cs = .ok ((s, true), c₁))
    (hmore : structuresWithin size depth (addName names s) c₁ = .ok ((ss, ended), rest)) :
    structuresWithin size (depth + 1) names cs = .ok ((s :: ss, ended), rest) := by
  rw [structuresWithin]
  change (opt (structureLine size (nestedBody size depth) names) >>= _) cs = _
  rw [bind_ok (opt_ok hs)]
  change (structuresWithin size depth (addName names s) >>= _) c₁ = _
  rw [bind_ok hmore]
  rfl

theorem structuresWithin_last
    (hs : structureLine size (nestedBody size depth) names cs = .ok ((s, false), rest)) :
    structuresWithin size (depth + 1) names cs = .ok (([s], false), rest) := by
  rw [structuresWithin]
  change (opt (structureLine size (nestedBody size depth) names) >>= _) cs = _
  rw [bind_ok (opt_ok hs)]
  rfl

theorem document_ok {ended : Bool} {closing : Trivia}
    (hss : structuresWithin (Source.byteSize cs) (cs.length + 1) [] cs = .ok ((ss, ended), rest))
    (hclosing : white rest = .ok (closing, [])) :
    document cs = .ok (⟨ss, closing, ended⟩, []) := by
  rw [document, bind_ok hss]
  change (white >>= _) rest = _
  rw [bind_ok hclosing]
  rfl

end HclOverlay.Hcl.Reader
