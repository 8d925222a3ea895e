import HclOverlay.Hcl.Evaluation
import HclOverlay.Proofs.Documents.LineEnds
import HclOverlay.Proofs.Documents.Rules
import HclOverlay.Proofs.Documents.Shape

/-!
# Printed documents are read again

The text of a document that has the shape of one that was read is read as a document with the same
names, labels and values in the same order, provided that this holds for each value on its own.
Whatever stands around the values never matters: how a body is laid out, which of its attributes
were there before and which were written, and what line ends the text is given.

* `Outline` — the names, labels and values of a document.
* `Follows` — what stands behind the value of an attribute.
* `Expr.KeptBy`, `Label.Kept`, `Structure.KeptBy` — values and labels that are read back.
* `structureLine_conv`, `structuresWithin_conv` — structures, by induction on the depth of the
  reader.
* `Document.read?_conv` — **documents**.
-/

namespace HclOverlay.Hcl

open Reader

/-! ## Outlines -/

/-- What an attribute or a block says: names, labels and values. -/
inductive Outline where
  | attr (name : String) (value : Value)
  | block (kind : String) (labels : List String) (body : List Outline)

mutual

/-- The outline of a structure. -/
def Structure.outline : Structure → Outline
  | .attr a => .attr a.name a.value.value
  | .block b => b.outline
termination_by structural s => s

/-- The outline of a block. -/
def Block.outline : Block → Outline
  | ⟨_, kind, _, labels, _, body, _, _⟩ => .block kind (labels.map Label.text) (outlines body)
termination_by structural b => b

/-- The outlines of structures, in order. -/
def outlines : List Structure → List Outline
  | [] => []
  | first :: rest => first.outline :: outlines rest
termination_by structural ss => ss

end

/-- The outline of a document. -/
def Document.outline (d : Document) : List Outline := outlines d.structures

theorem Block.outline_eq (b : Block) :
    b.outline = .block b.kind b.labelTexts (outlines b.body) := by
  cases b
  rfl

/-! ## What stands behind a structure -/

/-- A text that goes on with a structure, with the end of a body or not at all. -/
def Opens (cs : List Char) : Prop :=
  ∃ w mid, white cs = .ok (w, mid) ∧ ∀ c ∈ mid.head?, Text.isIdentifierStart c = true ∨ c = '}'

/-- A text that goes on with the end of a body or not at all. -/
def Closes (cs : List Char) : Prop :=
  ∃ w mid, white cs = .ok (w, mid) ∧ ∀ c ∈ mid.head?, c = '}'

theorem Closes.opens {cs : List Char} (h : Closes cs) : Opens cs := by
  obtain ⟨w, mid, hwhite, hmid⟩ := h
  exact ⟨w, mid, hwhite, fun c hc => .inr (hmid c hc)⟩

/-- What may stand behind the value of an attribute: the end of its line and what the next line
starts with, or the brace that ends the body on the same line. -/
inductive Follows : List Char → Prop
  | line {t rest : List Char} (ht : Tails false t) (hline : AtLineEnd rest) (hopens : Opens rest) :
      Follows (t ++ rest)
  | brace {t : Trivia} (ht : Skips false t) (rest : List Char) : Follows (t ++ '}' :: rest)

/-! ## Values and labels that are read back -/

/-- An expression whose text, with its line ends changed, is read as an expression with the same
value wherever an attribute can stand. -/
def Expr.KeptBy (conv : List Char → List Char) (e : Expr) : Prop :=
  ∀ rest, Follows (conv rest) →
    ∃ e', expr .line (conv (e.print ++ rest)) = .ok (e', conv rest) ∧ e'.value = e.value

/-- A label that is bare, or whose quoted text is read back. -/
def Label.Kept (l : Label) : Prop :=
  l.quoted = true →
    ∀ rest, quotedText (Quoted.quoteAll l.text.toList ++ rest) = .ok (l.text, rest)

/-- A structure all of whose values and labels are read back. -/
inductive Structure.KeptBy (conv : List Char → List Char) : Structure → Prop
  | attr {a : Attribute} (h : a.value.KeptBy conv) : KeptBy conv (.attr a)
  | block {b : Block} (labels : ∀ l ∈ b.labels, l.Kept) (body : ∀ s ∈ b.body, KeptBy conv s) :
      KeptBy conv (.block b)

/-! ## Names -/

/-- A name is not empty, and holds neither a line end nor trivia. -/
theorem isIdentifier_toList {name : String} (h : Text.isIdentifier name = true) :
    ∃ c more, name.toList = c :: more ∧ Text.isIdentifierStart c = true ∧
      '\n' ∉ name.toList ∧ '\r' ∉ name.toList := by
  unfold Text.isIdentifier Text.isIdentifierChars at h
  split at h
  · cases h
  · next c more heq =>
    simp only [Bool.and_eq_true, List.all_eq_true] at h
    refine ⟨c, more, heq, h.1, ?_, ?_⟩ <;> rw [heq] <;> intro hmem <;>
      rcases List.mem_cons.1 hmem with hc | hc
    · exact absurd (hc ▸ h.1) (by decide)
    · exact absurd (h.2 _ hc) (by decide)
    · exact absurd (hc ▸ h.1) (by decide)
    · exact absurd (h.2 _ hc) (by decide)

/-- An expression does not start with blanks. -/
theorem ends_of_expr {cs rest : List Char} {e : Expr} (h : expr .line cs = .ok (e, rest)) :
    Ends false cs := by
  cases cs with
  | nil => exact ends_nil false
  | cons c tail =>
    by_cases hblank : c = ' ' ∨ c = '\t' ∨ c = '/'
    · have herror : expr .line (c :: tail) = .error .malformed := by
        refine exprStep_error ?_
        rcases hblank with rfl | rfl | rfl <;> rfl
      rw [herror] at h
      cases h
    · rw [not_or, not_or] at hblank
      obtain ⟨hspace, htab, hslash⟩ := hblank
      simp [Ends, stops, gapSkips, gapComment?, isBlankChar, hspace, htab,
        inlineComment?_of_ne hslash]

/-- Blanks start with a blank or a slash. -/
theorem head?_blanks {t : Trivia} (ht : Skips false t) {y : List Char} {c : Char}
    (hc : (t ++ y).head? = some c) : (c = ' ' ∨ c = '\t' ∨ c = '/') ∨ y.head? = some c := by
  cases ht with
  | nil => exact .inr hc
  | skip hd _ =>
    obtain rfl := Option.some.inj hc
    simp only [gapSkips, isBlankChar, Bool.false_eq_true, if_false, Bool.or_eq_true,
      beq_iff_eq] at hd
    exact .inl (hd.imp_right .inl)
  | comment hbody _ =>
    unfold inlineComment? at hbody
    split at hbody
    · obtain rfl := Option.some.inj hc
      exact .inl (.inr (.inr rfl))
    · cases hbody
  | line hnewlines => cases hnewlines

/-- A character that ends names and is no line end. -/
def endsNames (c : Char) : Bool :=
  !Text.isIdentifierContinue c && c != '\n' && c != '\r'

theorem endsNames_of_blanks {t : Trivia} (ht : Skips false t) {y : List Char}
    (hy : ∀ c ∈ y.head?, endsNames c = true) : ∀ c ∈ (t ++ y).head?, endsNames c = true := by
  intro c hc
  rcases head?_blanks ht hc with (rfl | rfl | rfl) | hc
  · decide
  · decide
  · decide
  · exact hy c hc

/-- An attribute from its name on to the end of its value, and a text behind it. -/
def Attribute.fromName (a : Attribute) (y : List Char) : List Char :=
  a.name.toList ++ (a.gap ++ '=' :: (a.lead ++ (a.value.print ++ y)))

theorem Attribute.print_append (a : Attribute) (side : Trivia) (y : List Char) :
    a.print side ++ y = a.before ++ a.fromName (a.after.getD side ++ y) := by
  simp [Attribute.print, Attribute.fromName]

theorem endsNames_of_endsName {t : Trivia} (ht : Skips false t) {y : List Char}
    (h : EndsName (t ++ y)) {c : Char} (hc : y.head? = some c) (htoken : startsToken c = true) :
    ∀ d ∈ (t ++ y).head?, endsNames d = true := by
  intro d hd
  have hends := h d hd
  rcases head?_blanks ht hd with (rfl | rfl | rfl) | hd
  · decide
  · decide
  · decide
  · obtain rfl := Option.some.inj (hc.symm.trans hd)
    have hline : c ≠ '\n' ∧ c ≠ '\r' := by
      constructor <;> rintro rfl <;> cases htoken
    simp [endsNames, hends, hline]

/-- Names end in front of labels as they end in front of their text alone. -/
theorem endsName_labels {t : Trivia} {ls : List Label} (h : EndsName (t ++ labelsText ls))
    (y : List Char) : EndsName (t ++ (ls.flatMap Label.print ++ '{' :: y)) := by
  refine h.of_head ?_
  rw [labelsText]
  cases ls.flatMap Label.print <;> rfl

/-- The text of a body between its braces. -/
def Layout.print : Layout → List Structure → List Char
  | .lines opening closing, body => opening ++ '\n' :: (printLines body ++ closing)
  | .oneLine blanks, [] => blanks
  | .oneLine blanks, [.attr a] => a.print [' '] ++ blanks
  | .oneLine blanks, body => '\n' :: (printLines body ++ blanks)

theorem Block.print_append (b : Block) (y : List Char) :
    b.print ++ y =
      b.before ++ (b.kind.toList ++ (b.gap ++ (b.labels.flatMap Label.print ++ '{' ::
        (b.layout.print b.body ++ '}' :: (b.after ++ y))))) := by
  obtain ⟨before, kind, gap, labels, layout, body, after, span⟩ := b
  have hprint : Block.print ⟨before, kind, gap, labels, layout, body, after, span⟩ =
      before ++ kind.toList ++ gap ++ labels.flatMap Label.print ++ '{' ::
        (layout.print body ++ '}' :: after) := by
    cases layout with
    | lines opening closing => rfl
    | oneLine blanks =>
      match body with
      | [] => rfl
      | [.attr a] => rfl
      | [.block b] => rfl
      | s :: t :: rest => cases s <;> rfl
  rw [hprint]
  simp

/-- A body is printed on lines, or on the line of its block with an attribute or none. -/
theorem Layout.print_cases {layout : Layout} {body : List Structure} (h : layout.Shaped body) :
    (∃ opening closing, Tails false opening ∧ Skips true closing ∧
        layout.print body = opening ++ '\n' :: (printLines body ++ closing)) ∨
      (body = [] ∧ Skips false (layout.print body)) ∨
      ∃ a blanks, body = [.attr a] ∧ Skips false blanks ∧ Skips false a.before ∧
        (∀ t ∈ a.after, Skips false t) ∧ layout.print body = a.print [' '] ++ blanks := by
  cases layout with
  | lines opening closing => exact .inl ⟨opening, closing, h.1, h.2, rfl⟩
  | oneLine blanks =>
    match body with
    | [] => exact .inr (.inl ⟨rfl, h⟩)
    | [.attr a] => exact .inr (.inr ⟨a, blanks, rfl, h.1, h.2.1, h.2.2, rfl⟩)
    | [.block b] => exact .inl ⟨[], blanks, .trivia .nil, Skips.to_true h, rfl⟩
    | .attr a :: t :: rest => exact .inl ⟨[], blanks, .trivia .nil, Skips.to_true h, rfl⟩
    | .block b :: t :: rest => exact .inl ⟨[], blanks, .trivia .nil, Skips.to_true h, rfl⟩

/-! ## Pieces of the text -/

section Conv

variable {conv : List Char → List Char} (hconv : ChangesEnds conv)
include hconv

theorem identifier_conv {name : String} {y : List Char} (h : Text.isIdentifier name = true)
    (hy : EndsName (conv y)) : identifier (conv (name.toList ++ y)) = .ok (name, conv y) := by
  obtain ⟨-, -, -, -, hn, hr⟩ := isIdentifier_toList h
  rw [hconv.token hn hr, identifier_ok h hy, String.ofList_toList]

theorem ends_name_conv {name : String} (h : Text.isIdentifier name = true) (newlines : Bool)
    (y : List Char) : Ends newlines (conv (name.toList ++ y)) := by
  obtain ⟨c, more, heq, hstart, hn, hr⟩ := isIdentifier_toList h
  rw [hconv.token hn hr, heq]
  exact ends_of_startsToken (startsToken_of_isIdentifierStart hstart) newlines _

theorem blank_conv {t : Trivia} {y : List Char} (ht : Skips false t) (hy : Ends false (conv y)) :
    blank (conv (t ++ y)) = .ok (conv t, conv y) := by
  rw [hconv.blanks ht]
  exact (hconv.skips ht).blank hy

theorem white_conv {t : Trivia} {y : List Char} (ht : Skips true t) (hline : y.head? ≠ some '\n')
    (hy : Ends true (conv y)) : white (conv (t ++ y)) = .ok (conv t, conv y) := by
  rw [hconv.white t hline]
  exact (hconv.skips ht).white hy

theorem white_name_conv {t : Trivia} (ht : Skips true t) {name : String}
    (h : Text.isIdentifier name = true) (y : List Char) :
    white (conv (t ++ (name.toList ++ y))) = .ok (conv t, conv (name.toList ++ y)) := by
  obtain ⟨c, more, heq, -, hn, -⟩ := isIdentifier_toList h
  refine white_conv hconv ht ?_ (ends_name_conv hconv h true y)
  rw [heq] at hn ⊢
  intro hc
  exact hn (Option.some.inj hc ▸ List.mem_cons_self)

theorem lineTail_conv {t : Trivia} {y : List Char} (ht : Tails false t) (hy : AtLineEnd (conv y)) :
    lineTail (conv (t ++ y)) = .ok (conv t, conv y) := by
  rw [hconv.tail_append ht]
  exact (hconv.tails ht).lineTail hy

/-- A name still ends where it did. -/
theorem endsName_conv {y : List Char} (h : ∀ c ∈ y.head?, endsNames c = true) :
    EndsName (conv y) := by
  cases y with
  | nil =>
    rw [hconv.nil]
    nofun
  | cons c y =>
    have hc := h c rfl
    simp only [endsNames, Bool.and_eq_true, Bool.not_eq_true', bne_iff_ne, ne_eq] at hc
    rw [hconv.cons hc.1.2 hc.2]
    rintro d hd
    cases hd
    exact hc.1.1

theorem token_conv {c : Char} (hc : startsToken c = true) (y : List Char) :
    conv (c :: y) = c :: conv y := by
  have hline : c ≠ '\n' ∧ c ≠ '\r' := by
    constructor <;> rintro rfl <;> cases hc
  exact hconv.cons hline.1 hline.2 y

theorem ends_token_conv {c : Char} (hc : startsToken c = true) {y : List Char}
    (hy : y.head? = some c) (newlines : Bool) : Ends newlines (conv y) := by
  cases y with
  | nil => cases hy
  | cons d y =>
    obtain rfl := Option.some.inj hy
    rw [token_conv hconv hc]
    exact ends_of_startsToken hc newlines _

/-! ## Attributes -/

/-- An attribute is read from its name on: the name, the blanks in front of the equals sign, and
the value with the blanks in front of it. -/
theorem fromName_conv {a : Attribute} (ha : a.Shaped) (hk : a.value.KeptBy conv) {y : List Char}
    (hy : Follows (conv y)) :
    ∃ e c₂ c₃, e.value = a.value.value ∧
      identifier (conv (a.fromName y)) = .ok (a.name, c₂) ∧ blank c₂ = .ok (conv a.gap, c₃) ∧
      c₃.head? = some '=' ∧
      ∀ size start before gap, ∃ span, attributeAt size start before a.name gap c₃ =
        .ok (⟨before, a.name, gap, conv a.lead, e, none, span⟩, conv y) := by
  obtain ⟨e, he, hvalue⟩ := hk y hy
  have hequals := token_conv hconv (c := '=') (by decide) (a.lead ++ (a.value.print ++ y))
  have hends : EndsName (conv (a.gap ++ '=' :: (a.lead ++ (a.value.print ++ y)))) :=
    endsName_conv hconv (endsNames_of_blanks ha.gap fun c hc => by
      cases hc
      decide)
  have hlead := blank_conv hconv ha.lead (ends_of_expr he)
  refine ⟨e, _, _, hvalue, identifier_conv hconv ha.name hends,
    blank_conv hconv ha.gap (ends_token_conv hconv (c := '=') (by decide) rfl false), ?_, ?_⟩
  · rw [hequals]
    rfl
  · intro size start before gap
    rw [hequals]
    exact attributeAt_ok hlead he

/-- An attribute is read again as the attribute of a line. -/
theorem structureLine_conv_attr {a : Attribute} (ha : a.Shaped) (hk : a.value.KeptBy conv)
    {names : List String} (hnew : a.name ∉ names) (size : Nat) (body : Reader (List Structure))
    {y last : List Char} {ended : Bool} (hline : AtLineEnd (conv y)) (hopens : Opens (conv y))
    (hend : lineEndOrEnd (conv y) = .ok (ended, last)) :
    ∃ b, structureLine size body names (conv (a.print [] ++ y)) = .ok ((.attr b, ended), last) ∧
      b.name = a.name ∧ b.value.value = a.value.value := by
  have hafter : Tails false (a.after.getD []) := by
    cases h : a.after with
    | none => exact .trivia .nil
    | some t => exact ha.after t h
  have hfollows : Follows (conv (a.after.getD [] ++ y)) := by
    rw [hconv.tail_append hafter]
    exact .line (hconv.tails hafter) hline hopens
  obtain ⟨e, c₂, c₃, hvalue, hname, hgap, hequals, hat⟩ := fromName_conv hconv ha hk hfollows
  obtain ⟨span, hread⟩ := structureLine_attr
    (a := ⟨conv a.before, a.name, conv a.gap, conv a.lead, e, none, none⟩)
    (white_name_conv hconv ha.before ha.name _) hname hgap hequals hnew
    (fun start => hat size start _ _) (lineTail_conv hconv hafter hline) hend
  rw [a.print_append]
  exact ⟨_, hread, rfl, hvalue⟩

/-! ## Labels -/

omit hconv in
/-- Quoted text stays on its line. -/
theorem quoteAll_chars (cs : List Char) :
    '\n' ∉ Quoted.quoteAll cs ∧ '\r' ∉ Quoted.quoteAll cs := by
  have hdigits : ∀ n < 128, '\n' ∉ (Quoted.hex4 n).map Char.toUpper ∧
      '\r' ∉ (Quoted.hex4 n).map Char.toUpper := by
    decide +kernel
  have hchar : ∀ c, '\n' ∉ Quoted.escapeCharAll c ∧ '\r' ∉ Quoted.escapeCharAll c := by
    intro c
    unfold Quoted.escapeCharAll
    split
    case h_8 hn hr _ _ _ =>
      split
      · next hcontrol =>
        have hlow : c.toNat < 128 := by
          simp only [Bool.or_eq_true, decide_eq_true_eq, beq_iff_eq] at hcontrol
          omega
        simpa using hdigits c.toNat hlow
      · exact ⟨by simpa using Ne.symm hn, by simpa using Ne.symm hr⟩
    all_goals decide
  simp [Quoted.quoteAll, Quoted.escapeAll, hchar]

omit hconv in
/-- Labels start with a token that is no equals sign. -/
theorem head?_labels {ls : List Label} (h : LabelsShaped ls) (y : List Char) :
    ∃ c, (ls.flatMap Label.print ++ '{' :: y).head? = some c ∧ startsToken c = true ∧ c ≠ '=' := by
  cases ls with
  | nil => exact ⟨'{', rfl, by decide, by decide⟩
  | cons l rest =>
    cases hq : l.quoted with
    | true =>
      refine ⟨'"', ?_, by decide, by decide⟩
      simp [Label.print, hq, Quoted.quoteAll]
    | false =>
      obtain ⟨c, more, heq, hstart, -⟩ := isIdentifier_toList (h.2.1 hq).1
      refine ⟨c, ?_, startsToken_of_isIdentifierStart hstart, ?_⟩
      · simp [Label.print, hq, heq]
      · rintro rfl
        exact absurd hstart (by decide)

/-- Labels are read again, with other trivia between them. -/
theorem labels_conv {ls : List Label} (h : LabelsShaped ls) (hk : ∀ l ∈ ls, l.Kept) {n : Nat}
    {y : List Char} (hn : (conv (ls.flatMap Label.print ++ '{' :: y)).length < n) :
    ∃ ls', labels n (conv (ls.flatMap Label.print ++ '{' :: y)) = .ok (ls', '{' :: conv y) ∧
      ls'.map Label.text = ls.map Label.text := by
  induction ls generalizing n with
  | nil =>
    obtain ⟨n, rfl⟩ := Nat.exists_eq_add_of_le' (show 1 ≤ n by omega)
    refine ⟨[], ?_, rfl⟩
    rw [List.flatMap_nil, List.nil_append, hconv.cons (by decide) (by decide)]
    exact labels_nil n _
  | cons l rest ih =>
    obtain ⟨n, rfl⟩ := Nat.exists_eq_add_of_le' (show 1 ≤ n by omega)
    obtain ⟨hafter, hbare, hrest⟩ := h
    obtain ⟨c, hc, htoken, -⟩ := head?_labels hrest y
    have hblank := blank_conv hconv hafter (ends_token_conv hconv htoken hc false)
    have hshort := hconv.length_append_le l.after (rest.flatMap Label.print ++ '{' :: y)
    have htext : (l :: rest).flatMap Label.print ++ '{' :: y =
        (if l.quoted then Quoted.quoteAll l.text.toList else l.text.toList) ++
          (l.after ++ (rest.flatMap Label.print ++ '{' :: y)) := by
      simp [Label.print]
    rw [htext] at hn ⊢
    have hmore : (conv (rest.flatMap Label.print ++ '{' :: y)).length < n →
        ∃ ls', labels n (conv (rest.flatMap Label.print ++ '{' :: y)) =
          .ok (ls', '{' :: conv y) ∧ ls'.map Label.text = rest.map Label.text :=
      ih hrest fun l hl => hk l (List.mem_cons_of_mem _ hl)
    -- a quoted label is read back by assumption, a bare one as a name
    cases hq : l.quoted with
    | true =>
      obtain ⟨hline, hreturn⟩ := quoteAll_chars l.text.toList
      rw [hq, if_pos rfl, hconv.token hline hreturn] at hn
      obtain ⟨ls', hread, htexts⟩ := hmore (by
        rw [List.length_append, Quoted.quoteAll, List.length_cons] at hn
        omega)
      rw [if_pos rfl, hconv.token hline hreturn]
      have hl := label_quoted (hk l List.mem_cons_self hq _) hblank
      exact ⟨_, labels_cons hl hread, by simp [htexts]⟩
    | false =>
      obtain ⟨hid, hends⟩ := hbare hq
      obtain ⟨d, more, heq, -, hline, hreturn⟩ := isIdentifier_toList hid
      rw [hq, if_neg (by decide), hconv.token hline hreturn] at hn
      obtain ⟨ls', hread, htexts⟩ := hmore (by
        rw [heq, List.length_append, List.length_cons] at hn
        omega)
      rw [if_neg (by decide)]
      have hname := identifier_conv hconv hid (endsName_conv hconv
        (endsNames_of_endsName hafter (endsName_labels hends y) hc htoken))
      exact ⟨_, labels_cons (label_bare hname hblank) hread, by simp [htexts]⟩

/-! ## Bodies and blocks -/

/-- The attribute of a body on one line is read again there. -/
theorem bodyOnLine_conv {a : Attribute} {blanks : Trivia} (ha : a.Shaped)
    (hbefore : Skips false a.before) (hafter : ∀ t ∈ a.after, Skips false t)
    (hblanks : Skips false blanks) (hk : a.value.KeptBy conv) (size : Nat)
    (body : Reader (List Structure)) (y : List Char) :
    ∃ l ss, (bodyOfLines body <|> bodyOnLine size) (conv (a.print [' '] ++ blanks ++ '}' :: y)) =
        .ok ((l, ss), conv y) ∧ outlines ss = outlines [.attr a] := by
  have hlast : Skips false (a.after.getD [' '] ++ blanks) := by
    refine Skips.append ?_ hblanks
    cases h : a.after with
    | none => exact .skip rfl .nil
    | some t => exact hafter t h
  have hbrace := token_conv hconv (c := '}') (by decide) y
  have hblank := blank_conv hconv hlast (ends_token_conv hconv (c := '}') (y := '}' :: y)
    (by decide) rfl false)
  have hfollows : Follows (conv (a.after.getD [' '] ++ blanks ++ '}' :: y)) := by
    rw [hconv.blanks hlast, hbrace]
    exact .brace (hconv.skips hlast) _
  obtain ⟨e, c₂, c₃, hvalue, hname, hgap, -, hat⟩ := fromName_conv hconv ha hk hfollows
  have hfirst := blank_conv hconv hbefore (ends_name_conv hconv ha.name false (a.gap ++ '=' ::
    (a.lead ++ (a.value.print ++ (a.after.getD [' '] ++ blanks ++ '}' :: y)))))
  rw [hbrace] at hblank
  obtain ⟨span, hread⟩ := bodyOnLine_attr
    (a := ⟨conv a.before, a.name, conv a.gap, conv a.lead, e, none, none⟩) hfirst hname hgap
    (fun start => hat size start _ _) hblank
  obtain ⟨c, more, heq, hstart, hn, hr⟩ := isIdentifier_toList ha.name
  have htoken : ∃ z, conv (a.fromName (a.after.getD [' '] ++ blanks ++ '}' :: y)) = c :: z := by
    rw [Attribute.fromName, hconv.token hn hr, heq]
    exact ⟨_, rfl⟩
  obtain ⟨z, hz⟩ := htoken
  have hlines : bodyOfLines body (conv (a.before ++
      a.fromName (a.after.getD [' '] ++ blanks ++ '}' :: y))) = .error .absent :=
    bodyOfLines_of_token (startsToken_of_isIdentifierStart hstart) (hz ▸ hfirst)
  rw [List.append_assoc, a.print_append, ← List.append_assoc (a.after.getD [' '])]
  refine ⟨_, _, (orElse_absent hlines _).trans hread, ?_⟩
  simp only [outlines, Structure.outline, hvalue]

/-- The body of a block is read again: with a reader for its structures if they have lines of their
own. -/
theorem body_conv {layout : Layout} {body : List Structure} (hlayout : layout.Shaped body)
    (hshaped : ∀ s ∈ body, s.Shaped) (hk : ∀ s ∈ body, s.KeptBy conv) {y : List Char} {n : Nat}
    (hlen : (conv (layout.print body ++ '}' :: y)).length ≤ n) {nested : Reader (List Structure)}
    (hnested : ∀ tail, (conv (printLines body ++ tail)).length < n → Closes (conv tail) →
      ∃ ss, nested (conv (printLines body ++ tail)) = .ok (ss, conv tail) ∧
        outlines ss = outlines body) (size : Nat) :
    ∃ l ss, (bodyOfLines nested <|> bodyOnLine size) (conv (layout.print body ++ '}' :: y)) =
        .ok ((l, ss), conv y) ∧ outlines ss = outlines body := by
  have hbrace : ∀ z, conv ('}' :: z) = '}' :: conv z := hconv.cons (by decide) (by decide)
  -- lines of its own, nothing, or one attribute on the line of the block
  rcases Layout.print_cases hlayout with ⟨opening, closing, hopening, hclosing, htext⟩ |
    ⟨rfl, hblanks⟩ | ⟨a, blanks, rfl, hblanks, hbefore, hafter, htext⟩
  · have hwhite : white (conv (closing ++ '}' :: y)) = .ok (conv closing, '}' :: conv y) := by
      rw [← hbrace]
      exact white_conv hconv hclosing (by simp)
        (ends_token_conv hconv (c := '}') (by decide) rfl true)
    have hcloses : Closes (conv (closing ++ '}' :: y)) :=
      ⟨_, _, hwhite, fun c hc => (Option.some.inj hc).symm⟩
    have happend : layout.print body ++ '}' :: y =
        opening ++ '\n' :: (printLines body ++ (closing ++ '}' :: y)) := by
      rw [htext]
      simp
    rw [happend] at hlen ⊢
    have hshort := hconv.length_append_le opening ('\n' :: (printLines body ++ (closing ++ '}' :: y)))
    have hline := hconv.length_line_lt (printLines body ++ (closing ++ '}' :: y))
    obtain ⟨ss, hread, houtlines⟩ := hnested (closing ++ '}' :: y) (by omega) hcloses
    obtain ⟨eol, heol⟩ := hconv.lineEnd (printLines body ++ (closing ++ '}' :: y))
    have htail := lineTail_conv hconv hopening (.inr (hconv.startsLine (printLines body ++
      (closing ++ '}' :: y))))
    exact ⟨_, ss, orElse_ok (bodyOfLines_ok htail heol hread hwhite) _, houtlines⟩
  · have hblank : blank (conv (layout.print [] ++ '}' :: y)) =
        .ok (conv (layout.print []), '}' :: conv y) := by
      rw [← hbrace]
      exact blank_conv hconv hblanks (ends_token_conv hconv (c := '}') (by decide) rfl false)
    have hlines : bodyOfLines nested (conv (layout.print [] ++ '}' :: y)) = .error .absent :=
      bodyOfLines_of_token (by decide) hblank
    exact ⟨_, [], (orElse_absent hlines _).trans (bodyOnLine_nil hblank), rfl⟩
  · have hvalue : a.value.KeptBy conv := by
      cases hk _ (List.mem_singleton_self _) with
      | attr h => exact h
    rw [htext]
    exact bodyOnLine_conv hconv (hshaped _ (List.mem_singleton_self _)).of_attr hbefore hafter
      hblanks hvalue size nested y

/-- A block is read again as the block of a line, given a reader for its body. -/
theorem structureLine_conv_block {b : Block} (head : b.Headed) (layout : b.layout.Shaped b.body)
    (hshaped : ∀ s ∈ b.body, s.Shaped) (hlabels : ∀ l ∈ b.labels, l.Kept)
    (hk : ∀ s ∈ b.body, s.KeptBy conv) (names : List String) {size n : Nat}
    {nested : Reader (List Structure)} {y last : List Char} {ended : Bool}
    (hlen : (conv (b.print ++ y)).length ≤ n)
    (hnested : ∀ tail, (conv (printLines b.body ++ tail)).length < n → Closes (conv tail) →
      ∃ ss, nested (conv (printLines b.body ++ tail)) = .ok (ss, conv tail) ∧
        outlines ss = outlines b.body)
    (hline : AtLineEnd (conv y)) (hend : lineEndOrEnd (conv y) = .ok (ended, last)) :
    ∃ c, structureLine size nested names (conv (b.print ++ y)) = .ok ((.block c, ended), last) ∧
      c.outline = b.outline := by
  rw [b.print_append] at hlen ⊢
  have hbody := Nat.le_trans (hconv.length_append_le (b.before ++ b.kind.toList ++ b.gap ++
    b.labels.flatMap Label.print ++ ['{']) (b.layout.print b.body ++ '}' :: (b.after ++ y)))
    (by simpa using hlen)
  obtain ⟨l, ss, hread, houtlines⟩ := body_conv hconv layout hshaped hk hbody hnested size
  obtain ⟨c, hc, htoken, hequals⟩ := head?_labels head.labels
    (b.layout.print b.body ++ '}' :: (b.after ++ y))
  have hgap := blank_conv hconv head.gap (ends_token_conv hconv htoken hc false)
  have hends := endsName_conv hconv (endsNames_of_endsName head.gap (endsName_labels head.apart
    (b.layout.print b.body ++ '}' :: (b.after ++ y))) hc htoken)
  obtain ⟨ls, hls, htexts⟩ := labels_conv hconv head.labels hlabels
    (y := b.layout.print b.body ++ '}' :: (b.after ++ y)) (Nat.lt_succ_self _)
  have hhead : (conv (b.labels.flatMap Label.print ++ '{' ::
      (b.layout.print b.body ++ '}' :: (b.after ++ y)))).head? ≠ some '=' := by
    have hline : c ≠ '\n' ∧ c ≠ '\r' := by
      constructor <;> rintro rfl <;> cases htoken
    rw [hconv.head? hc hline.1 hline.2]
    simpa using hequals
  obtain ⟨span, hblock⟩ := structureLine_block names
    (b := ⟨conv b.before, b.kind, conv b.gap, ls, l, ss, [], b.span⟩)
    (white_name_conv hconv head.before head.kind _) (identifier_conv hconv head.kind hends) hgap
    hhead (fun start => blockAt_ok hls hread) (lineTail_conv hconv head.after hline) hend
  refine ⟨_, hblock, ?_⟩
  rw [Block.outline_eq, Block.outline_eq]
  simp [Block.labelTexts, htexts, houtlines]

/-! ## Bodies -/

theorem white_line_conv {y w rest : List Char} (h : white (conv y) = .ok (w, rest)) :
    ∃ w', white (conv ('\n' :: y)) = .ok (w', rest) := by
  rcases hconv.line y with heq | heq <;> rw [heq]
  · exact ⟨_, Skips.white_append (t := ['\n']) (.skip rfl .nil) h⟩
  · exact ⟨_, Skips.white_append (t := ['\r', '\n']) (.skip rfl (.skip rfl .nil)) h⟩

theorem opens_line_conv {y : List Char} (h : Opens (conv y)) : Opens (conv ('\n' :: y)) := by
  obtain ⟨w, mid, hwhite, hmid⟩ := h
  obtain ⟨w', hline⟩ := white_line_conv hconv hwhite
  exact ⟨w', mid, hline, hmid⟩

/-- A structure opens a text. -/
theorem opens_structure_conv {s : Structure} (h : s.Shaped) (y : List Char) :
    Opens (conv (s.print ++ y)) := by
  have hname : ∃ before name z, s.print ++ y = before ++ (name.toList ++ z) ∧ Skips true before ∧
      Text.isIdentifier name = true := by
    cases h with
    | @attr a h => exact ⟨a.before, a.name, _, a.print_append [] y, h.before, h.name⟩
    | @block b head => exact ⟨b.before, b.kind, _, b.print_append y, head.before, head.kind⟩
  obtain ⟨before, name, z, htext, hbefore, hid⟩ := hname
  obtain ⟨c, more, heq, hstart, hn, hr⟩ := isIdentifier_toList hid
  refine ⟨_, _, htext ▸ white_name_conv hconv hbefore hid z, fun d hd => ?_⟩
  rw [hconv.token hn hr, heq] at hd
  obtain rfl := Option.some.inj hd
  exact .inl hstart

/-- Structures open a text, and so does what closes a body. -/
theorem opens_conv {body : List Structure} (hshaped : ∀ s ∈ body, s.Shaped) {tail : List Char}
    (htail : Closes (conv tail)) : Opens (conv (printLines body ++ tail)) := by
  cases body with
  | nil => exact htail.opens
  | cons s rest =>
    have hs := opens_structure_conv hconv (hshaped s List.mem_cons_self)
      ('\n' :: (printLines rest ++ tail))
    rwa [printLines, List.append_assoc, List.cons_append]

/-- What the reader for the bodies of blocks does at some depth. -/
def ReadsBodies (conv : List Char → List Char) (size n : Nat) : Prop :=
  ∀ {body : List Structure} {tail : List Char}, (∀ s ∈ body, s.Shaped) →
    (∀ s ∈ body, s.KeptBy conv) → Distinct [] body →
    (conv (printLines body ++ tail)).length < n → Closes (conv tail) →
    ∃ ss, nestedBody size n (conv (printLines body ++ tail)) = .ok (ss, conv tail) ∧
      outlines ss = outlines body

/-- A structure is read again as the structure of a line. -/
theorem structureLine_conv {s : Structure} (hs : s.Shaped) (hk : s.KeptBy conv)
    {names : List String} (hnew : ∀ a, s = .attr a → a.name ∉ names) {size n : Nat}
    (hbodies : ReadsBodies conv size n) {y last : List Char} {ended : Bool}
    (hlen : (conv (s.print ++ y)).length ≤ n) (hline : AtLineEnd (conv y)) (hopens : Opens (conv y))
    (hend : lineEndOrEnd (conv y) = .ok (ended, last)) :
    ∃ t, structureLine size (nestedBody size n) names (conv (s.print ++ y)) =
        .ok ((t, ended), last) ∧ t.outline = s.outline ∧ addName names t = addName names s := by
  cases hs with
  | @attr a ha =>
    cases hk with
    | attr hvalue =>
      obtain ⟨b, hread, hname, hvalue⟩ := structureLine_conv_attr hconv ha hvalue (hnew a rfl) size
        (nestedBody size n) hline hopens hend
      exact ⟨.attr b, hread, by rw [Structure.outline, Structure.outline, hname, hvalue],
        by rw [addName, addName, hname]⟩
  | @block b head layout distinct body =>
    cases hk with
    | block hlabels hvalues =>
      obtain ⟨c, hread, houtline⟩ := structureLine_conv_block hconv head layout body hlabels
        hvalues names hlen (fun tail hshort hcloses => hbodies body hvalues distinct hshort hcloses)
        hline hend
      exact ⟨.block c, hread, houtline, rfl⟩

theorem lineEndOrEnd_conv (y : List Char) :
    lineEndOrEnd (conv ('\n' :: y)) = .ok (true, conv y) := by
  rcases hconv.line y with heq | heq <;> rw [heq] <;> rfl

/-- **Bodies.** Structures on lines of their own are read again, up to what closes their body. -/
theorem structuresWithin_conv (size n : Nat) {names : List String} {body : List Structure}
    {tail : List Char} (hshaped : ∀ s ∈ body, s.Shaped) (hk : ∀ s ∈ body, s.KeptBy conv)
    (hdistinct : Distinct names body) (hlen : (conv (printLines body ++ tail)).length < n)
    (htail : Closes (conv tail)) :
    ∃ ss, structuresWithin size n names (conv (printLines body ++ tail)) =
        .ok ((ss, true), conv tail) ∧ outlines ss = outlines body := by
  induction n generalizing names body tail with
  | zero => omega
  | succ n ih =>
    cases body with
    | nil =>
      obtain ⟨w, mid, hwhite, hmid⟩ := htail
      refine ⟨[], structuresWithin_nil (structureLine_absent hwhite fun c hc => ?_), rfl⟩
      rw [hmid c hc]
      decide
    | cons s rest =>
      have hbodies : ReadsBodies conv size n := fun hshaped hk hdistinct hlen htail => by
        obtain ⟨ss, hread, houtlines⟩ := ih hshaped hk hdistinct hlen htail
        exact ⟨ss, nestedBody_ok hread, houtlines⟩
      have hrest : ∀ t ∈ rest, t.Shaped := fun t ht => hshaped t (List.mem_cons_of_mem s ht)
      have htext : printLines (s :: rest) ++ tail = s.print ++ '\n' :: (printLines rest ++ tail) := by
        simp [printLines]
      rw [htext] at hlen ⊢
      obtain ⟨t, hread, houtline, hnames⟩ := structureLine_conv hconv (hshaped s List.mem_cons_self)
        (hk s List.mem_cons_self) (distinct_head hdistinct) hbodies (Nat.le_of_lt_succ hlen)
        (.inr (hconv.startsLine _)) (opens_line_conv hconv (opens_conv hconv hrest htail))
        (lineEndOrEnd_conv hconv _)
      have hshort := hconv.length_append_le s.print ('\n' :: (printLines rest ++ tail))
      have hline := hconv.length_line_lt (printLines rest ++ tail)
      obtain ⟨ss, hmore, houtlines⟩ := ih hrest (fun t ht => hk t (List.mem_cons_of_mem s ht))
        (distinct_tail hdistinct) (show (conv (printLines rest ++ tail)).length < n by omega) htail
      refine ⟨t :: ss, structuresWithin_cons hread (hnames ▸ hmore), ?_⟩
      rw [outlines, outlines, houtline, houtlines]

theorem readsBodies (size n : Nat) : ReadsBodies conv size n :=
  fun hshaped hk hdistinct hlen htail => by
    obtain ⟨ss, hread, houtlines⟩ := structuresWithin_conv hconv size n hshaped hk hdistinct hlen htail
    exact ⟨ss, nestedBody_ok hread, houtlines⟩

/-! ## Documents -/

omit hconv in
/-- Without the last line end, the last structure ends the text. -/
theorem dropLast_printLines (s : Structure) (rest : List Structure) :
    (printLines (s :: rest)).dropLast =
      s.print ++ if rest = [] then [] else '\n' :: (printLines rest).dropLast := by
  cases rest with
  | nil => simp [printLines]
  | cons t rest =>
    have hne : printLines (t :: rest) ≠ [] := by simp [printLines]
    rw [printLines, List.dropLast_append_of_ne_nil (List.cons_ne_nil _ _),
      List.dropLast_cons_of_ne_nil hne, if_neg (List.cons_ne_nil _ _)]

/-- Structures are read again also where the text ends with the last of them. -/
theorem structuresWithin_conv_unended (size n : Nat) {names : List String} {s : Structure}
    {rest : List Structure} (hshaped : ∀ t ∈ s :: rest, t.Shaped)
    (hk : ∀ t ∈ s :: rest, t.KeptBy conv) (hdistinct : Distinct names (s :: rest))
    (hlen : (conv (printLines (s :: rest)).dropLast).length < n) :
    ∃ ss, structuresWithin size n names (conv (printLines (s :: rest)).dropLast) =
        .ok ((ss, false), []) ∧ outlines ss = outlines (s :: rest) := by
  induction rest generalizing n names s with
  | nil =>
    obtain ⟨n, rfl⟩ := Nat.exists_eq_add_of_le' (show 1 ≤ n by omega)
    rw [dropLast_printLines, if_pos rfl] at hlen ⊢
    have hnil : AtLineEnd (conv []) ∧ Opens (conv []) ∧
        lineEndOrEnd (conv []) = .ok (false, []) := by
      rw [hconv.nil]
      exact ⟨atLineEnd_nil, ⟨[], [], (ends_nil true).white, nofun⟩, rfl⟩
    obtain ⟨t, hread, houtline, -⟩ := structureLine_conv hconv (hshaped s List.mem_cons_self)
      (hk s List.mem_cons_self) (distinct_head hdistinct) (readsBodies hconv size n)
      (Nat.le_of_lt_succ hlen) hnil.1 hnil.2.1 hnil.2.2
    exact ⟨[t], structuresWithin_last hread, by simp only [outlines, houtline]⟩
  | cons next rest ih =>
    obtain ⟨n, rfl⟩ := Nat.exists_eq_add_of_le' (show 1 ≤ n by omega)
    rw [dropLast_printLines, if_neg (List.cons_ne_nil _ _)] at hlen ⊢
    have hrest : ∀ t ∈ next :: rest, t.Shaped := fun t ht => hshaped t (List.mem_cons_of_mem s ht)
    have hopens : Opens (conv (printLines (next :: rest)).dropLast) := by
      rw [dropLast_printLines]
      exact opens_structure_conv hconv (hrest next List.mem_cons_self) _
    obtain ⟨t, hread, houtline, hnames⟩ := structureLine_conv hconv (hshaped s List.mem_cons_self)
      (hk s List.mem_cons_self) (distinct_head hdistinct) (readsBodies hconv size n)
      (Nat.le_of_lt_succ hlen) (.inr (hconv.startsLine _)) (opens_line_conv hconv hopens)
      (lineEndOrEnd_conv hconv _)
    have hshort := hconv.length_append_le s.print ('\n' :: (printLines (next :: rest)).dropLast)
    have hline := hconv.length_line_lt (printLines (next :: rest)).dropLast
    obtain ⟨ss, hmore, houtlines⟩ := ih n hrest (fun t ht => hk t (List.mem_cons_of_mem s ht))
      (distinct_tail hdistinct)
      (show (conv (printLines (next :: rest)).dropLast).length < n by omega)
    refine ⟨t :: ss, structuresWithin_cons hread (hnames ▸ hmore), ?_⟩
    rw [outlines, outlines, houtline, houtlines]

/-- **Documents.** A document with the shape of one that was read is read again from its text as
one with the same outline, if this is so for each value and each label. -/
theorem Document.read?_conv {d : Document} (hd : d.Shaped)
    (hk : ∀ s ∈ d.structures, s.KeptBy conv) :
    ∃ e, Document.read? (String.ofList (conv d.print)) = some e ∧ e.outline = d.outline := by
  have hstructures : ∃ ss ended tail, structuresWithin (Source.byteSize (conv d.print))
      ((conv d.print).length + 1) [] (conv d.print) = .ok ((ss, ended), tail) ∧
      outlines ss = outlines d.structures ∧ ∃ closing, white tail = .ok (closing, []) := by
    cases hended : d.endsLine with
    | true =>
      have hprint : d.print = printLines d.structures ++ d.closing := by
        rw [Document.print, hended]
        rfl
      have hclosing : white (conv d.closing) = .ok (conv d.closing, []) := by
        have htails := (hconv.tails hd.closing).white atLineEnd_nil (ends_nil true).white
        rwa [List.append_nil] at htails
      rw [hprint]
      obtain ⟨ss, hss, houtlines⟩ := structuresWithin_conv hconv _ _ hd.structures hk hd.distinct
        (Nat.lt_succ_self _) ⟨_, _, hclosing, nofun⟩
      exact ⟨ss, true, _, hss, houtlines, _, hclosing⟩
    | false =>
      have hprint : d.print = (printLines d.structures).dropLast := by
        rw [Document.print, hended, hd.unended hended, List.append_nil]
        rfl
      have hshaped := hd.structures
      have hdistinct := hd.distinct
      rw [hprint]
      cases hss : d.structures with
      | nil =>
        refine ⟨[], true, [], ?_, rfl, _, (ends_nil true).white⟩
        rw [printLines, List.dropLast_nil, hconv.nil]
        rfl
      | cons s rest =>
        rw [hss] at hk hshaped hdistinct
        obtain ⟨ss, hread, houtlines⟩ := structuresWithin_conv_unended hconv _ _ hshaped hk hdistinct
          (Nat.lt_succ_self _)
        exact ⟨ss, false, [], hread, houtlines, _, (ends_nil true).white⟩
  obtain ⟨ss, ended, tail, hss, houtlines, closing, hclosing⟩ := hstructures
  refine ⟨⟨ss, closing, ended⟩, all?_eq_some.2 ?_, houtlines⟩
  rw [String.toList_ofList]
  exact document_ok hss hclosing

end Conv

end HclOverlay.Hcl
