import HclOverlay.Proofs.Reading.Literal
import HclOverlay.Proofs.Reading.Rules
import HclOverlay.Proofs.Rendering.Tree

/-!
# Rendered values are read as their trees

Whatever value is rendered, the reader takes its text off the front of a longer one, provided that
nothing there goes on with the value; and it rejects the text where an object starts with the key
`for`. Both are one statement, by induction on the depth the reader is given: the items and fields
of a value are read with one less.

* `Finishes` — a text with which no value goes on.
* `outcome` — reading something, or rejecting the text.
* `read_key`, `moreItems_lines`, `entries_lines` — keys, items and fields.
* `exprStep_inline`, `exprStep_lines`, `exprStep_fields` — values whose parts are read.
* `exprWithin_chars` — **values**.
-/

namespace HclOverlay.Value

open Hcl Hcl.Reader Decimal

/-! ## Where a value ends -/

/-- Characters at which an expression may go on, or that are skipped. -/
def goingOn : List Char :=
  ['.', '[', '=', '!', '<', '>', '+', '-', '*', '/', '%', '&', '|', '?', '(', ':', '#', ' ', '\t',
    '\n', '\r']

theorem startsToken_of_not_mem {c : Char} (h : c ∉ goingOn) : startsToken c = true := by
  simp only [goingOn, List.mem_cons, List.not_mem_nil, or_false, not_or] at h
  simp [startsToken, isWhiteChar, isBlankChar, h]

theorem continuesNothing_of_not_mem {c : Char} {rest : List Char} (h : c ∉ goingOn) :
    continuesNothing (c :: rest) = true := by
  simp only [goingOn, List.mem_cons, List.not_mem_nil, or_false, not_or] at h
  have hstep : startsStep (c :: rest) = false := by
    unfold startsStep
    split
    · rfl
    · next heq => exact absurd (List.cons.inj heq).1 h.1
    · next heq => exact absurd (List.cons.inj heq).1 h.2.1
    · rfl
  have hop : startsOperator (c :: rest) = false := by
    unfold startsOperator
    split
    · next heq => exact absurd (List.cons.inj heq).1 h.2.2.1
    · rfl
    · rfl
    · next heq =>
      obtain ⟨rfl, -⟩ := List.cons.inj heq
      simp [h]
    · rfl
  simp [continuesNothing, hstep, hop, h]

theorem continuesCall_of_not_mem {c : Char} {rest : List Char} (h : c ∉ goingOn) :
    continuesCall (c :: rest) = false := by
  simp only [goingOn, List.mem_cons, List.not_mem_nil, or_false, not_or] at h
  simp [continuesCall, stripText, h, Ne.symm (show c ≠ ':' from by simp [h])]

/-- A text with which no value goes on. -/
structure Finishes (rest : List Char) : Prop where
  apart : Apart rest
  stops : ∀ newlines, ∃ t mid, gap newlines rest = .ok (t, mid) ∧ continuesNothing mid = true ∧
    continuesCall mid = false

theorem Finishes.quiet {rest : List Char} (h : Finishes rest) (newlines : Bool) :
    Quiet newlines rest := by
  obtain ⟨t, mid, hgap, hmid, -⟩ := h.stops newlines
  exact ⟨t, mid, hgap, hmid⟩

theorem Finishes.endsName {rest : List Char} (h : Finishes rest) : EndsName rest :=
  fun c hc => (h.apart c hc).1

theorem Finishes.nil : Finishes [] where
  apart := fun _ h => by cases h
  stops newlines := ⟨[], [], (ends_nil newlines).gap, rfl, rfl⟩

/-- Commas and closing brackets finish a value. -/
theorem Finishes.mark {c : Char} (h : c ∈ [',', ']', '}']) (rest : List Char) :
    Finishes (c :: rest) := by
  have hc : c ∉ goingOn := by
    simp only [List.mem_cons, List.not_mem_nil, or_false] at h
    rcases h with rfl | rfl | rfl <;> decide
  refine ⟨apart_cons ?_ ?_, fun newlines => ⟨[], c :: rest,
    (ends_of_startsToken (startsToken_of_not_mem hc) newlines rest).gap,
    continuesNothing_of_not_mem hc, continuesCall_of_not_mem hc⟩⟩
  · simp only [List.mem_cons, List.not_mem_nil, or_false] at h
    rcases h with rfl | rfl | rfl <;> decide
  · rintro rfl
    simp at h

/-- A line end finishes a value if what starts the next line does not go on with it. -/
theorem Finishes.line {indent : List Char} (hi : ∀ c ∈ indent, isBlankChar c = true) {c : Char}
    (hc : c ∉ goingOn) (rest : List Char) : Finishes ('\n' :: (indent ++ c :: rest)) := by
  refine ⟨apart_cons (by decide) (by decide), fun newlines => ?_⟩
  cases newlines with
  | false => exact ⟨[], _, (ends_line rfl).gap, rfl, rfl⟩
  | true =>
    have hskip : Skips true ('\n' :: indent) := by
      refine skips_of_all fun d hd => ?_
      rcases List.mem_cons.1 hd with rfl | hd
      · rfl
      · exact gapSkips_of_isBlankChar (hi d hd) true
    exact ⟨'\n' :: indent, c :: rest,
      hskip.gap (ends_of_startsToken (startsToken_of_not_mem hc) true rest),
      continuesNothing_of_not_mem hc, continuesCall_of_not_mem hc⟩

/-! ## Reading and rejecting -/

/-- What a reader does with the text of something: it reads it, or rejects the text if that is
`bad`. -/
def outcome {α : Type} (bad : Bool) (a : α) (rest : List Char) : Except Miss (α × List Char) :=
  if bad then .error .malformed else .ok (a, rest)

@[simp] theorem outcome_false {α : Type} (a : α) (rest : List Char) :
    outcome false a rest = .ok (a, rest) := rfl

@[simp] theorem outcome_true {α : Type} (a : α) (rest : List Char) :
    outcome true a rest = .error .malformed := rfl

/-! ## Scalars -/

section Scalars

variable {self : Mode → Reader Expr} {m : Mode} {rest : List Char}

theorem exprStep_of_finishes {cs : List Char} {e : Expr} (h : term self m cs = .ok (e, rest))
    (hrest : Finishes rest) : exprStep self m cs = .ok (e, rest) :=
  exprStep_of_term h (hrest.quiet _)

/-- An expression whose first term is read or rejected is so itself. -/
theorem exprStep_outcome {cs : List Char} {bad : Bool} {e : Expr}
    (h : term self m cs = outcome bad e rest) (hrest : Finishes rest) :
    exprStep self m cs = outcome bad e rest := by
  cases bad with
  | true => exact exprStep_error h
  | false => exact exprStep_of_finishes h hrest

theorem term_word (name : List Char) (h : Text.isIdentifierChars name = true)
    (hrest : Finishes rest) :
    term self m (name ++ rest) = .ok (ofName (String.ofList name), rest) := by
  obtain ⟨t, mid, hgap, -, hcall⟩ := hrest.stops m.newlines
  rw [term_name h, name_ok h hrest.endsName hgap hcall]

theorem term_string (s : String) (rest : List Char) :
    term self m (Quoted.quote s.toList ++ rest) = .ok (.string s, rest) := by
  have hquote : Quoted.quote s.toList ++ rest =
      '"' :: (Quoted.escape s.toList ++ '"' :: rest) := by simp [Quoted.quote]
  have hread := quotedText_quote s.toList rest
  rw [String.ofList_toList] at hread
  rw [hquote] at hread ⊢
  rw [term_quote]
  exact orElse_ok (bind_ok hread _) _

/-- A number is read as the one that its text is. -/
theorem term_number {n : Number} (hn : n.isReadable = true) (hrest : Apart rest) :
    term self m (n.toChars ++ rest) = .ok (.number (n.reread?.getD n) n.toChars, rest) := by
  obtain ⟨k, h⟩ := Option.isSome_iff_exists.1 hn
  rw [h, Option.getD_some]
  rcases Number.reread?_eq_some h with ⟨digits, j, hchars, hread, rfl⟩ | hread
  · rw [hchars]
    exact term_minus (negativeLiteral_ok hread hrest)
  · have hliteral := numberLiteral_ok hread hrest
    obtain ⟨d, ds, hchars, hdigit⟩ := readUnsigned?_start hread
    rw [hchars, List.cons_append] at hliteral ⊢
    rw [term_other ?_, if_pos hdigit, hliteral]
    intro hmark
    simp only [termMarks, List.mem_cons, List.not_mem_nil, or_false] at hmark
    rcases hmark with rfl | rfl | rfl | rfl | rfl | rfl | rfl <;> exact absurd hdigit (by decide)

end Scalars

/-! ## Keys -/

theorem not_mem_goingOn {c : Char} (h : Text.isIdentifierStart c = true) : c ∉ goingOn := by
  intro hc
  simp only [goingOn, List.mem_cons, List.not_mem_nil, or_false] at hc
  rcases hc with rfl | rfl | rfl | rfl | rfl | rfl | rfl | rfl | rfl | rfl | rfl | rfl | rfl | rfl |
    rfl | rfl | rfl | rfl | rfl | rfl | rfl <;> exact absurd h (by decide)

/-- A key starts with a quote or with the first character of a name. -/
theorem keyChars_eq_cons (key : String) :
    ∃ c tail, keyChars key = c :: tail ∧ c ∉ goingOn ∧ c ≠ '}' := by
  unfold keyChars
  split
  · next h =>
    unfold Text.isIdentifier at h
    cases hk : key.toList with
    | nil =>
      rw [hk] at h
      cases h
    | cons c tail =>
      rw [hk] at h
      simp only [Text.isIdentifierChars, Bool.and_eq_true] at h
      refine ⟨c, tail, rfl, not_mem_goingOn h.1, ?_⟩
      rintro rfl
      exact absurd h.1 (by decide)
  · exact ⟨'"', _, rfl, by decide, by decide⟩

/-- What stands behind a key. -/
theorem gap_equals (newlines : Bool) (rest : List Char) :
    gap newlines (' ' :: '=' :: ' ' :: rest) = .ok ([' '], '=' :: ' ' :: rest) := by
  have hskip : Skips newlines [' '] := skips_of_all fun c hc => by
    rw [List.mem_singleton.1 hc]
    exact gapSkips_of_isBlankChar rfl newlines
  exact hskip.gap (ends_of_startsToken (by decide) newlines _)

/-- Keys are read as their trees. -/
theorem read_key (key : String) (d : Nat) (m : Mode) (rest : List Char) :
    exprWithin (d + 1) m (keyChars key ++ ' ' :: '=' :: ' ' :: rest) =
      .ok (keyTree key, ' ' :: '=' :: ' ' :: rest) := by
  have hquiet : ∀ newlines, Quiet newlines (' ' :: '=' :: ' ' :: rest) := fun newlines =>
    ⟨_, _, gap_equals newlines rest, rfl⟩
  refine exprStep_of_term ?_ (hquiet _)
  unfold keyChars keyTree
  split
  · next h =>
    rw [term_name h, name_ok h (fun c hc => ?_) (gap_equals _ rest) rfl, String.ofList_toList]
    obtain rfl : ' ' = c := Option.some.inj hc
    decide
  · exact term_string key _

/-- A key looks like the word `for` only if it is this word. -/
theorem startsForWord_key (key : String) (rest : List Char) :
    startsForWord (keyChars key ++ ' ' :: rest) = (key == "for") := by
  by_cases hkey : key = "for"
  · subst hkey
    rfl
  · rw [beq_eq_false_iff_ne.2 hkey]
    unfold startsForWord
    split
    · next c tail hstrip =>
      have heq := stripText_eq_some hstrip
      unfold keyChars at heq
      split at heq
      · next h =>
        -- the word would be all of the key that comes before something that ends it
        by_contra hc
        have hend : EndsName (c :: tail) := by
          intro d hd
          obtain rfl : c = d := Option.some.inj hd
          simp only [Bool.not_eq_false, Bool.or_eq_true, beq_iff_eq] at hc
          rcases hc with (((rfl | rfl) | rfl) | rfl) | rfl <;> decide
        have hspace : EndsName (' ' :: rest) := by
          intro d hd
          obtain rfl : ' ' = d := Option.some.inj hd
          decide
        have hword : Text.isIdentifierChars ['f', 'o', 'r'] = true := by decide
        have hread := identifier_ok h hspace
        rw [heq, identifier_ok hword hend] at hread
        have hfor : String.ofList ['f', 'o', 'r'] = String.ofList key.toList :=
          congrArg Prod.fst (Except.ok.inj hread)
        rw [String.ofList_toList] at hfor
        exact hkey (hfor.symm.trans rfl)
      · rw [Quoted.quote, List.cons_append] at heq
        cases heq
    · rfl

/-! ## How values start -/

/-- A value starts neither with trivia nor with the end of a list nor with the word `for`. -/
theorem chars_start {v : Value} (hv : v.Plain Number.isReadable) (indent rest : List Char) :
    ∃ c tail, v.chars indent ++ rest = c :: tail ∧ startsToken c = true ∧ c ≠ ']' ∧
      startsForWord (v.chars indent ++ rest) = false := by
  have hother : ∀ {c : Char} {tail : List Char}, c ≠ 'f' → startsForWord (c :: tail) = false := by
    intro c tail hc
    unfold startsForWord
    rw [stripText, if_neg (Ne.symm hc)]
  -- the shape of the value decides on its first character
  cases v with
  | null => exact ⟨'n', _, rfl, by decide, by decide, hother (by decide)⟩
  | bool b =>
    cases b with
    | false => exact ⟨'f', _, rfl, by decide, by decide, rfl⟩
    | true => exact ⟨'t', _, rfl, by decide, by decide, hother (by decide)⟩
  | string s => exact ⟨'"', _, rfl, by decide, by decide, hother (by decide)⟩
  | unevaluated s => exact hv.elim
  | list items =>
    cases items with
    | nil => exact ⟨'[', _, rfl, by decide, by decide, hother (by decide)⟩
    | cons first more =>
      have hchars : ∃ tail, (list (first :: more)).chars indent ++ rest = '[' :: tail := by
        unfold chars
        split <;> exact ⟨_, rfl⟩
      obtain ⟨tail, htail⟩ := hchars
      rw [htail]
      exact ⟨'[', tail, rfl, by decide, by decide, hother (by decide)⟩
  | object fields =>
    cases fields with
    | nil => exact ⟨'{', _, rfl, by decide, by decide, hother (by decide)⟩
    | cons first more => exact ⟨'{', _, rfl, by decide, by decide, hother (by decide)⟩
  | number n =>
    obtain ⟨k, h⟩ := Option.isSome_iff_exists.1 hv
    have hchars : (number n).chars indent = n.toChars := rfl
    rw [hchars]
    rcases Number.reread?_eq_some h with ⟨digits, -, hchars, -, -⟩ | hread
    · rw [hchars, List.cons_append]
      exact ⟨'-', _, rfl, by decide, by decide, hother (by decide)⟩
    · obtain ⟨d, ds, hchars, hdigit⟩ := readUnsigned?_start hread
      rw [hchars, List.cons_append]
      refine ⟨d, _, rfl, startsToken_of_isDigit hdigit, ?_, hother ?_⟩
      · rintro rfl
        exact absurd hdigit (by decide)
      · rintro rfl
        exact absurd hdigit (by decide)

/-! ## Values around lines -/

theorem opensFor_of_isScalar {v : Value} (h : v.isScalar = true) : v.opensFor = false := by
  cases v with
  | list _ => cases h
  | object _ => cases h
  | _ => rfl

theorem itemsOpenFor_of_scalars {items : List Value} (h : items.all isScalar = true) :
    itemsOpenFor items = false := by
  induction items with
  | nil => rfl
  | cons item more ih =>
    simp only [List.all_cons, Bool.and_eq_true] at h
    rw [itemsOpenFor, opensFor_of_isScalar h.1, ih h.2, Bool.false_or]

theorem white_line {w : List Char} (hi : ∀ c ∈ w, isBlankChar c = true) {c : Char}
    (hc : startsToken c = true) (rest : List Char) :
    white ('\n' :: (w ++ c :: rest)) = .ok ('\n' :: w, c :: rest) := by
  have hskip : Skips true ('\n' :: w) := by
    refine skips_of_all fun d hd => ?_
    rcases List.mem_cons.1 hd with rfl | hd
    · rfl
    · exact gapSkips_of_isBlankChar (hi d hd) true
  exact hskip.white (ends_of_startsToken hc true rest)

theorem white_blank {w : List Char} (hi : ∀ c ∈ w, isBlankChar c = true) {c : Char}
    (hc : startsToken c = true) (rest : List Char) :
    white (w ++ c :: rest) = .ok (w, c :: rest) :=
  (skips_of_all fun d hd => gapSkips_of_isBlankChar (hi d hd) true).white
    (ends_of_startsToken hc true rest)

theorem blank_indentStep {indent : List Char} (hi : ∀ c ∈ indent, isBlankChar c = true) :
    ∀ c ∈ indent ++ indentStep, isBlankChar c = true := by
  intro c hc
  rcases List.mem_append.1 hc with hc | hc
  · exact hi c hc
  · have : c = ' ' := by simpa [indentStep] using hc
    rw [this]
    rfl

/-- What a reader of values has to do with the values at issue. -/
def ReadsChars (expr : Reader Expr) (indent : List Char) (v : Value) : Prop :=
  ∀ rest, Finishes rest →
    expr (v.chars indent ++ rest) = outcome v.opensFor (v.tree indent) rest

section Sequences

variable {expr : Reader Expr} {indent inner rest : List Char}

/-! ## Items -/

/-- Further items on one line are read. -/
theorem moreItems_inline (rest : List Char) {items : List Value}
    (hitems : ∀ v ∈ items, v.Plain Number.isReadable)
    (hscalar : items.all isScalar = true) (hread : ∀ v ∈ items, ReadsChars expr indent v)
    {n : Nat} (hn : items.length < n) :
    moreItems [']'] expr n (inlineItems indent items ++ ']' :: rest) =
      .ok (inlineTrees indent items, ']' :: rest) := by
  induction items generalizing n with
  | nil =>
    obtain ⟨n, rfl⟩ := Nat.exists_eq_add_of_le' hn
    exact moreItems_nil n (by simp [inlineItems])
  | cons item more ih =>
    obtain ⟨n, rfl⟩ := Nat.exists_eq_add_of_le' (show 1 ≤ n by simp at hn; omega)
    simp only [List.all_cons, Bool.and_eq_true] at hscalar
    have hfinish : Finishes (inlineItems indent more ++ ']' :: rest) := by
      cases more with
      | nil => exact .mark (by simp) _
      | cons _ _ => exact .mark (by simp) _
    have hexpr := hread item List.mem_cons_self _ hfinish
    rw [opensFor_of_isScalar hscalar.1, outcome_false] at hexpr
    obtain ⟨c, tail, hstart, htoken, hstop, -⟩ :=
      chars_start (hitems item List.mem_cons_self) indent
        (inlineItems indent more ++ ']' :: rest)
    have hgap : white (' ' :: (item.chars indent ++ (inlineItems indent more ++ ']' :: rest))) =
        .ok ([' '], item.chars indent ++ (inlineItems indent more ++ ']' :: rest)) := by
      rw [hstart]
      exact white_blank (w := [' ']) (by simp [isBlankChar]) htoken tail
    have hafter : white (inlineItems indent more ++ ']' :: rest) =
        .ok ([], inlineItems indent more ++ ']' :: rest) := by
      cases more with
      | nil => exact (ends_of_startsToken (by decide) true _).white
      | cons _ _ => exact (ends_of_startsToken (by decide) true _).white
    have hitem : listItem [']'] expr _ = .ok (_, _) :=
      listItem_ok hgap (by rw [hstart]; simpa using hstop) hexpr hafter
    have hmore := ih (fun v hv => hitems v (List.mem_cons_of_mem item hv)) hscalar.2
      (fun v hv => hread v (List.mem_cons_of_mem item hv)) (by simpa using hn)
    have htext : inlineItems indent (item :: more) ++ ']' :: rest =
        ',' :: ' ' :: (item.chars indent ++ (inlineItems indent more ++ ']' :: rest)) := by
      simp [inlineItems]
    rw [htext, moreItems_cons hitem hmore]
    rfl

/-- An item on a line of its own, with the comma behind it. -/
theorem listItem_line (hi : ∀ c ∈ inner, isBlankChar c = true) {v : Value}
    (hv : v.Plain Number.isReadable)
    (hread : ReadsChars expr inner v) (more : List Char) :
    listItem [']'] expr ('\n' :: (inner ++ v.chars inner ++ ',' :: more)) =
      outcome v.opensFor ⟨'\n' :: inner, v.tree inner, []⟩ (',' :: more) := by
  obtain ⟨c, tail, hstart, htoken, hstop, -⟩ := chars_start hv inner (',' :: more)
  have hgap : white ('\n' :: (inner ++ v.chars inner ++ ',' :: more)) =
      .ok ('\n' :: inner, v.chars inner ++ ',' :: more) := by
    rw [List.append_assoc, hstart]
    exact white_line hi htoken tail
  have hexpr := hread (',' :: more) (.mark (by simp) _)
  have hhead : ∀ d ∈ (v.chars inner ++ ',' :: more).head?, d ∉ [']'] := by
    rw [hstart]
    simpa using hstop
  cases hopen : v.opensFor with
  | true =>
    rw [hopen, outcome_true] at hexpr
    exact listItem_error hgap hhead hexpr
  | false =>
    rw [hopen, outcome_false] at hexpr
    exact listItem_ok hgap hhead hexpr (ends_of_startsToken (by decide) true _).white

/-- Further items on a line each are read, up to the last comma, or one of them is rejected. -/
theorem moreItems_lines (rest : List Char) (hi : ∀ c ∈ inner, isBlankChar c = true)
    (hindent : ∀ c ∈ indent, isBlankChar c = true) {items : List Value}
    (hitems : ∀ v ∈ items, v.Plain Number.isReadable)
    (hread : ∀ v ∈ items, ReadsChars expr inner v)
    {n : Nat} (hn : items.length < n) :
    moreItems [']'] expr n (',' :: '\n' :: (lineItems inner items ++ (indent ++ ']' :: rest))) =
      outcome (itemsOpenFor items) (lineTrees inner items)
        (',' :: '\n' :: (indent ++ ']' :: rest)) := by
  induction items generalizing n with
  | nil =>
    obtain ⟨n, rfl⟩ := Nat.exists_eq_add_of_le' hn
    exact moreItems_comma n (listItem_stop (white_line hindent (by decide) rest) (by simp))
  | cons item more ih =>
    obtain ⟨n, rfl⟩ := Nat.exists_eq_add_of_le' (show 1 ≤ n by simp at hn; omega)
    have hitem := listItem_line hi (hitems item List.mem_cons_self)
      (hread item List.mem_cons_self) ('\n' :: (lineItems inner more ++ (indent ++ ']' :: rest)))
    have hmore := ih (fun v hv => hitems v (List.mem_cons_of_mem item hv))
      (fun v hv => hread v (List.mem_cons_of_mem item hv)) (n := n) (by simpa using hn)
    have htext : lineItems inner (item :: more) ++ (indent ++ ']' :: rest) =
        inner ++ item.chars inner ++
          ',' :: '\n' :: (lineItems inner more ++ (indent ++ ']' :: rest)) := by
      simp [lineItems]
    rw [htext, itemsOpenFor, lineTrees]
    cases hopen : item.opensFor with
    | true =>
      rw [hopen, outcome_true] at hitem
      exact moreItems_malformed hitem
    | false =>
      rw [hopen, outcome_false] at hitem
      rw [Bool.false_or]
      cases hrest : itemsOpenFor more with
      | true =>
        rw [hrest, outcome_true] at hmore
        exact moreItems_error hitem hmore
      | false =>
        rw [hrest, outcome_false] at hmore
        exact moreItems_cons hitem hmore

theorem length_le_lineItems (inner : List Char) (items : List Value) :
    items.length ≤ (lineItems inner items).length := by
  induction items with
  | nil => simp
  | cons item more ih =>
    simp only [lineItems, List.length_append, List.length_cons]
    omega

theorem length_le_inlineItems (indent : List Char) (items : List Value) :
    items.length ≤ (inlineItems indent items).length := by
  induction items with
  | nil => simp
  | cons item more ih =>
    simp only [inlineItems, List.length_append, List.length_cons]
    omega

/-- A list on one line is read. -/
theorem term_inline {self : Mode → Reader Expr} {m : Mode} {first : Value} {more : List Value}
    (hv : PlainItems Number.isReadable (first :: more))
    (hscalar : (first :: more).all isScalar = true)
    (hread : ∀ v ∈ first :: more, ReadsChars (self m.spread) indent v) :
    term self m ('[' :: (first.chars indent ++ (inlineItems indent more ++ ']' :: rest))) =
      .ok (Expr.list (⟨[], first.tree indent, []⟩ :: inlineTrees indent more) false [], rest) := by
  have hall := plain_of_mem hv
  have hscalars := hscalar
  simp only [List.all_cons, Bool.and_eq_true] at hscalars
  have hmark : Finishes (inlineItems indent more ++ ']' :: rest) ∧
      Ends true (inlineItems indent more ++ ']' :: rest) := by
    cases more with
    | nil => exact ⟨.mark (by simp) _, ends_of_startsToken (by decide) true _⟩
    | cons _ _ => exact ⟨.mark (by simp) _, ends_of_startsToken (by decide) true _⟩
  have hexpr := hread first List.mem_cons_self _ hmark.1
  rw [opensFor_of_isScalar hscalars.1, outcome_false] at hexpr
  obtain ⟨c, tail, hstart, htoken, hstop, hword⟩ :=
    chars_start (hall first List.mem_cons_self) indent (inlineItems indent more ++ ']' :: rest)
  have hgap : white (first.chars indent ++ (inlineItems indent more ++ ']' :: rest)) =
      .ok ([], first.chars indent ++ (inlineItems indent more ++ ']' :: rest)) := by
    rw [hstart]
    exact (ends_of_startsToken htoken true tail).white
  have hitem : listItem [']'] (self m.spread) _ = .ok (_, _) :=
    listItem_ok hgap (by rw [hstart]; simpa using hstop) hexpr hmark.2.white
  have hlen := length_le_inlineItems indent more
  have hmore := moreItems_inline rest
    (fun v hv => hall v (List.mem_cons_of_mem first hv)) hscalars.2
    (fun v hv => hread v (List.mem_cons_of_mem first hv))
    (n := (inlineItems indent more ++ ']' :: rest).length + 1)
    (by simp only [List.length_append]; omega)
  rw [term_bracket ((startsFor_eq hgap).trans hword)]
  exact list_cons (listItems_cons hitem hmore) (flag_of_ne (by simp))
    (ends_of_startsToken (by decide) true rest).white

/-- A list with a line for each item is read, or one of the items is rejected. -/
theorem term_lines {self : Mode → Reader Expr} {m : Mode} (rest : List Char)
    (hi : ∀ c ∈ inner, isBlankChar c = true) (hindent : ∀ c ∈ indent, isBlankChar c = true)
    {first : Value} {more : List Value} (hv : PlainItems Number.isReadable (first :: more))
    (hread : ∀ v ∈ first :: more, ReadsChars (self m.spread) inner v) :
    term self m ('[' :: '\n' :: (lineItems inner (first :: more) ++ (indent ++ ']' :: rest))) =
      outcome (itemsOpenFor (first :: more))
        (Expr.list (lineTrees inner (first :: more)) true ('\n' :: indent)) rest := by
  have hall := plain_of_mem hv
  have htext : lineItems inner (first :: more) ++ (indent ++ ']' :: rest) =
      inner ++ first.chars inner ++
        ',' :: '\n' :: (lineItems inner more ++ (indent ++ ']' :: rest)) := by
    simp [lineItems]
  obtain ⟨c, tail, hstart, htoken, -, hword⟩ := chars_start (hall first List.mem_cons_self)
    inner (',' :: '\n' :: (lineItems inner more ++ (indent ++ ']' :: rest)))
  have hgap := white_line hi htoken tail
  rw [← hstart, ← List.append_assoc] at hgap
  have hitem := listItem_line hi (hall first List.mem_cons_self) (hread first List.mem_cons_self)
    ('\n' :: (lineItems inner more ++ (indent ++ ']' :: rest)))
  have hlen := length_le_lineItems inner more
  have hmore := moreItems_lines rest hi hindent
    (fun v hv => hall v (List.mem_cons_of_mem first hv))
    (fun v hv => hread v (List.mem_cons_of_mem first hv))
    (n := (',' :: '\n' :: (lineItems inner more ++ (indent ++ ']' :: rest))).length + 1)
    (by simp only [List.length_append, List.length_cons]; omega)
  rw [htext, term_bracket ((startsFor_eq hgap).trans hword), itemsOpenFor, lineTrees]
  cases hopen : first.opensFor with
  | true =>
    rw [hopen, outcome_true] at hitem
    exact list_error (listItems_malformed hitem)
  | false =>
    rw [hopen, outcome_false] at hitem
    rw [Bool.false_or]
    cases hrest : itemsOpenFor more with
    | true =>
      rw [hrest, outcome_true] at hmore
      exact list_error (listItems_error hitem hmore)
    | false =>
      rw [hrest, outcome_false] at hmore
      exact list_cons (listItems_cons hitem hmore) (flag_self _ _)
        (white_line hindent (by decide) rest)

/-! ## Fields -/

theorem length_le_lineFields (inner : List Char) (fields : List (String × Value)) :
    fields.length ≤ (lineFields inner fields).length := by
  induction fields with
  | nil => simp
  | cons field more ih =>
    simp only [lineFields, List.length_append, List.length_cons]
    omega

/-- What a reader has to do with keys. -/
def ReadsKeys (expr : Reader Expr) : Prop :=
  ∀ key rest, expr (keyChars key ++ ' ' :: '=' :: ' ' :: rest) =
    .ok (keyTree key, ' ' :: '=' :: ' ' :: rest)

/-- What stands behind a field: more fields, or the closing brace. -/
theorem finishes_lineFields (rest : List Char) (hi : ∀ c ∈ inner, isBlankChar c = true)
    (hindent : ∀ c ∈ indent, isBlankChar c = true) (fields : List (String × Value)) :
    Finishes ('\n' :: (lineFields inner fields ++ (indent ++ '}' :: rest))) := by
  cases fields with
  | nil => exact Finishes.line hindent (by decide) rest
  | cons field more =>
    obtain ⟨key, value⟩ := field
    obtain ⟨c, tail, hkey, hc, -⟩ := keyChars_eq_cons key
    have htext : lineFields inner ((key, value) :: more) ++ (indent ++ '}' :: rest) =
        inner ++ c :: (tail ++ ' ' :: '=' :: ' ' :: (value.chars inner ++
          '\n' :: (lineFields inner more ++ (indent ++ '}' :: rest)))) := by
      simp [lineFields, fieldChars, hkey]
    rw [htext]
    exact Finishes.line hi hc _

/-- A field on its line. -/
theorem item_field (hkeys : ReadsKeys expr) (start : List Char) (key : String) {value : Value}
    (hv : value.Plain Number.isReadable) (hread : ReadsChars expr inner value) {more : List Char}
    (hmore : Finishes ('\n' :: more)) :
    item expr (start ++ inner)
        (keyChars key ++ ' ' :: '=' :: ' ' :: (value.chars inner ++ '\n' :: more)) =
      outcome value.opensFor (fieldTree start inner (key, value)) more := by
  obtain ⟨c, tail, hstart, htoken, -, -⟩ := chars_start hv inner ('\n' :: more)
  have hequals : blank (' ' :: '=' :: ' ' :: (value.chars inner ++ '\n' :: more)) =
      .ok ([' '], '=' :: ' ' :: (value.chars inner ++ '\n' :: more)) := gap_equals false _
  have hbefore : blank (' ' :: (value.chars inner ++ '\n' :: more)) =
      .ok ([' '], value.chars inner ++ '\n' :: more) := by
    have hskip : Skips false [' '] := skips_of_all (by simp [gapSkips, isBlankChar])
    rw [hstart]
    exact hskip.blank (ends_of_startsToken htoken false tail)
  have hexpr := hread _ hmore
  cases hopen : value.opensFor with
  | true =>
    rw [hopen, outcome_true] at hexpr
    exact item_error_value false (hkeys key _) hequals rfl hbefore hexpr
  | false =>
    rw [hopen, outcome_false] at hexpr
    exact item_ok false (hkeys key _) hequals rfl hbefore hexpr
      (ends_line rfl).blank (itemEnd_newline more)

/-- Fields on a line each are read up to the closing brace, or one of them is rejected. -/
theorem entries_lines (rest : List Char) (hkeys : ReadsKeys expr)
    (hi : ∀ c ∈ inner, isBlankChar c = true)
    (hindent : ∀ c ∈ indent, isBlankChar c = true) {fields : List (String × Value)}
    (hfields : ∀ f ∈ fields, f.2.Plain Number.isReadable)
    (hread : ∀ f ∈ fields, ReadsChars expr inner f.2)
    {n : Nat} (hn : fields.length < n) :
    entries expr n (lineFields inner fields ++ (indent ++ '}' :: rest)) =
      outcome (fieldsOpenFor fields) (fieldTrees inner fields, indent) ('}' :: rest) := by
  induction fields generalizing n with
  | nil =>
    obtain ⟨n, rfl⟩ := Nat.exists_eq_add_of_le' hn
    exact entries_nil (white_blank hindent (by decide) rest)
  | cons field more ih =>
    obtain ⟨key, value⟩ := field
    obtain ⟨n, rfl⟩ := Nat.exists_eq_add_of_le' (show 1 ≤ n by simp at hn; omega)
    have hitem := item_field hkeys [] key
      (hfields (key, value) List.mem_cons_self) (hread (key, value) List.mem_cons_self)
      (finishes_lineFields rest hi hindent more)
    have hmore := ih (fun f hf => hfields f (List.mem_cons_of_mem _ hf))
      (fun f hf => hread f (List.mem_cons_of_mem _ hf)) (n := n) (by simpa using hn)
    obtain ⟨c, tail, hkey, hc, hbrace⟩ := keyChars_eq_cons key
    have htext : lineFields inner ((key, value) :: more) ++ (indent ++ '}' :: rest) =
        inner ++ (keyChars key ++ ' ' :: '=' :: ' ' :: (value.chars inner ++
          '\n' :: (lineFields inner more ++ (indent ++ '}' :: rest)))) := by
      simp [lineFields, fieldChars]
    -- whatever is behind the key, the blanks in front of it end there
    have hgap : ∀ behind : List Char, white (inner ++ (keyChars key ++ behind)) =
        .ok (inner, keyChars key ++ behind) := by
      intro behind
      rw [hkey]
      exact white_blank hi (startsToken_of_not_mem hc) _
    have hhead : ∀ behind : List Char, (keyChars key ++ behind).head? ≠ some '}' := by
      intro behind
      rw [hkey]
      simpa using hbrace
    rw [htext, fieldsOpenFor, fieldOpensFor, fieldTrees]
    cases hopen : value.opensFor with
    | true =>
      rw [hopen, outcome_true] at hitem
      exact entries_error_item (hgap _) (hhead _) hitem
    | false =>
      rw [hopen, outcome_false] at hitem
      rw [Bool.false_or]
      cases hrest : fieldsOpenFor more with
      | true =>
        rw [hrest, outcome_true] at hmore
        exact entries_error_more (hgap _) (hhead _) hitem hmore
      | false =>
        rw [hrest, outcome_false] at hmore
        exact entries_cons (hgap _) (hhead _) hitem hmore

/-- An object is read, or one of its fields is rejected; or its first key looks like a `for`. -/
theorem term_object {self : Mode → Reader Expr} {m : Mode} (hkeys : ReadsKeys (self .line))
    (hi : ∀ c ∈ inner, isBlankChar c = true) (hindent : ∀ c ∈ indent, isBlankChar c = true)
    {first : String × Value} {more : List (String × Value)}
    (hv : PlainFields Number.isReadable (first :: more))
    (hread : ∀ f ∈ first :: more, ReadsChars (self .line) inner f.2) :
    term self m ('{' :: '\n' :: (lineFields inner (first :: more) ++ (indent ++ '}' :: rest))) =
      outcome (first.1 == "for" || fieldsOpenFor (first :: more))
        (Expr.object ((fieldTree ['\n'] inner first :: fieldTrees inner more).foldl addItem [])
          indent) rest := by
  obtain ⟨key, value⟩ := first
  have hall := plainField_of_mem hv
  obtain ⟨c, tail, hkey, hc, hbrace⟩ := keyChars_eq_cons key
  let behind := value.chars inner ++ '\n' :: (lineFields inner more ++ (indent ++ '}' :: rest))
  have htext : lineFields inner ((key, value) :: more) ++ (indent ++ '}' :: rest) =
      inner ++ (keyChars key ++ ' ' :: '=' :: ' ' :: behind) := by
    simp [behind, lineFields, fieldChars]
  have hgap : white ('\n' :: (inner ++ (keyChars key ++ ' ' :: '=' :: ' ' :: behind))) =
      .ok ('\n' :: inner, keyChars key ++ ' ' :: '=' :: ' ' :: behind) := by
    rw [hkey]
    exact white_line hi (startsToken_of_not_mem hc) _
  -- whether a `for` opens the braces is seen from the first key
  have hword := (startsFor_eq hgap).trans (startsForWord_key key _)
  rw [htext]
  cases hfor : key == "for" with
  | true =>
    rw [hfor] at hword
    obtain rfl : key = "for" := eq_of_beq hfor
    exact (term_brace_for hword).trans
      (forObject_malformed hgap (gap_equals true behind) rfl)
  | false =>
    rw [hfor] at hword
    rw [term_brace hword, Bool.false_or]
    have hitem := item_field hkeys ['\n'] key
      (hall (key, value) List.mem_cons_self) (hread (key, value) List.mem_cons_self)
      (finishes_lineFields rest hi hindent more)
    have hhead : (keyChars key ++ ' ' :: '=' :: ' ' :: behind).head? ≠ some '}' := by
      rw [hkey]
      simpa using hbrace
    -- the first entry is read apart, with the line feed in front of it
    have hlen := length_le_lineFields inner more
    have hmore := entries_lines rest hkeys hi hindent
      (fun f hf => hall f (List.mem_cons_of_mem _ hf))
      (fun f hf => hread f (List.mem_cons_of_mem _ hf))
      (n := ('\n' :: (inner ++ (keyChars key ++ ' ' :: '=' :: ' ' :: behind))).length)
      (by simp only [behind, List.length_append, List.length_cons]; omega)
    rw [fieldsOpenFor, fieldOpensFor]
    cases hopen : value.opensFor with
    | true =>
      rw [hopen, outcome_true] at hitem
      exact object_error (entries_error_item hgap hhead hitem)
    | false =>
      rw [hopen, outcome_false] at hitem
      rw [Bool.false_or]
      cases hrest : fieldsOpenFor more with
      | true =>
        rw [hrest, outcome_true] at hmore
        exact object_error (entries_error_more hgap hhead hitem hmore)
      | false =>
        rw [hrest, outcome_false] at hmore
        exact object_ok (entries_cons hgap hhead hitem hmore)

end Sequences

/-! ## Keys that are alike -/

/-- The text of an expression that a key is read as. -/
def keyText : Expr → Option String
  | .null => some "null"
  | .bool b => some (if b then "true" else "false")
  | .variable name => some name
  | .string s => some s
  | _ => none

theorem keyText_keyTree (key : String) : keyText (keyTree key) = some key := by
  unfold keyTree
  split
  · unfold ofName
    split_ifs with h₁ h₂ h₃
    · rw [h₁]
      rfl
    · rw [h₂]
      rfl
    · rw [h₃]
      rfl
    · rfl
  · rfl

/-- Keys of one text each are alike only if their texts are the same. -/
theorem keyText_of_alike {how : Comparison} {e f : Expr} {a b : String} (he : keyText e = some a)
    (hf : keyText f = some b) (h : (keyOf e).alike how (keyOf f) = true) : a = b := by
  unfold keyText at he hf
  split at he <;> split at hf <;> simp_all [keyOf, Key.alike, Expr.alike]

/-- Different keys are not alike, neither as they are written nor in what they say. -/
theorem key_alike {how : Comparison} {a b : String}
    (h : (keyOf (keyTree a)).alike how (keyOf (keyTree b)) = true) : a = b :=
  keyText_of_alike (keyText_keyTree a) (keyText_keyTree b) h

/-- An entry whose key is like no other is added behind them. -/
theorem addItem_new {items : List Item} {entry : Item}
    (h : ∀ i ∈ items, i.key.item.alike .written entry.key.item = false) :
    addItem items entry = items ++ [entry] := by
  induction items with
  | nil => rfl
  | cons first more ih =>
    rw [addItem, if_neg (by simp [h first List.mem_cons_self]),
      ih fun i hi => h i (List.mem_cons_of_mem first hi), List.cons_append]

/-- Entries whose keys are all different stay as they are. -/
theorem foldl_addItem {items : List Item} (acc : List Item)
    (h : (acc ++ items).Pairwise fun i j => i.key.item.alike .written j.key.item = false) :
    items.foldl addItem acc = acc ++ items := by
  induction items generalizing acc with
  | nil => simp
  | cons first more ih =>
    have hfirst : addItem acc first = acc ++ [first] :=
      addItem_new fun i hi => (List.pairwise_append.1 h).2.2 i hi first List.mem_cons_self
    rw [List.foldl_cons, hfirst, ih _ (by simpa using h), List.append_assoc,
      List.singleton_append]

theorem fieldTrees_eq_map (inner : List Char) (fields : List (String × Value)) :
    fieldTrees inner fields = fields.map (fieldTree [] inner) := by
  induction fields with
  | nil => rfl
  | cons field more ih => rw [fieldTrees, ih, List.map_cons]

@[simp] theorem fieldTree_key (start inner : List Char) (field : String × Value) :
    (fieldTree start inner field).key.item = keyOf (keyTree field.1) := by
  obtain ⟨key, value⟩ := field
  rfl

/-- The entries of an object have different keys. -/
theorem pairwise_fieldTrees {start inner : List Char} {first : String × Value}
    {more : List (String × Value)} (h : ((first :: more).map Prod.fst).Nodup) :
    (fieldTree start inner first :: fieldTrees inner more).Pairwise
      fun i j => i.key.item.alike .written j.key.item = false := by
  have hne : ∀ a b : String, a ≠ b →
      (keyOf (keyTree a)).alike .written (keyOf (keyTree b)) = false := fun a b hab =>
    Bool.eq_false_iff.2 fun halike => hab (key_alike halike)
  rw [List.map_cons, List.nodup_cons] at h
  rw [fieldTrees_eq_map, List.pairwise_cons, List.pairwise_map]
  refine ⟨fun i hi => ?_, ?_⟩
  · obtain ⟨field, hfield, rfl⟩ := List.mem_map.1 hi
    rw [fieldTree_key, fieldTree_key]
    exact hne _ _ fun heq => h.1 (heq ▸ List.mem_map_of_mem hfield)
  · refine (List.pairwise_map.1 h.2).imp fun hab => ?_
    rw [fieldTree_key, fieldTree_key]
    exact hne _ _ hab

/-! ## Values with parts -/

section Parts

variable {self : Mode → Reader Expr} {m : Mode} {indent : List Char} {first : Value}
  {more : List Value} {field : String × Value} {fields : List (String × Value)}

theorem chars_inline (h : (first :: more).all isScalar = true) :
    (list (first :: more)).chars indent =
      '[' :: (first.chars indent ++ inlineItems indent more ++ [']']) := by
  rw [chars, if_pos h]

theorem chars_lines (h : ¬(first :: more).all isScalar = true) :
    (list (first :: more)).chars indent =
      '[' :: '\n' :: (lineItems (indent ++ indentStep) (first :: more) ++ indent ++ [']']) := by
  rw [chars, if_neg h]

theorem chars_fields : (object (field :: fields)).chars indent =
    '{' :: '\n' :: (lineFields (indent ++ indentStep) (field :: fields) ++ indent ++ ['}']) := rfl

/-- A list on one line is read if its items are. -/
theorem exprStep_inline (hv : PlainItems Number.isReadable (first :: more))
    (hscalar : (first :: more).all isScalar = true)
    (hread : ∀ v ∈ first :: more, ReadsChars (self m.spread) indent v) :
    ReadsChars (exprStep self m) indent (list (first :: more)) := by
  intro rest hrest
  have htext : (list (first :: more)).chars indent ++ rest =
      '[' :: (first.chars indent ++ (inlineItems indent more ++ ']' :: rest)) := by
    rw [chars_inline hscalar]
    simp
  have htree : (list (first :: more)).tree indent =
      Expr.list (⟨[], first.tree indent, []⟩ :: inlineTrees indent more) false [] := by
    rw [tree, if_pos hscalar]
  have hopen : (list (first :: more)).opensFor = false := itemsOpenFor_of_scalars hscalar
  rw [htext, htree, hopen]
  exact exprStep_of_finishes (term_inline hv hscalar hread) hrest

/-- A list with an item to a line is read if its items are. -/
theorem exprStep_lines (hi : ∀ c ∈ indent, isBlankChar c = true)
    (hv : PlainItems Number.isReadable (first :: more))
    (hscalar : ¬(first :: more).all isScalar = true)
    (hread : ∀ v ∈ first :: more, ReadsChars (self m.spread) (indent ++ indentStep) v) :
    ReadsChars (exprStep self m) indent (list (first :: more)) := by
  intro rest hrest
  have htext : (list (first :: more)).chars indent ++ rest = '[' :: '\n' ::
      (lineItems (indent ++ indentStep) (first :: more) ++ (indent ++ ']' :: rest)) := by
    rw [chars_lines hscalar]
    simp
  have htree : (list (first :: more)).tree indent =
      Expr.list (lineTrees (indent ++ indentStep) (first :: more)) true ('\n' :: indent) := by
    rw [tree, if_neg hscalar]
  rw [htext, htree]
  exact exprStep_outcome (term_lines rest (blank_indentStep hi) hi hv hread) hrest

/-- An object is read if its keys and values are. -/
theorem exprStep_fields (hi : ∀ c ∈ indent, isBlankChar c = true)
    (hv : (object (field :: fields)).Plain Number.isReadable) (hkeys : ReadsKeys (self .line))
    (hread : ∀ f ∈ field :: fields, ReadsChars (self .line) (indent ++ indentStep) f.2) :
    ReadsChars (exprStep self m) indent (object (field :: fields)) := by
  intro rest hrest
  have htext : (object (field :: fields)).chars indent ++ rest = '{' :: '\n' ::
      (lineFields (indent ++ indentStep) (field :: fields) ++ (indent ++ '}' :: rest)) := by
    rw [chars_fields]
    simp
  have htree : (object (field :: fields)).tree indent = Expr.object
      ((fieldTree ['\n'] (indent ++ indentStep) field ::
        fieldTrees (indent ++ indentStep) fields).foldl addItem []) indent := by
    rw [foldl_addItem [] (pairwise_fieldTrees hv.1)]
    rfl
  rw [htext, htree]
  exact exprStep_outcome (term_object hkeys (blank_indentStep hi) hi hv.2 hread) hrest

/-! The text of a part is shorter than that of the whole. -/

theorem length_chars_item {items : List Value} {v : Value} (hv : v ∈ items) :
    (v.chars indent).length ≤ (inlineItems indent items).length := by
  induction items with
  | nil => cases hv
  | cons item more ih =>
    simp only [inlineItems, List.length_append, List.length_cons]
    rcases List.mem_cons.1 hv with rfl | hv
    · omega
    · have := ih hv
      omega

theorem length_chars_line {items : List Value} {v : Value} (hv : v ∈ items) :
    (v.chars indent).length ≤ (lineItems indent items).length := by
  induction items with
  | nil => cases hv
  | cons item more ih =>
    simp only [lineItems, List.length_append, List.length_cons]
    rcases List.mem_cons.1 hv with rfl | hv
    · omega
    · have := ih hv
      omega

theorem length_chars_field {f : String × Value} (hf : f ∈ fields) :
    (f.2.chars indent).length ≤ (lineFields indent fields).length := by
  induction fields with
  | nil => cases hf
  | cons field more ih =>
    obtain ⟨key, value⟩ := field
    simp only [lineFields, fieldChars, List.length_append, List.length_cons]
    rcases List.mem_cons.1 hf with rfl | hf
    · simp only
      omega
    · have := ih hf
      omega

theorem length_lt_inline (hscalar : (first :: more).all isScalar = true) {v : Value}
    (hv : v ∈ first :: more) :
    (v.chars indent).length < ((list (first :: more)).chars indent).length := by
  rw [chars_inline hscalar]
  simp only [List.length_cons, List.length_append]
  rcases List.mem_cons.1 hv with rfl | hv
  · omega
  · have hitem : (v.chars indent).length ≤ (inlineItems indent more).length := length_chars_item hv
    omega

theorem length_lt_lines (hscalar : ¬(first :: more).all isScalar = true) {v : Value}
    (hv : v ∈ first :: more) :
    (v.chars (indent ++ indentStep)).length < ((list (first :: more)).chars indent).length := by
  rw [chars_lines hscalar]
  have hline : (v.chars (indent ++ indentStep)).length ≤
      (lineItems (indent ++ indentStep) (first :: more)).length := length_chars_line hv
  simp only [List.length_cons, List.length_append]
  omega

theorem length_lt_fields {f : String × Value} (hf : f ∈ field :: fields) :
    (f.2.chars (indent ++ indentStep)).length + 1 <
      ((object (field :: fields)).chars indent).length := by
  rw [chars_fields]
  have hfield : (f.2.chars (indent ++ indentStep)).length ≤
      (lineFields (indent ++ indentStep) (field :: fields)).length := length_chars_field hf
  simp only [List.length_cons, List.length_append]
  omega

end Parts

/-! ## Values -/

/-- **A rendered value is read as its tree**, in front of anything that does not go on with it, or
rejected where an object starts with the key `for`. -/
theorem exprWithin_chars {d : Nat} {v : Value} (hv : v.Plain Number.isReadable)
    {indent : List Char}
    (hi : ∀ c ∈ indent, isBlankChar c = true) (m : Mode) {rest : List Char}
    (hrest : Finishes rest) (hd : (v.chars indent).length < d) :
    exprWithin d m (v.chars indent ++ rest) = outcome v.opensFor (v.tree indent) rest := by
  induction d generalizing v indent m rest with
  | zero => exact absurd hd (Nat.not_lt_zero _)
  | succ d ih =>
    change exprStep (exprWithin d) m _ = _
    cases v with
    | null => exact exprStep_of_finishes (term_word ['n', 'u', 'l', 'l'] rfl hrest) hrest
    | bool b =>
      cases b with
      | true =>
        exact exprStep_of_finishes (term_word ['t', 'r', 'u', 'e'] rfl hrest) hrest
      | false =>
        exact exprStep_of_finishes (term_word ['f', 'a', 'l', 's', 'e'] rfl hrest) hrest
    | number n => exact exprStep_of_finishes (term_number hv hrest.apart) hrest
    | string s => exact exprStep_of_finishes (term_string s rest) hrest
    | unevaluated s => exact hv.elim
    | list items =>
      cases items with
      | nil =>
        have hclose : white (']' :: rest) = .ok ([], ']' :: rest) :=
          (ends_of_startsToken (by decide) true rest).white
        refine exprStep_of_finishes ?_ hrest
        exact (term_bracket (startsFor_eq hclose)).trans
          (list_nil (listItems_nil (listItem_stop hclose (by simp))) hclose)
      | cons first more =>
        have hall := plain_of_mem hv
        by_cases hscalar : (first :: more).all isScalar = true
        · refine exprStep_inline hv hscalar (fun v hmem rest hrest => ?_) rest hrest
          exact ih (hall v hmem) hi m.spread hrest
            (Nat.lt_of_lt_of_le (length_lt_inline hscalar hmem) (Nat.le_of_lt_succ hd))
        · refine exprStep_lines hi hv hscalar (fun v hmem rest hrest => ?_) rest hrest
          exact ih (hall v hmem) (blank_indentStep hi) m.spread hrest
            (Nat.lt_of_lt_of_le (length_lt_lines hscalar hmem) (Nat.le_of_lt_succ hd))
    | object fields =>
      cases fields with
      | nil =>
        have hclose : white ('}' :: rest) = .ok ([], '}' :: rest) :=
          (ends_of_startsToken (by decide) true rest).white
        refine exprStep_of_finishes ?_ hrest
        exact (term_brace (startsFor_eq hclose)).trans (object_ok (entries_nil hclose))
      | cons first more =>
        have hfirst : _ < ((object (first :: more)).chars indent).length :=
          length_lt_fields List.mem_cons_self
        -- a key is read at a depth of one at least
        obtain ⟨d, rfl⟩ := Nat.exists_eq_add_of_le' (show 1 ≤ d by omega)
        have hkeys : ReadsKeys (exprWithin (d + 1) .line) :=
          fun key rest => read_key key d .line rest
        refine exprStep_fields hi hv hkeys (fun f hmem rest hrest => ?_) rest hrest
        refine ih (plainField_of_mem hv.2 f hmem) (blank_indentStep hi) .line hrest ?_
        have hlt : _ < ((object (first :: more)).chars indent).length := length_lt_fields hmem
        omega

end HclOverlay.Value
