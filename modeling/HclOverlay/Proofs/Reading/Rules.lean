import HclOverlay.Proofs.Reading.Number

/-!
# The rules of the grammar

For each reader of the grammar, what it does on a text whose pieces are known: a rule says which
pieces must be read, and what comes of them. Nothing here depends on how the pieces were written.

* `Quiet` — a text at which an expression cannot go on; `exprStep_of_term` — there, an expression is
  its first term.
* `name_ok` — a name that is not called.
* `list_ok`, `object_ok` and the rules for their parts.
-/

namespace HclOverlay.Hcl.Reader

variable {cs rest : List Char} {self : Mode → Reader Expr} {m : Mode}

/-! ## Where an expression ends -/

/-- Whether nothing that continues an expression starts here: no step, no operator and no branch. -/
def continuesNothing (rest : List Char) : Bool :=
  !startsStep rest && !startsOperator rest && rest.head? != some '?'

/-- A text at which an expression cannot go on, even behind the trivia there. -/
def Quiet (newlines : Bool) (rest : List Char) : Prop :=
  ∃ t mid, gap newlines rest = .ok (t, mid) ∧ continuesNothing mid = true

theorem stepsAfter_of_quiet (h : Quiet m.newlines cs) (subject : Expr) :
    stepsAfter self m subject cs = .ok (subject, cs) := by
  obtain ⟨t, mid, hgap, hmid⟩ := h
  simp only [continuesNothing, Bool.and_eq_true, Bool.not_eq_true'] at hmid
  have hsteps : bounded (steps self m) cs = .ok ([], cs) := by
    rw [bounded, steps, bind_ok (behind_none hgap hmid.1.1)]
    rfl
  rw [stepsAfter, bind_ok hsteps]
  rfl

theorem binaryAfter_of_quiet (h : Quiet m.newlines cs) (left : Expr) :
    binaryAfter self m left cs = .ok (left, cs) := by
  obtain ⟨t, mid, hgap, hmid⟩ := h
  simp only [continuesNothing, Bool.and_eq_true, Bool.not_eq_true'] at hmid
  rw [binaryAfter, bind_ok (behind_none hgap hmid.1.2)]
  rfl

theorem conditionalAfter_of_quiet (h : Quiet m.newlines cs) (test : Expr) :
    conditionalAfter self m test cs = .ok (test, cs) := by
  obtain ⟨t, mid, hgap, hmid⟩ := h
  simp only [continuesNothing, Bool.and_eq_true, bne_iff_ne, ne_eq] at hmid
  rw [conditionalAfter, bind_ok (behind_none hgap (by simpa using hmid.2))]
  rfl

/-- How the text behind a term is read: line ends may stand there also behind what opens lines. -/
def Mode.behind (m : Mode) (subject : Expr) : Mode := if opensLines subject then m.spread else m

theorem Mode.behind_newlines (m : Mode) (subject : Expr) :
    (Mode.behind m subject).newlines = (opensLines subject || m.newlines) := by
  unfold Mode.behind
  cases opensLines subject <;> rfl

/-- **An expression is its first term** where it cannot go on. -/
theorem exprStep_of_term {subject : Expr} (h : term self m cs = .ok (subject, rest))
    (hq : Quiet (opensLines subject || m.newlines) rest) :
    exprStep self m cs = .ok (subject, rest) := by
  rw [← Mode.behind_newlines] at hq
  rw [exprStep, bind_ok h]
  change (stepsAfter self (Mode.behind m subject) subject >>= _) rest = _
  rw [bind_ok (stepsAfter_of_quiet hq subject)]
  change (binaryAfter self (Mode.behind m subject) subject >>= _) rest = _
  rw [bind_ok (binaryAfter_of_quiet hq subject)]
  change (if (Mode.behind m subject).conditional = true
    then conditionalAfter self (Mode.behind m subject) subject else pure subject) rest = _
  split
  · exact conditionalAfter_of_quiet hq subject
  · rfl

theorem exprStep_error {miss : Miss} (h : term self m cs = .error miss) :
    exprStep self m cs = .error miss := by
  rw [exprStep, bind_error h]

/-! ## Terms -/

theorem term_eq (cs : List Char) :
    term self m cs = termStep self (termWithin self m cs.length) m cs := rfl

theorem term_quote (rest : List Char) :
    term self m ('"' :: rest) = quotedTemplate (inner self) ('"' :: rest) := rfl

theorem term_bracket (h : startsFor rest = false) :
    term self m ('[' :: rest) = list (self m.spread) ('[' :: rest) := by
  change (if startsFor rest = true then forList self m ('[' :: rest)
    else list (self m.spread) ('[' :: rest)) = _
  rw [if_neg (by simp [h])]

theorem term_brace (h : startsFor rest = false) :
    term self m ('{' :: rest) = object (self .line) ('{' :: rest) := by
  change (if startsFor rest = true then forObject self m ('{' :: rest)
    else object (self .line) ('{' :: rest)) = _
  rw [if_neg (by simp [h])]

theorem term_brace_for (h : startsFor rest = true) :
    term self m ('{' :: rest) = forObject self m ('{' :: rest) := by
  change (if startsFor rest = true then forObject self m ('{' :: rest)
    else object (self .line) ('{' :: rest)) = _
  rw [if_pos h]

theorem term_minus {e : Expr} (h : negativeLiteral ('-' :: cs) = .ok (e, rest)) :
    term self m ('-' :: cs) = .ok (e, rest) :=
  orElse_ok h _

/-- The characters that terms other than names and numbers start with. -/
def termMarks : List Char := ['"', '[', '{', '(', '<', '-', '!']

/-- A character that no other term starts with starts a number, a name or nothing. -/
theorem termStep_other {operand : Reader Expr} {c : Char} (h : c ∉ termMarks) :
    termStep self operand m (c :: cs) =
      (if c.isDigit then numberLiteral (c :: cs)
        else if Text.isIdentifierStart c then nameOrCall self m (c :: cs)
        else malformed (c :: cs)) := by
  simp only [termMarks, List.mem_cons, List.not_mem_nil, or_false, not_or] at h
  obtain ⟨h₁, h₂, h₃, h₄, h₅, h₆, h₇⟩ := h
  unfold termStep
  split
  case h_9 => cases ‹c :: cs = []›
  case h_8 heq =>
    cases heq
    rfl
  all_goals
    next heq =>
    injection heq with hc _
    contradiction

theorem term_other {c : Char} (h : c ∉ termMarks) :
    term self m (c :: cs) =
      (if c.isDigit then numberLiteral (c :: cs)
        else if Text.isIdentifierStart c then nameOrCall self m (c :: cs)
        else malformed (c :: cs)) := termStep_other h

/-! ## Names -/

/-- A text that goes on with no name. -/
def EndsName (rest : List Char) : Prop :=
  ∀ c ∈ rest.head?, Text.isIdentifierContinue c = false

theorem identifier_ok {name : List Char} (h : Text.isIdentifierChars name = true)
    (hrest : EndsName rest) : identifier (name ++ rest) = .ok (String.ofList name, rest) := by
  cases name with
  | nil => cases h
  | cons c more =>
    simp only [Text.isIdentifierChars, Bool.and_eq_true, List.all_eq_true] at h
    have hspan : (more ++ rest).span Text.isIdentifierContinue = (more, rest) :=
      Number.span_append h.2 hrest
    rw [List.cons_append, identifier, if_pos h.1, hspan]

/-- Whether a call goes on here: with its arguments, or with a further name. -/
def continuesCall (rest : List Char) : Bool :=
  rest.head? == some '(' || (stripText [':', ':'] rest).isSome

theorem callOf_absent {t mid : List Char} {name : String} (hgap : gap m.newlines cs = .ok (t, mid))
    (h : continuesCall mid = false) : callOf self m name cs = .error .absent := by
  simp only [continuesCall, Bool.or_eq_false_iff, Option.isSome_eq_false_iff,
    Option.isNone_iff_eq_none] at h
  have hpath : bounded (morePath m) mid = .error .absent := by
    rw [bounded, morePath, bind_ok (a := mid) rfl, if_neg (by simp [h.1])]
    refine bind_error ?_ _
    rw [text, ofOption, h.2]
    rfl
  rw [callOf, bind_ok hgap, bind_error hpath]

/-- A name that is not called. -/
theorem name_ok {name t mid : List Char} (h : Text.isIdentifierChars name = true)
    (hrest : EndsName rest) (hgap : gap m.newlines rest = .ok (t, mid))
    (hcall : continuesCall mid = false) :
    nameOrCall self m (name ++ rest) = .ok (ofName (String.ofList name), rest) := by
  rw [nameOrCall, bind_ok (identifier_ok h hrest), orElse_absent (callOf_absent hgap hcall)]
  rfl

/-- A character that starts a name starts no other term. -/
theorem not_mem_termMarks {c : Char} (h : Text.isIdentifierStart c = true) : c ∉ termMarks := by
  intro hc
  simp only [termMarks, List.mem_cons, List.not_mem_nil, or_false] at hc
  rcases hc with rfl | rfl | rfl | rfl | rfl | rfl | rfl <;> exact absurd h (by decide)

/-- Names are no trivia. -/
theorem startsToken_of_isIdentifierStart {c : Char} (h : Text.isIdentifierStart c = true) :
    startsToken c = true := by
  rw [startsToken, Bool.not_eq_true', Bool.eq_false_iff]
  intro hc
  simp only [isWhiteChar, isBlankChar, Bool.or_eq_true, beq_iff_eq] at hc
  rcases hc with ((((rfl | rfl) | rfl) | rfl) | rfl) | rfl <;> exact absurd h (by decide)

/-- No digit starts a name. -/
theorem isDigit_of_isIdentifierStart {c : Char} (h : Text.isIdentifierStart c = true) :
    c.isDigit = false := by
  have hdigits : ∀ n < 58, 48 ≤ n → Text.isIdentifierStart (Char.ofNat n) = false := by decide
  rw [Bool.eq_false_iff]
  intro hd
  obtain ⟨hlow, hhigh⟩ := Char.isDigit_iff_toNat.1 hd
  have hnot := hdigits c.toNat (Nat.lt_succ_of_le hhigh) hlow
  rw [Char.ofNat_toNat] at hnot
  rw [hnot] at h
  cases h

theorem term_name {name : List Char} (h : Text.isIdentifierChars name = true) (rest : List Char) :
    term self m (name ++ rest) = nameOrCall self m (name ++ rest) := by
  cases name with
  | nil => cases h
  | cons c more =>
    simp only [Text.isIdentifierChars, Bool.and_eq_true] at h
    rw [List.cons_append, term_other (not_mem_termMarks h.1),
      if_neg (by simp [isDigit_of_isIdentifierStart h.1]), if_pos h.1]

/-! ## Lists -/

section Lists

variable {stops : List Char} {expr : Reader Expr} {mid : List Char}

/-- A character that stops no list is the first of an item. -/
theorem any_stops {start : List Char} (h : ∀ c ∈ start.head?, c ∉ stops) :
    ¬ start.head?.any (stops.contains ·) = true := by
  cases hs : start.head? with
  | none => exact Bool.false_ne_true
  | some c => simpa using h c hs

theorem listItem_ok {before after : Trivia} {e : Expr} {start : List Char}
    (hbefore : white cs = .ok (before, start)) (hstart : ∀ c ∈ start.head?, c ∉ stops)
    (hexpr : expr start = .ok (e, mid)) (hafter : white mid = .ok (after, rest)) :
    listItem stops expr cs = .ok (⟨before, e, after⟩, rest) := by
  rw [listItem, bind_ok hbefore, bind_ok (a := start) rfl, if_neg (any_stops hstart)]
  change (expr >>= _) start = _
  rw [bind_ok hexpr, bind_ok hafter]
  rfl

/-- Where a list ends, there is no item. -/
theorem listItem_stop {before : Trivia} {c : Char} (hbefore : white cs = .ok (before, c :: rest))
    (hc : c ∈ stops) : listItem stops expr cs = .error .absent := by
  have hstop : (c :: rest).head?.any (stops.contains ·) = true := by simpa using hc
  rw [listItem, bind_ok hbefore, bind_ok (a := c :: rest) rfl, if_pos hstop]
  rfl

theorem listItem_error {before : Trivia} {start : List Char} {miss : Miss}
    (hbefore : white cs = .ok (before, start)) (hstart : ∀ c ∈ start.head?, c ∉ stops)
    (hexpr : expr start = .error miss) : listItem stops expr cs = .error miss := by
  rw [listItem, bind_ok hbefore, bind_ok (a := start) rfl, if_neg (any_stops hstart)]
  change (expr >>= _) start = _
  rw [bind_error hexpr]

theorem moreItems_cons {n : Nat} {item : Padded Expr} {items : List (Padded Expr)}
    (hitem : listItem stops expr cs = .ok (item, mid))
    (hmore : moreItems stops expr n mid = .ok (items, rest)) :
    moreItems stops expr (n + 1) (',' :: cs) = .ok (item :: items, rest) := by
  have h : (do char ','; listItem stops expr : Reader (Padded Expr)) (',' :: cs) =
      .ok (item, mid) := by
    rw [bind_ok (char_self _ _), hitem]
  rw [moreItems, bind_ok (opt_ok h)]
  change (moreItems stops expr n >>= _) mid = _
  rw [bind_ok hmore]
  rfl

/-- Without a comma there are no further items. -/
theorem moreItems_nil (n : Nat) (h : cs.head? ≠ some ',') :
    moreItems stops expr (n + 1) cs = .ok ([], cs) := by
  rw [moreItems, bind_ok (opt_absent (bind_error (char_of_ne h) _))]
  rfl

/-- Behind a last comma there are no further items. -/
theorem moreItems_comma (n : Nat) (h : listItem stops expr cs = .error .absent) :
    moreItems stops expr (n + 1) (',' :: cs) = .ok ([], ',' :: cs) := by
  have hopt : (do char ','; listItem stops expr : Reader (Padded Expr)) (',' :: cs) =
      .error .absent := by
    rw [bind_ok (char_self _ _), h]
  rw [moreItems, bind_ok (opt_absent hopt)]
  rfl

theorem moreItems_malformed {n : Nat} (h : listItem stops expr cs = .error .malformed) :
    moreItems stops expr (n + 1) (',' :: cs) = .error .malformed := by
  have hopt : (do char ','; listItem stops expr : Reader (Padded Expr)) (',' :: cs) =
      .error .malformed := by
    rw [bind_ok (char_self _ _), h]
  rw [moreItems, bind_error (opt_malformed hopt)]

theorem moreItems_error {n : Nat} {item : Padded Expr} {miss : Miss}
    (hitem : listItem stops expr cs = .ok (item, mid))
    (hmore : moreItems stops expr n mid = .error miss) :
    moreItems stops expr (n + 1) (',' :: cs) = .error miss := by
  have h : (do char ','; listItem stops expr : Reader (Padded Expr)) (',' :: cs) =
      .ok (item, mid) := by
    rw [bind_ok (char_self _ _), hitem]
  rw [moreItems, bind_ok (opt_ok h)]
  change (moreItems stops expr n >>= _) mid = _
  rw [bind_error hmore]

theorem listItems_nil (h : listItem stops expr cs = .error .absent) :
    listItems stops expr cs = .ok ([], cs) := by
  rw [listItems, bind_ok (opt_absent h)]
  rfl

theorem listItems_cons {item : Padded Expr} {items : List (Padded Expr)}
    (hitem : listItem stops expr cs = .ok (item, mid))
    (hmore : moreItems stops expr (mid.length + 1) mid = .ok (items, rest)) :
    listItems stops expr cs = .ok (item :: items, rest) := by
  rw [listItems, bind_ok (opt_ok hitem)]
  change (bounded (moreItems stops expr) >>= _) mid = _
  rw [bind_ok (show bounded (moreItems stops expr) mid = _ from hmore)]
  rfl

theorem listItems_malformed (h : listItem stops expr cs = .error .malformed) :
    listItems stops expr cs = .error .malformed := by
  rw [listItems, bind_error (opt_malformed h)]

theorem listItems_error {item : Padded Expr} {miss : Miss}
    (hitem : listItem stops expr cs = .ok (item, mid))
    (hmore : moreItems stops expr (mid.length + 1) mid = .error miss) :
    listItems stops expr cs = .error miss := by
  rw [listItems, bind_ok (opt_ok hitem)]
  change (bounded (moreItems stops expr) >>= _) mid = _
  rw [bind_error (show bounded (moreItems stops expr) mid = _ from hmore)]

/-- A list without items. -/
theorem list_nil {closing : Trivia} (hitems : listItems [']'] expr cs = .ok ([], mid))
    (hclosing : white mid = .ok (closing, ']' :: rest)) :
    list expr ('[' :: cs) = .ok (.list [] false closing, rest) := by
  rw [list, bind_ok (char_self _ _), bind_ok hitems, if_pos List.isEmpty_nil,
    bind_ok (pure_apply false mid)]
  change (white >>= _) mid = _
  rw [bind_ok hclosing, bind_ok (commit_ok (char_self _ _))]
  rfl

/-- A list with its items read and, behind them, a comma or none. -/
theorem list_cons {first : Padded Expr} {more : List (Padded Expr)} {comma : Bool}
    {closing : Trivia} {last : List Char}
    (hitems : listItems [']'] expr cs = .ok (first :: more, mid))
    (hcomma : flag ',' mid = .ok (comma, last))
    (hclosing : white last = .ok (closing, ']' :: rest)) :
    list expr ('[' :: cs) = .ok (.list (first :: more) comma closing, rest) := by
  rw [list, bind_ok (char_self _ _), bind_ok hitems]
  change (flag ',' >>= _) mid = _
  rw [bind_ok hcomma]
  change (white >>= _) last = _
  rw [bind_ok hclosing, bind_ok (commit_ok (char_self _ _))]
  rfl

theorem list_error {miss : Miss} (h : listItems [']'] expr cs = .error miss) :
    list expr ('[' :: cs) = .error miss := by
  rw [list, bind_ok (char_self _ _), bind_error h]

end Lists

/-! ## Objects -/

section Objects

variable {expr : Reader Expr} {mid : List Char}

theorem item_ok (colon : Bool) {before afterKey beforeValue afterValue comment : Trivia}
    {key value : Expr} {ending : ItemEnd} {c₁ c₂ c₃ c₄ c₅ c₆ : List Char}
    (hkey : expr cs = .ok (key, c₁)) (hafter : blank c₁ = .ok (afterKey, c₂))
    (hsep : c₂ = (if colon then ':' else '=') :: c₃)
    (hbefore : blank c₃ = .ok (beforeValue, c₄)) (hvalue : expr c₄ = .ok (value, c₅))
    (hblank : blank c₅ = .ok (afterValue, c₆))
    (hend : itemEnd c₆ = .ok ((comment, ending), rest)) :
    item expr before cs =
      .ok (⟨⟨before, keyOf key, afterKey⟩, colon, ⟨beforeValue, value, afterValue ++ comment⟩,
        ending⟩, rest) := by
  subst hsep
  rw [item, bind_ok hkey, bind_ok hafter]
  cases colon with
  | true =>
    rw [if_pos rfl, bind_ok (flag_self _ _)]
    change (blank >>= _) c₃ = _
    rw [bind_ok hbefore, bind_ok hvalue, bind_ok hblank, bind_ok hend]
    rfl
  | false =>
    rw [if_neg Bool.false_ne_true, bind_ok (flag_of_ne (by simp))]
    change (commit (char '=') >>= _) ('=' :: c₃) = _
    rw [bind_ok (commit_ok (char_self _ _))]
    change (blank >>= _) c₃ = _
    rw [bind_ok hbefore, bind_ok hvalue, bind_ok hblank, bind_ok hend]
    rfl

theorem item_error_value (colon : Bool) {before afterKey beforeValue : Trivia} {key : Expr}
    {c₁ c₂ c₃ c₄ : List Char} {miss : Miss} (hkey : expr cs = .ok (key, c₁))
    (hafter : blank c₁ = .ok (afterKey, c₂)) (hsep : c₂ = (if colon then ':' else '=') :: c₃)
    (hbefore : blank c₃ = .ok (beforeValue, c₄)) (hvalue : expr c₄ = .error miss) :
    item expr before cs = .error miss := by
  subst hsep
  rw [item, bind_ok hkey, bind_ok hafter]
  cases colon with
  | true =>
    rw [if_pos rfl, bind_ok (flag_self _ _)]
    change (blank >>= _) c₃ = _
    rw [bind_ok hbefore, bind_error hvalue]
  | false =>
    rw [if_neg Bool.false_ne_true, bind_ok (flag_of_ne (by simp))]
    change (commit (char '=') >>= _) ('=' :: c₃) = _
    rw [bind_ok (commit_ok (char_self _ _))]
    change (blank >>= _) c₃ = _
    rw [bind_ok hbefore, bind_error hvalue]

theorem itemEnd_newline (rest : List Char) :
    itemEnd ('\n' :: rest) = .ok (([], .newline), rest) := by
  have hline : lineEnd ('\n' :: rest) = .ok (['\n'], rest) := rfl
  rw [itemEnd, bind_ok (a := '\n' :: rest) rfl, if_neg (by simp), bind_ok (flag_of_ne (by simp))]
  change (opt (ofOption lineComment?) >>= _) ('\n' :: rest) = _
  rw [bind_ok (opt_absent rfl), bind_ok (commit_ok hline)]
  rfl

theorem entries_nil {n : Nat} {closing : Trivia} (h : white cs = .ok (closing, '}' :: rest)) :
    entries expr (n + 1) cs = .ok (([], closing), '}' :: rest) := by
  rw [entries, bind_ok h, bind_ok (a := '}' :: rest) rfl]
  rfl

theorem entries_cons {n : Nat} {before closing : Trivia} {first : Item} {more : List Item}
    {start : List Char} (hbefore : white cs = .ok (before, start))
    (hstart : start.head? ≠ some '}') (hitem : item expr before start = .ok (first, mid))
    (hmore : entries expr n mid = .ok ((more, closing), rest)) :
    entries expr (n + 1) cs = .ok ((first :: more, closing), rest) := by
  rw [entries, bind_ok hbefore, bind_ok (a := start) rfl, if_neg (by simpa using hstart),
    bind_ok hitem, bind_ok hmore]
  rfl

theorem entries_error_item {n : Nat} {before : Trivia} {start : List Char} {miss : Miss}
    (hbefore : white cs = .ok (before, start)) (hstart : start.head? ≠ some '}')
    (hitem : item expr before start = .error miss) :
    entries expr (n + 1) cs = .error miss := by
  rw [entries, bind_ok hbefore, bind_ok (a := start) rfl, if_neg (by simpa using hstart),
    bind_error hitem]

theorem entries_error_more {n : Nat} {before : Trivia} {first : Item} {start : List Char}
    {miss : Miss} (hbefore : white cs = .ok (before, start)) (hstart : start.head? ≠ some '}')
    (hitem : item expr before start = .ok (first, mid))
    (hmore : entries expr n mid = .error miss) :
    entries expr (n + 1) cs = .error miss := by
  rw [entries, bind_ok hbefore, bind_ok (a := start) rfl, if_neg (by simpa using hstart),
    bind_ok hitem, bind_error hmore]

theorem object_ok {items : List Item} {closing : Trivia}
    (h : entries expr (cs.length + 1) cs = .ok ((items, closing), '}' :: rest)) :
    object expr ('{' :: cs) = .ok (.object (items.foldl addItem []) closing, rest) := by
  rw [object, bind_ok (char_self _ _),
    bind_ok (show bounded (entries expr) cs = _ from h)]
  rfl

theorem object_error {miss : Miss} (h : entries expr (cs.length + 1) cs = .error miss) :
    object expr ('{' :: cs) = .error miss := by
  rw [object, bind_ok (char_self _ _), bind_error (show bounded (entries expr) cs = _ from h)]

/-- A `for` without a name for its values is malformed. -/
theorem forObject_malformed {opening before : Trivia} {start mid : List Char}
    (hopening : white cs = .ok (opening, 'f' :: 'o' :: 'r' :: start))
    (hbefore : white start = .ok (before, mid)) (hmid : identifier mid = .error .absent) :
    forObject self m ('{' :: cs) = .error .malformed := by
  have hname : padded (commit identifier) start = .error .malformed := by
    rw [padded, bind_ok hbefore, bind_error (commit_error hmid)]
  have hbinding : binding start = .error .malformed := by
    rw [binding, bind_error hname]
  have hword : text ['f', 'o', 'r'] ('f' :: 'o' :: 'r' :: start) = .ok ((), start) := rfl
  have hhead : forHead self cs = .error .malformed := by
    rw [forHead, bind_ok hopening, bind_ok hword, bind_error hbinding]
  rw [forObject, bind_ok (char_self _ _), bind_error hhead]

end Objects

/-! ## Where a `for` starts -/

/-- Whether the word `for` comes first, with something behind it that ends the word. -/
def startsForWord (cs : List Char) : Bool :=
  match stripText ['f', 'o', 'r'] cs with
  | some (c :: _) => c == ' ' || c == '\t' || c == '\n' || c == '#' || c == '/'
  | _ => false

/-- A `for` starts where the word does, behind white space. -/
theorem startsFor_eq {t mid : List Char} (h : white cs = .ok (t, mid)) :
    startsFor cs = startsForWord mid := by
  have : (spanTrivia isWhiteChar comment? cs.length cs).2 = mid :=
    congrArg Prod.snd (Except.ok.inj h)
  rw [startsFor, this]
  rfl

end HclOverlay.Hcl.Reader
