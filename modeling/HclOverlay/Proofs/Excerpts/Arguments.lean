import HclOverlay.Proofs.Excerpts.Expressions

/-!
# Where the argument of a call stands

An expression that is a call is read as its first term, and the text of the call is its name, its
argument in parentheses and the trivia between them. So the text of a single argument can be cut out
of the text of the call, and it is read the same way on its own.

* `IsCall`, `NoCall` — readers of other expressions than calls.
* `exprStep_call`, `callOf_call` — **a call is read** by its name and its arguments.
* `Calm.of_trivia` — trivia goes on with no name and no number.
* `expr_of_call` — where the argument of a call stands, and how it is read.
-/

namespace HclOverlay.Hcl.Reader

variable {α β : Type} {cs mid rest : List Char} {p : Expr → Prop}
variable {self : Mode → Reader Expr} {m : Mode} {e : Expr}

/-! ## Readers of other expressions -/

/-- Whether an expression is a call. -/
def IsCall : Expr → Prop
  | .call .. => True
  | _ => False

/-- A reader that gives no call. -/
structure NoCall (r : Reader Expr) : Prop where
  not_call {cs rest : List Char} {e : Expr} : r cs = .ok (e, rest) → ¬ IsCall e

section Combinators

variable {r s : Reader Expr}

theorem NoCall.pure (h : ¬ IsCall e) : NoCall (pure e) := ⟨fun hread => (pure_eq_ok hread).1 ▸ h⟩

theorem NoCall.bind (r : Reader α) {f : α → Reader Expr} (h : ∀ a, NoCall (f a)) :
    NoCall (r >>= f) where
  not_call hread := by
    obtain ⟨a, mid, -, hread⟩ := bind_eq_ok hread
    exact (h a).not_call hread

theorem NoCall.orElse (hr : NoCall r) (hs : NoCall s) : NoCall (r <|> s) where
  not_call hread := by
    rcases orElse_eq_ok hread with hread | ⟨-, hread⟩
    · exact hr.not_call hread
    · exact hs.not_call hread

theorem NoCall.ite (c : Prop) [Decidable c] (hr : NoCall r) (hs : NoCall s) :
    NoCall (if c then r else s) := by
  split
  · exact hr
  · exact hs

/-- What stays a call was one unless something else follows. -/
theorem NoCall.getD_behind {newlines : Bool} {starts : List Char → Bool}
    {r : Trivia → Reader Expr} {first : Expr} (hr : ∀ t, NoCall (r t)) (he : IsCall e)
    (h : (do return (← behind (gap newlines) starts r).getD first : Reader Expr) cs =
      .ok (e, rest)) : first = e ∧ rest = cs := by
  obtain ⟨o, mid, hbehind, h⟩ := bind_eq_ok h
  obtain ⟨rfl, rfl⟩ := pure_eq_ok h
  obtain ⟨t, z, -, ⟨found, rfl, -, hread⟩ | ⟨rfl, -, rfl⟩⟩ := behind_eq_ok hbehind
  · exact absurd he ((hr t).not_call hread)
  · exact ⟨rfl, rfl⟩

end Combinators

theorem noCall_operation (left : Expr) (before : Trivia) : NoCall (operation self m left before) :=
  .bind _ fun _ => .bind _ fun _ => .bind _ fun _ => .pure id

theorem noCall_branches (test : Expr) (before : Trivia) : NoCall (branches self m test before) :=
  .bind _ fun _ => .bind _ fun _ => .bind _ fun _ => .bind _ fun _ => .bind _ fun _ =>
    .bind _ fun _ => .bind _ fun _ => .pure id

theorem noCall_prefixed (op : UnaryOp) (operand : Reader Expr) : NoCall (prefixed op operand) :=
  .bind _ fun _ => .bind _ fun _ => .bind _ fun e => .pure (by cases e <;> exact id)

theorem noCall_quotedTemplate (within : Inner) : NoCall (quotedTemplate within) :=
  .orElse (.bind _ fun _ => .pure id)
    (.bind _ fun _ => .bind _ fun _ => .bind _ fun _ => .pure id)

theorem noCall_list (expr : Reader Expr) : NoCall (list expr) :=
  .bind _ fun _ => .bind _ fun _ => .ite _
    (.bind _ fun _ => .bind _ fun _ => .bind _ fun _ => .pure id)
    (.bind _ fun _ => .bind _ fun _ => .bind _ fun _ => .pure id)

theorem noCall_object (expr : Reader Expr) : NoCall (object expr) :=
  .bind _ fun _ => .bind _ fun _ => .bind _ fun _ => .pure id

theorem noCall_forList : NoCall (forList self m) :=
  .bind _ fun _ => .bind _ fun _ => .bind _ fun _ => .bind _ fun _ => .bind _ fun _ => .pure id

theorem noCall_forObject : NoCall (forObject self m) :=
  .bind _ fun _ => .bind _ fun _ => .bind _ fun _ => .bind _ fun _ => .bind _ fun _ =>
    .bind _ fun _ => .bind _ fun _ => .bind _ fun _ => .pure id

theorem noCall_parens (expr : Reader Expr) : NoCall (parens expr) :=
  .bind _ fun _ => .bind _ fun _ => .bind _ fun _ => .pure id

theorem noCall_heredoc (within : Inner) : NoCall (heredoc within) :=
  .bind _ fun _ => .bind _ fun _ => .bind _ fun _ => .bind _ fun _ => .bind _ fun _ =>
    .ite _ (.pure id) (.pure id)

theorem noCall_negativeLiteral : NoCall negativeLiteral :=
  .bind _ fun _ => .bind _ fun _ => .bind _ fun _ => .bind _ fun _ => .pure id

theorem noCall_numberLiteral : NoCall numberLiteral where
  not_call h := by
    obtain ⟨⟨n, left⟩, -, heq⟩ := Option.map_eq_some_iff.1 (ofOption_eq_ok h)
    cases heq
    exact id

/-! ## Calls -/

theorem steps_eq_nil {n : Nat} (h : steps self m n cs = .ok ([], rest)) : rest = cs := by
  cases n with
  | zero => cases h
  | succ n =>
    rw [steps_eq] at h
    obtain ⟨o, mid, hnext, h⟩ := bind_eq_ok h
    cases o with
    | none =>
      obtain ⟨-, rfl⟩ := pure_eq_ok h
      obtain ⟨t, z, -, ⟨b, hnone, -⟩ | ⟨-, -, rfl⟩⟩ := behind_eq_ok hnext
      · cases hnone
      · rfl
    | some first =>
      obtain ⟨more, last, -, h⟩ := bind_eq_ok h
      cases (pure_eq_ok h).1

/-- **An expression that is a call** is its first term. -/
theorem exprStep_call (he : IsCall e) (h : exprStep self m cs = .ok (e, rest)) :
    term self m cs = .ok (e, rest) := by
  rw [exprStep_eq] at h
  obtain ⟨subject, c₁, hterm, h⟩ := bind_eq_ok h
  obtain ⟨left, c₂, hsteps, h⟩ := bind_eq_ok h
  obtain ⟨whole, c₃, hbinary, h⟩ := bind_eq_ok h
  obtain ⟨rfl, rfl⟩ : whole = e ∧ rest = c₃ := by
    split at h
    · rw [conditionalAfter_eq] at h
      exact NoCall.getD_behind (noCall_branches whole) he h
    · obtain ⟨rfl, rfl⟩ := pure_eq_ok h
      exact ⟨rfl, rfl⟩
  rw [binaryAfter_eq] at hbinary
  obtain ⟨rfl, rfl⟩ := NoCall.getD_behind (noCall_operation left) he hbinary
  rw [stepsAfter_eq] at hsteps
  obtain ⟨found, c₄, hfound, hsteps⟩ := bind_eq_ok hsteps
  obtain ⟨rfl, rfl⟩ := pure_eq_ok hsteps
  cases found with
  | nil => rwa [steps_eq_nil hfound]
  | cons first more => cases he

/-- A term that is a call starts with its name. -/
theorem term_call (he : IsCall e) (h : term self m cs = .ok (e, rest)) :
    nameOrCall self m cs = .ok (e, rest) := by
  rw [term_eq] at h
  cases cs with
  | nil => cases h
  | cons c tail =>
    have hmark : c ∉ termMarks := by
      intro hmark
      simp only [termMarks, List.mem_cons, List.not_mem_nil, or_false] at hmark
      rcases hmark with rfl | rfl | rfl | rfl | rfl | rfl | rfl
      · exact (noCall_quotedTemplate _).not_call h he
      · change (if startsFor tail then forList self m _ else list _ _) = _ at h
        split at h
        · exact noCall_forList.not_call h he
        · exact (noCall_list _).not_call h he
      · change (if startsFor tail then forObject self m _ else object _ _) = _ at h
        split at h
        · exact noCall_forObject.not_call h he
        · exact (noCall_object _).not_call h he
      · exact (noCall_parens _).not_call h he
      · exact (noCall_heredoc _).not_call h he
      · exact (noCall_negativeLiteral.orElse (noCall_prefixed _ _)).not_call h he
      · exact (noCall_prefixed _ _).not_call h he
    rw [termStep_other hmark] at h
    split at h
    · exact absurd he (noCall_numberLiteral.not_call h)
    · split at h
      · exact h
      · cases h

/-- **A call is read** by its name and its arguments. -/
theorem callOf_call (he : IsCall e) (h : exprStep self m cs = .ok (e, rest)) :
    ∃ name mid, identifier cs = .ok (name, mid) ∧ callOf self m name mid = .ok (e, rest) := by
  obtain ⟨name, mid, hname, h⟩ := bind_eq_ok (term_call he (exprStep_call he h))
  refine ⟨name, mid, hname, ?_⟩
  rcases orElse_eq_ok h with h | ⟨-, h⟩
  · exact h
  · rw [(pure_eq_ok h).1, ofName] at he
    split_ifs at he <;> exact he.elim

/-! ## The argument -/

theorem morePath_eq_nil {n : Nat} (h : morePath m n cs = .ok ([], rest)) : rest = cs := by
  cases n with
  | zero => cases h
  | succ n =>
    rw [morePath_eq, onHead] at h
    split at h
    · exact (pure_eq_ok h).2
    · obtain ⟨u, c₁, -, h⟩ := bind_eq_ok h
      obtain ⟨before, c₂, -, h⟩ := bind_eq_ok h
      obtain ⟨name, c₃, -, h⟩ := bind_eq_ok h
      obtain ⟨after, c₄, -, h⟩ := bind_eq_ok h
      obtain ⟨more, c₅, -, h⟩ := bind_eq_ok h
      cases (pure_eq_ok h).1

theorem moreItems_eq_nil {stops : List Char} {expr : Reader Expr} {n : Nat}
    (h : moreItems stops expr n cs = .ok ([], rest)) : rest = cs := by
  cases n with
  | zero => cases h
  | succ n =>
    obtain ⟨o, mid, hitem, hitems⟩ := bind_eq_ok h
    rcases opt_eq_ok hitem with ⟨item, rfl, -⟩ | ⟨rfl, -, rfl⟩
    · obtain ⟨more, last, -, hmore⟩ := bind_eq_ok hitems
      cases (pure_eq_ok hmore).1
    · exact (pure_eq_ok hitems).2

/-- A single item is read between white space. -/
theorem listItems_singleton {stops : List Char} {expr : Reader Expr} {item : Padded Expr}
    (h : listItems stops expr cs = .ok ([item], rest)) :
    ∃ inside, cs = item.before ++ inside ∧ expr inside = .ok (item.item, item.after ++ rest) ∧
      Tails true item.after := by
  obtain ⟨o, mid, hitem, hitems⟩ := bind_eq_ok h
  rcases opt_eq_ok hitem with ⟨first, rfl, hfirst⟩ | ⟨rfl, -, -⟩
  · obtain ⟨more, last, hmore, hitems⟩ := bind_eq_ok hitems
    obtain ⟨heq, rfl⟩ := pure_eq_ok hitems
    obtain ⟨rfl, rfl⟩ := List.cons.inj heq
    obtain rfl := moreItems_eq_nil hmore
    rw [listItem_eq] at hfirst
    obtain ⟨before, inside, hbefore, hfirst⟩ := bind_eq_ok hfirst
    rw [onHead] at hfirst
    split at hfirst
    · cases hfirst
    · obtain ⟨e, behind, he, hfirst⟩ := bind_eq_ok hfirst
      obtain ⟨after, left, hafter, hfirst⟩ := bind_eq_ok hfirst
      obtain ⟨rfl, rfl⟩ := pure_eq_ok hfirst
      obtain ⟨rfl, -⟩ := white_eq_ok hbefore
      obtain ⟨rfl, -, htails, -⟩ := white_eq_ok hafter
      exact ⟨inside, rfl, he, htails⟩
  · cases hitems

theorem argsEnd_eq_ok {ending : ArgsEnd} (h : argsEnd cs = .ok (ending, rest)) :
    cs = ending.chars ++ rest := by
  rcases orElse_eq_ok h with h | ⟨-, h⟩
  · obtain ⟨u, mid, hcomma, h⟩ := bind_eq_ok h
    obtain ⟨rfl, rfl⟩ := pure_eq_ok h
    exact char_eq_ok hcomma
  · rcases orElse_eq_ok h with h | ⟨-, h⟩
    · obtain ⟨u, mid, hpoint, h⟩ := bind_eq_ok h
      obtain ⟨v, last, hpoints, h⟩ := bind_eq_ok h
      obtain ⟨rfl, rfl⟩ := pure_eq_ok h
      rw [char_eq_ok hpoint, text_eq_ok (commit_eq_ok hpoints)]
      rfl
    · obtain ⟨rfl, rfl⟩ := pure_eq_ok h
      rfl

/-! ## What follows an argument -/

/-- The characters that trivia starts with. -/
def opensTrivia (c : Char) : Bool := isWhiteChar c || c == '#' || c == '/'

theorem inlineComment_head {body : List Char} {rest : List Char × List Char}
    (h : inlineComment? body = some rest) : ∃ tail, body = '/' :: tail := by
  unfold inlineComment? at h
  split at h
  · exact ⟨_, rfl⟩
  · cases h

theorem lineComment_head {body : List Char} {rest : List Char × List Char}
    (h : lineComment? body = some rest) : ∃ c tail, body = c :: tail ∧ opensTrivia c = true := by
  unfold lineComment? at h
  split at h
  · exact ⟨_, _, rfl, rfl⟩
  · exact ⟨_, _, rfl, rfl⟩
  · cases h

theorem Skips.head {newlines : Bool} {t : Trivia} (h : Skips newlines t) :
    ∀ c ∈ t.head?, opensTrivia c = true := by
  intro c hc
  cases h with
  | nil => cases hc
  | skip hskips =>
    cases hc
    have hwhite : isWhiteChar c = true := by
      cases newlines with
      | true => exact hskips
      | false => simp [isWhiteChar, show isBlankChar c = true from hskips]
    simp [opensTrivia, hwhite]
  | comment hbody =>
    obtain ⟨tail, rfl⟩ := inlineComment_head hbody
    cases hc
    rfl
  | line _ hbody =>
    obtain ⟨d, tail, rfl, hd⟩ := lineComment_head hbody
    cases hc
    exact hd

theorem Tails.head {newlines : Bool} {t : Trivia} (h : Tails newlines t) :
    ∀ c ∈ t.head?, opensTrivia c = true := by
  cases h with
  | trivia ht => exact ht.head
  | @comment t body ht hbody =>
    cases t with
    | cons d t => exact ht.head
    | nil =>
      obtain ⟨d, tail, rfl, hd⟩ := lineComment_head hbody
      intro c hc
      cases hc
      exact hd

theorem Calm.of_opensTrivia {c : Char} (hc : opensTrivia c = true) (w : List Char) :
    Calm (c :: w) := by
  have hc : ((((c = ' ' ∨ c = '\t') ∨ c = '\n') ∨ c = '\r') ∨ c = '#') ∨ c = '/' := by
    simpa [opensTrivia, isWhiteChar, isBlankChar] using hc
  refine ⟨fun d hd => ?_, fun hplus => ?_, fun tail heq => ?_⟩
  · cases hd
    rcases hc with ((((rfl | rfl) | rfl) | rfl) | rfl) | rfl <;> decide
  · cases hplus
    simp at hc
  · cases heq
    simp at hc

/-- Trivia goes on with no name and no number. -/
theorem Calm.of_trivia {newlines : Bool} {t : Trivia} (ht : Tails newlines t) {w : List Char}
    (hw : Calm w) : Calm (t ++ w) := by
  cases t with
  | nil => exact hw
  | cons c t => exact .of_opensTrivia (ht.head c rfl) _

theorem calm_closing (rest : List Char) : Calm (')' :: rest) where
  name c hc := by
    cases hc
    decide
  plus := nofun
  point := nofun

theorem Calm.of_ending (ending : ArgsEnd) {w : List Char} (hw : Calm w) :
    Calm (ending.chars ++ w) := by
  cases ending with
  | plain => exact hw
  | comma =>
    refine ⟨fun c hc => ?_, nofun, nofun⟩
    cases hc
    decide
  | expand =>
    refine ⟨fun c hc => ?_, nofun, fun tail heq => ?_⟩
    · cases hc
      decide
    · cases heq
      rfl

/-- **Where the argument of a call stands**, and how it is read. -/
theorem expr_of_call {function : Padded String} {arg : Padded Expr} {ending : ArgsEnd}
    {closing : Trivia} (h : expr .line cs = .ok (.call [function] [arg] ending closing, rest)) :
    ∃ n src behind, behind = arg.after ++ (ending.chars ++ (closing ++ ')' :: rest)) ∧
      function.before = [] ∧
      cs = function.item.toList ++ (function.after ++ '(' :: (arg.before ++ (src ++ behind))) ∧
      exprWithin n .inside (src ++ behind) = .ok (arg.item, behind) ∧ Calm behind := by
  have hcall : IsCall (.call [function] [arg] ending closing) := trivial
  obtain ⟨name, c₁, hname, h⟩ := callOf_call hcall h
  obtain ⟨after, c₂, hafter, h⟩ := bind_eq_ok h
  obtain ⟨path, c₃, hpath, h⟩ := bind_eq_ok h
  obtain ⟨u, c₄, hopen, h⟩ := bind_eq_ok h
  obtain ⟨args, c₅, hargs, h⟩ := bind_eq_ok h
  dsimp only at h
  split at h
  · next hempty =>
    obtain ⟨e, c₆, -, h⟩ := bind_eq_ok h
    obtain ⟨t, c₇, -, h⟩ := bind_eq_ok h
    obtain ⟨v, c₈, -, h⟩ := bind_eq_ok h
    cases (pure_eq_ok h).1
    cases hempty
  · obtain ⟨e, c₆, hending, h⟩ := bind_eq_ok h
    obtain ⟨t, c₇, hclosing, h⟩ := bind_eq_ok h
    obtain ⟨v, c₈, hclose, h⟩ := bind_eq_ok h
    obtain ⟨heq, rfl⟩ := pure_eq_ok h
    cases heq
    obtain ⟨inside, rfl, harg, htails⟩ := listItems_singleton hargs
    obtain ⟨src, rfl⟩ := (Consumes.exprWithin _ _).leaves harg
    obtain ⟨rfl, -⟩ := identifier_eq_ok hname
    obtain ⟨rfl, -⟩ := gap_eq_ok hafter
    obtain rfl := morePath_eq_nil hpath
    obtain rfl := char_eq_ok hopen
    obtain rfl := argsEnd_eq_ok hending
    obtain ⟨rfl, -, hends, -⟩ := white_eq_ok hclosing
    obtain rfl := char_eq_ok (commit_eq_ok hclose)
    exact ⟨_, src, _, rfl, rfl, rfl, harg,
      .of_trivia htails (.of_ending ending (.of_trivia hends (calm_closing rest)))⟩

end HclOverlay.Hcl.Reader
