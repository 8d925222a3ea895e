import HclOverlay.Proofs.Excerpts.Expressions

/-!
# Expressions on a line and in parentheses

The argument of a call may go on over line ends, an expression on its own may not. But one that is
read whole on its own has no line end between its tokens, except inside brackets, and then it is
read the same way where line ends are allowed.

* `Spreads` — what one reader reads, another one reads as well.
* `Adjoins` — what follows an expression stands on its line.
* `SpreadsTerm`, `spreads_term` — terms, behind which line ends may be allowed anyway.
* `Flexible`, `spreads_exprStep` — one level of an expression, from the readers inside it.
* `flexible_exprWithin`, `expr_inside_of_read?` — **expressions**, by induction on their depth.
-/

namespace HclOverlay.Hcl.Reader

variable {α β : Type} {cs mid rest z : List Char} {P Q : List Char → Prop}
variable {self : Mode → Reader Expr} {c : Bool}

/-! ## Readers that read more -/

/-- What `r` reads, `r'` reads as well, if `P` holds of what is left. -/
def Spreads (P : List Char → Prop) (r r' : Reader α) : Prop :=
  ∀ ⦃cs rest a⦄, r cs = .ok (a, rest) → P rest → r' cs = .ok (a, rest)

section Combinators

variable {r r' s s' : Reader α} {f f' : α → Reader β}

theorem Spreads.refl (r : Reader α) : Spreads P r r := fun _ _ _ h _ => h

theorem Spreads.bind (hr : Spreads Q r r') (hf : ∀ a, Spreads P (f a) (f' a))
    (hQ : ∀ {a mid b rest}, f a mid = .ok (b, rest) → P rest → Q mid) :
    Spreads P (r >>= f) (r' >>= f') := by
  intro cs rest b h hP
  obtain ⟨a, mid, h₁, h₂⟩ := bind_eq_ok h
  rw [bind_ok (hr h₁ (hQ h₂ hP))]
  exact hf a h₂ hP

theorem Spreads.andThen (r : Reader α) (hf : ∀ a, Spreads P (f a) (f' a)) :
    Spreads P (r >>= f) (r >>= f') :=
  Spreads.bind (Q := fun _ => True) (Spreads.refl r) hf fun _ _ => trivial

theorem Spreads.map (hr : Spreads P r r') (g : α → β) :
    Spreads P (do return g (← r)) (do return g (← r')) := by
  refine hr.bind (fun a => .refl _) fun h hP => ?_
  obtain ⟨-, rfl⟩ := pure_eq_ok h
  exact hP

theorem spreads_gap : Spreads (Ends true) (gap false) (gap true) := by
  intro cs rest t h hends
  obtain ⟨rfl, -, hskips⟩ := blank_eq_ok h
  exact hskips.to_true.gap hends

/-- Trivia in front of a token. -/
theorem Spreads.gapBefore {f f' : Trivia → Reader β} [ho : ∀ t, Opens (f t)]
    (hf : ∀ t, Spreads P (f t) (f' t)) : Spreads P (gap false >>= f) (gap true >>= f') := by
  refine spreads_gap.bind hf fun {t} mid _ _ h _ => ?_
  obtain ⟨c, tail, rfl, hc, -⟩ := (ho t).first h
  exact ends_of_startsToken hc true tail

end Combinators

/-! ## What follows on the line -/

/-- Nothing follows, or something firm on the same line. -/
def Adjoins (cs : List Char) : Prop := cs = [] ∨ ∃ t z, blank cs = .ok (t, z) ∧ Firm z

theorem Adjoins.gap_eq (h : Adjoins cs) :
    ∃ t z, gap false cs = .ok (t, z) ∧ gap true cs = .ok (t, z) ∧ (z = [] ∨ Firm z) := by
  rcases h with rfl | ⟨t, z, hblank, hz⟩
  · exact ⟨[], [], (ends_nil false).gap, (ends_nil true).gap, .inl rfl⟩
  · exact ⟨t, z, hblank, spreads_gap hblank (hz.ends true), .inr hz⟩

theorem Adjoins.of_gap {t : Trivia} (h : gap false cs = .ok (t, z)) (hz : Firm z) : Adjoins cs :=
  .inr ⟨t, z, h, hz⟩

section Follows

variable {starts : List Char → Bool} {r r' : Trivia → Reader β}

/-- Where something may follow an expression. -/
theorem Adjoins.of_behind {o : Option β}
    (hfirm : ∀ {t z b rest}, starts z = true → r t z = .ok (b, rest) → Firm z)
    (h : Reader.behind (gap false) starts r cs = .ok (o, rest)) (hrest : Adjoins rest) :
    Adjoins cs := by
  obtain ⟨t, z, hgap, ⟨b, -, hstarts, hread⟩ | ⟨-, -, rfl⟩⟩ := behind_eq_ok h
  · exact .of_gap hgap (hfirm hstarts hread)
  · exact hrest

theorem Spreads.follows (hr : ∀ t, Spreads Adjoins (r t) (r' t))
    (hfirm : ∀ {t z b rest}, starts z = true → r t z = .ok (b, rest) → Firm z) :
    Spreads Adjoins (Reader.behind (gap false) starts r) (Reader.behind (gap true) starts r') := by
  intro cs rest o h hrest
  obtain ⟨t, z, hgap, hgap', -⟩ := (Adjoins.of_behind hfirm h hrest).gap_eq
  obtain ⟨t', z', hread, ⟨b, rfl, hstarts, hb⟩ | ⟨rfl, hstarts, rfl⟩⟩ := behind_eq_ok h
  · cases hgap.symm.trans hread
    exact behind_ok hgap' hstarts (hr t hb hrest)
  · cases hgap.symm.trans hread
    exact behind_none hgap' hstarts

end Follows

/-! ## Terms -/

theorem spreads_morePath (n : Nat) :
    Spreads (fun rest => ∃ tail, rest = '(' :: tail) (morePath ⟨false, c⟩ n)
      (morePath ⟨true, c⟩ n) := by
  induction n with
  | zero => nofun
  | succ n ih =>
    rw [morePath_eq, morePath_eq]
    intro cs rest path h hrest
    rw [onHead] at h ⊢
    split at h
    · next hopen =>
      rw [if_pos hopen]
      exact h
    · next hopen =>
      rw [if_neg hopen]
      refine Spreads.andThen _ (fun _ => .gapBefore fun before => .andThen _ fun name =>
        spreads_gap.bind (fun after => ih.map _) ?_) h hrest
      intro after mid more rest h hrest
      obtain ⟨path, left, hpath, h⟩ := bind_eq_ok h
      obtain ⟨-, rfl⟩ := pure_eq_ok h
      rw [← List.append_nil mid, ← List.append_nil rest] at hpath
      exact morePath_ends hpath hrest true

theorem spreads_callOf (name : String) :
    Spreads (fun _ => True) (callOf self ⟨false, c⟩ name) (callOf self ⟨true, c⟩ name) := by
  refine spreads_gap.bind (fun after => Spreads.bind
    (fun cs rest path h hrest => spreads_morePath (cs.length + 1) h hrest) (fun path => .refl _)
    ?_) ?_
  · intro path mid e rest h _
    obtain ⟨u, left, hopen, -⟩ := bind_eq_ok h
    exact ⟨left, char_eq_ok hopen⟩
  · intro after mid e rest h _
    obtain ⟨path, left, hpath, h⟩ := bind_eq_ok h
    obtain ⟨u, last, hopen, -⟩ := bind_eq_ok h
    rw [bounded, ← List.append_nil mid, ← List.append_nil left] at hpath
    exact morePath_ends hpath ⟨last, char_eq_ok hopen⟩ true

/-- What `r` reads, `r'` reads as well, if what follows stands on the line of the term. Behind a term
that opens lines anything may follow. -/
def SpreadsTerm (r r' : Reader Expr) : Prop :=
  ∀ ⦃cs rest e⦄, r cs = .ok (e, rest) → (opensLines e = false → Adjoins rest) →
    r' cs = .ok (e, rest)

theorem opensLines_ofName (name : String) : opensLines (ofName name) = false := by
  unfold ofName
  split_ifs <;> rfl

theorem opensLines_applyUnary (op : UnaryOp) (space : Trivia) (operand : Expr) :
    opensLines (applyUnary op space operand) = opensLines operand := by
  cases operand <;> rfl

theorem spreads_nameOrCall [∀ m, Consumes (self m)] :
    SpreadsTerm (nameOrCall self ⟨false, c⟩) (nameOrCall self ⟨true, c⟩) := by
  intro cs rest e h hrest
  obtain ⟨name, mid, hid, h⟩ := bind_eq_ok h
  rw [nameOrCall, bind_ok hid]
  rcases orElse_eq_ok h with hcall | ⟨hno, hname⟩
  · exact orElse_ok (spreads_callOf name hcall trivial) _
  · obtain ⟨rfl, rfl⟩ := pure_eq_ok hname
    obtain ⟨t, z, hgap, hgap', hz⟩ := (hrest (opensLines_ofName name)).gap_eq
    have hcall : continuesCall z = false := by
      rcases hz with rfl | hz
      · rfl
      · exact (continuesCall_of_firm hz).resolve_right fun hopen => callOf_open hgap hopen hno
    rw [orElse_absent (callOf_absent hgap' hcall)]
    exact hname

section Terms

variable {operand operand' : Reader Expr}

theorem spreads_prefixed (op : UnaryOp) (h : SpreadsTerm operand operand') :
    SpreadsTerm (prefixed op operand) (prefixed op operand') := by
  intro cs rest e hread hrest
  obtain ⟨u, mid, hop, hread⟩ := bind_eq_ok hread
  obtain ⟨space, left, hblank, hread⟩ := bind_eq_ok hread
  obtain ⟨e, last, he, hread⟩ := bind_eq_ok hread
  obtain ⟨rfl, rfl⟩ := pure_eq_ok hread
  rw [opensLines_applyUnary] at hrest
  rw [prefixed, bind_ok hop, bind_ok hblank, bind_ok (h he hrest)]
  rfl

theorem spreads_termStep [∀ m, Consumes (self m)] (h : SpreadsTerm operand operand') :
    SpreadsTerm (termStep self operand ⟨false, c⟩) (termStep self operand' ⟨true, c⟩) := by
  intro cs rest e hread hrest
  cases cs with
  | nil => cases hread
  | cons d tail =>
    by_cases hmark : d ∈ termMarks
    · simp only [termMarks, List.mem_cons, List.not_mem_nil, or_false] at hmark
      rcases hmark with rfl | rfl | rfl | rfl | rfl | rfl | rfl
      -- inside quotes and brackets the mode does not matter
      · exact hread
      · exact hread
      · exact hread
      · exact hread
      · exact hread
      · rcases orElse_eq_ok hread with hread | ⟨hno, hread⟩
        · exact orElse_ok hread _
        · exact (orElse_absent hno _).trans (spreads_prefixed .negate h hread hrest)
      · exact spreads_prefixed .not h hread hrest
    · rw [termStep_other hmark] at hread ⊢
      split at hread
      · next hdigit =>
        rw [if_pos hdigit]
        exact hread
      · next hdigit =>
        rw [if_neg hdigit]
        split at hread
        · next hstart =>
          rw [if_pos hstart]
          exact spreads_nameOrCall hread hrest
        · cases hread

end Terms

theorem spreads_term [∀ m, Consumes (self m)] :
    SpreadsTerm (term self ⟨false, c⟩) (term self ⟨true, c⟩) := by
  have hwithin : ∀ n, SpreadsTerm (termWithin self ⟨false, c⟩ n)
      (termWithin self ⟨true, c⟩ n) := by
    intro n
    induction n with
    | zero => nofun
    | succ n ih => exact spreads_termStep ih
  exact fun cs rest e h hrest => hwithin (cs.length + 1) h hrest

/-! ## Steps, operators and branches -/

section Rest

variable [hc : ∀ m, Consumes (self m)]

theorem firm_of_wholeStep {space : Trivia} {found : Trivia × Step}
    (h : ((space, ·) <$> step self) z = .ok (found, rest)) : Firm z := by
  rw [← List.append_nil z, ← List.append_nil rest] at h
  exact firm_of_step h

theorem spreads_nextStep :
    Spreads Adjoins (nextStep self ⟨false, c⟩) (nextStep self ⟨true, c⟩) :=
  .follows (fun _ => .refl _) fun _ h => firm_of_wholeStep h

theorem Adjoins.of_steps {n : Nat} {found : List (Trivia × Step)}
    (h : steps self ⟨false, c⟩ n cs = .ok (found, rest)) (hrest : Adjoins rest) : Adjoins cs := by
  induction n generalizing cs found with
  | zero => cases h
  | succ n ih =>
    rw [steps_eq] at h
    obtain ⟨o, mid, hnext, h⟩ := bind_eq_ok h
    refine .of_behind (fun _ h => firm_of_wholeStep h) hnext ?_
    cases o with
    | none => rwa [← (pure_eq_ok h).2]
    | some first =>
      obtain ⟨more, left, hmore, h⟩ := bind_eq_ok h
      obtain ⟨-, rfl⟩ := pure_eq_ok h
      exact ih hmore

/-- The induction is on the bound on the number of steps. -/
theorem spreads_steps (n : Nat) :
    Spreads Adjoins (steps self ⟨false, c⟩ n) (steps self ⟨true, c⟩ n) := by
  induction n with
  | zero => nofun
  | succ n ih =>
    rw [steps_eq, steps_eq]
    refine spreads_nextStep.bind (fun o => ?_) fun {o} mid found rest h hrest => ?_
    · cases o with
      | none => exact .refl _
      | some first => exact ih.map _
    · cases o with
      | none => rwa [← (pure_eq_ok h).2]
      | some first =>
        obtain ⟨more, left, hmore, h⟩ := bind_eq_ok h
        obtain ⟨-, rfl⟩ := pure_eq_ok h
        exact .of_steps hmore hrest

theorem spreads_stepsAfter (subject : Expr) :
    Spreads Adjoins (stepsAfter self ⟨false, c⟩ subject) (stepsAfter self ⟨true, c⟩ subject) := by
  rw [stepsAfter_eq, stepsAfter_eq]
  exact .map (fun cs _ _ h hrest => spreads_steps (cs.length + 1) h hrest) _

theorem Adjoins.of_stepsAfter {subject left : Expr}
    (h : stepsAfter self ⟨false, c⟩ subject cs = .ok (left, rest)) (hrest : Adjoins rest) :
    Adjoins cs := by
  rw [stepsAfter_eq] at h
  obtain ⟨found, mid, hsteps, h⟩ := bind_eq_ok h
  obtain ⟨-, rfl⟩ := pure_eq_ok h
  exact .of_steps hsteps hrest

end Rest

/-- What the readers of smaller expressions must satisfy: they read at the end of the text as in
front of more, and over line ends as on a line. -/
structure Flexible (nested : Mode → Reader Expr) : Prop where
  readable (m : Mode) : Readable [] 0 (nested m) (nested m)
  spreads (c : Bool) : Spreads Adjoins (nested ⟨false, c⟩) (nested ⟨true, c⟩)

section Rest

variable (hself : Flexible self) {left test e : Expr} {before : Trivia}
include hself

theorem spreads_operation (left : Expr) (before : Trivia) : Spreads Adjoins
    (operation self ⟨false, c⟩ left before) (operation self ⟨true, c⟩ left before) := by
  have ho := fun m => (hself.readable m).opens
  exact .andThen _ fun op => .gapBefore fun after => (hself.spreads false).map _

theorem firm_of_wholeOperation (hstarts : startsOperator z = true)
    (h : operation self ⟨false, c⟩ left before z = .ok (e, rest)) : Firm z := by
  rw [← List.append_nil z] at hstarts h
  rw [← List.append_nil rest] at h
  exact firm_of_operation hself.readable hstarts h

theorem spreads_binaryAfter (left : Expr) :
    Spreads Adjoins (binaryAfter self ⟨false, c⟩ left) (binaryAfter self ⟨true, c⟩ left) := by
  rw [binaryAfter_eq, binaryAfter_eq]
  exact .map (.follows (spreads_operation hself left)
    fun hstarts h => firm_of_wholeOperation hself hstarts h) _

theorem Adjoins.of_binaryAfter (h : binaryAfter self ⟨false, c⟩ left cs = .ok (e, rest))
    (hrest : Adjoins rest) : Adjoins cs := by
  rw [binaryAfter_eq] at h
  obtain ⟨o, mid, hbehind, h⟩ := bind_eq_ok h
  obtain ⟨-, rfl⟩ := pure_eq_ok h
  exact .of_behind (fun hstarts h => firm_of_wholeOperation hself hstarts h) hbehind hrest

theorem spreads_branches (test : Expr) (before : Trivia) : Spreads Adjoins
    (branches self ⟨false, c⟩ test before) (branches self ⟨true, c⟩ test before) := by
  have hc := fun m => (hself.readable m).consumes
  have ho := fun m => (hself.readable m).opens
  refine .andThen _ fun _ => .gapBefore fun beforeYes => .bind (hself.spreads _)
    (fun yes => spreads_gap.bind (fun afterYes => .andThen _ fun _ =>
      .gapBefore fun afterColon => (hself.spreads _).map _) ?_) ?_
  · intro afterYes mid e rest h _
    obtain ⟨u, left, hcolon, -⟩ := bind_eq_ok h
    rw [char_eq_ok (commit_eq_ok hcolon)]
    exact ends_of_startsToken rfl _ left
  · intro yes mid e rest h _
    obtain ⟨afterYes, left, hgap, h⟩ := bind_eq_ok h
    obtain ⟨u, tail, hcolon, h⟩ := bind_eq_ok h
    rw [char_eq_ok (commit_eq_ok hcolon)] at hgap
    rw [← List.append_nil tail, ← List.append_nil rest] at h
    exact .of_gap hgap ((hself.readable _).after_colon _ h)

theorem firm_of_wholeBranches (h : branches self ⟨false, c⟩ test before z = .ok (e, rest)) :
    Firm z := by
  rw [← List.append_nil z, ← List.append_nil rest] at h
  exact firm_of_branches hself.readable h

theorem spreads_conditionalAfter (test : Expr) : Spreads Adjoins
    (conditionalAfter self ⟨false, c⟩ test) (conditionalAfter self ⟨true, c⟩ test) := by
  rw [conditionalAfter_eq, conditionalAfter_eq]
  exact .map (.follows (spreads_branches hself test)
    fun _ h => firm_of_wholeBranches hself h) _

theorem Adjoins.of_conditionalAfter (h : conditionalAfter self ⟨false, c⟩ test cs = .ok (e, rest))
    (hrest : Adjoins rest) : Adjoins cs := by
  rw [conditionalAfter_eq] at h
  obtain ⟨o, mid, hbehind, h⟩ := bind_eq_ok h
  obtain ⟨-, rfl⟩ := pure_eq_ok h
  exact .of_behind (fun _ h => firm_of_wholeBranches hself h) hbehind hrest

/-! ## Expressions -/

theorem spreads_exprRest (left : Expr) :
    Spreads Adjoins (exprRest self ⟨false, c⟩ left) (exprRest self ⟨true, c⟩ left) := by
  cases c with
  | true =>
    exact (spreads_binaryAfter hself left).bind (fun whole => spreads_conditionalAfter hself whole)
      fun h hrest => .of_conditionalAfter hself h hrest
  | false =>
    refine (spreads_binaryAfter hself left).bind (fun whole => .refl _) fun h hrest => ?_
    rwa [← (pure_eq_ok h).2]

theorem Adjoins.of_exprRest (h : exprRest self ⟨false, c⟩ left cs = .ok (e, rest))
    (hrest : Adjoins rest) : Adjoins cs := by
  obtain ⟨whole, mid, hbinary, h⟩ := bind_eq_ok h
  refine .of_binaryAfter hself hbinary ?_
  split at h
  · exact .of_conditionalAfter hself h hrest
  · rwa [← (pure_eq_ok h).2]

theorem spreads_exprStep :
    Spreads Adjoins (exprStep self ⟨false, c⟩) (exprStep self ⟨true, c⟩) := by
  have hc := fun m => (hself.readable m).consumes
  rw [exprStep_eq, exprStep_eq]
  intro cs rest e h hrest
  obtain ⟨subject, mid, hterm, h⟩ := bind_eq_ok h
  cases hopens : opensLines subject with
  | true =>
    rw [bind_ok (spreads_term hterm fun hno => absurd (hopens.symm.trans hno) nofun)]
    rw [Mode.behind, hopens] at h ⊢
    exact h
  | false =>
    rw [Mode.behind, hopens] at h
    obtain ⟨left, last, hsteps, hmore⟩ := bind_eq_ok h
    have hlast := Adjoins.of_exprRest hself hmore hrest
    rw [bind_ok (spreads_term hterm fun _ => .of_stepsAfter hsteps hlast), Mode.behind, hopens]
    exact (bind_ok (spreads_stepsAfter subject hsteps hlast) _).trans
      (spreads_exprRest hself left hmore hrest)

end Rest

/-- **What an expression is on a line, it is over line ends.** The induction is on the depth. -/
theorem flexible_exprWithin (n : Nat) : Flexible (exprWithin n) := by
  have hreadable := fun n m => (readable_exprWithin .nil n n m).le (Nat.zero_le n)
  refine ⟨hreadable n, fun c => ?_⟩
  induction n generalizing c with
  | zero => nofun
  | succ n ih => exact spreads_exprStep ⟨hreadable n, ih⟩

/-- The expression that a text is, is read in parentheses too. -/
theorem expr_inside_of_read? {e : Expr} (h : Expr.read? cs = some e) :
    Reader.expr .inside cs = .ok (e, []) :=
  (flexible_exprWithin _).spreads true (all?_eq_some.1 h) (.inl rfl)

end HclOverlay.Hcl.Reader
