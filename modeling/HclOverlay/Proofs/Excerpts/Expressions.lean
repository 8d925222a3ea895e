import HclOverlay.Proofs.Excerpts.Terms

/-!
# Expressions in excerpts

Steps, an operator and branches may follow a term. What looks ahead for one of them sees the same in
the excerpt, because what follows is read within it or, where nothing follows, the expression ends.

* `Takes.suffix_tail` — what takes a character leaves an end of what is behind it.
* `Settled.of_behind`, `Alone.follows` — what may follow an expression.
* `alone_step`, `alone_steps` — **steps**, by induction on the bound on their number.
* `alone_binaryAfter`, `alone_conditionalAfter` — operators and branches.
* `readable_exprWithin` — **expressions**, by induction on their depth.
-/

namespace HclOverlay.Hcl.Reader

open Number Decimal

variable {α β : Type} {y cs mid rest z : List Char} {k : Nat} {newlines : Bool}
variable {expr expr' : Reader Expr} {self self' : Mode → Reader Expr} {m : Mode}

/-! ## Positions -/

theorem Takes.suffix_tail {r : Reader α} [hr : Takes r] [hc : Consumes r] {c : Char} {a : α}
    (h : r (c :: cs) = .ok (a, rest)) : rest <:+ cs := by
  rcases List.suffix_cons_iff.1 (hc.leaves h) with rfl | hsuffix
  · exact absurd (hr.shorter h) (lt_irrefl _)
  · exact hsuffix

/-- A position that does not start with a zero is a row of digits. -/
theorem positionNumber_eq_ok {c : Char} {n : Nat} (hc : c ≠ '0') :
    positionNumber (c :: cs) = .ok (n, rest) ↔
      ∃ d ds, spanDigits (c :: cs) = (d :: ds, rest) ∧ digitsValue (d :: ds) < unsignedLimit ∧
        n = digitsValue (d :: ds) := by
  constructor
  · intro h
    have h := ofOption_eq_ok h
    split at h
    · next heq => exact absurd (List.cons.inj heq).1 hc
    · rcases hspan : spanDigits (c :: cs) with ⟨_ | ⟨d, ds⟩, more⟩ <;> rw [hspan] at h
      · cases h
      · dsimp only at h
        split at h
        · next hlimit =>
          cases h
          exact ⟨d, ds, rfl, hlimit, rfl⟩
        · cases h
  · rintro ⟨d, ds, hspan, hlimit, rfl⟩
    simp [positionNumber, ofOption, hspan, hlimit, hc]

instance : Opens positionNumber where
  first {cs rest n} h := by
    cases cs with
    | nil => cases h
    | cons c tail =>
      refine ⟨c, tail, rfl, startsToken_of_isDigit ?_, Takes.suffix_tail h⟩
      by_cases hc : c = '0'
      · rw [hc]
        rfl
      · obtain ⟨d, ds, hspan, -⟩ := (positionNumber_eq_ok hc).1 h
        by_contra hdigit
        rw [spanDigits, List.span_eq_takeWhile_dropWhile,
          List.takeWhile_cons_of_neg hdigit] at hspan
        cases hspan

theorem alone_positionNumber (hy : Calm y) : Alone y k Anywhere positionNumber positionNumber := by
  intro cs rest n _ _ h _
  obtain ⟨c, tail, rfl⟩ := List.exists_cons_of_ne_nil (Takes.ne_nil h)
  by_cases hc : c = '0'
  · subst hc
    obtain ⟨rfl, hrest⟩ := Prod.mk.inj (Except.ok.inj h)
    rw [← List.append_cancel_right hrest]
    rfl
  · obtain ⟨d, ds, hspan, hlimit, rfl⟩ := (positionNumber_eq_ok hc).1 h
    obtain ⟨hds, hrest⟩ := Prod.mk.inj ((spanDigits_calm hy (c :: tail)).symm.trans hspan)
    exact (positionNumber_eq_ok hc).2
      ⟨d, ds, Prod.ext hds (List.append_cancel_right hrest), hlimit, rfl⟩

/-! ## Steps -/

/-- Reads what follows the point of a step, as the next character decides. -/
def pointBody (space : Trivia) : Option Char → Reader Step
  | none => absent
  | some '*' => do char '*'; return .attrSplat space
  | some c => do
    if c.isDigit then return .position space (← positionNumber)
    else return .attr space (← commit identifier)

theorem pointStep_eq : pointStep = (do let space ← white; onHead (pointBody space)) := rfl

instance (space : Trivia) (next : Option Char) : Consumes (pointBody space next) := by
  unfold pointBody
  split <;> infer_instance

instance (space : Trivia) (next : Option Char) : Opens (pointBody space next) := by
  have hstar : Opens (char '*') := .char rfl
  unfold pointBody
  split <;> infer_instance

theorem alone_pointBody (hy : Calm y) (space : Trivia) (next : Option Char) :
    Alone y k Anywhere (pointBody space next) (pointBody space next) := by
  unfold pointBody
  split
  · exact .absent
  · exact .andThen (alone_char '*') fun _ => .pure _
  · exact .ite _ ((alone_positionNumber hy).map _) (alone_identifier.commit.map _)

theorem alone_pointStep (hy : Calm y) : Alone y k Anywhere pointStep pointStep := by
  rw [pointStep_eq]
  exact .whiteBefore fun space => .onHead (alone_pointBody hy space) fun h _ => Takes.ne_nil h

theorem alone_bracketStep (hexpr : Readable y k expr expr') :
    Alone y k Anywhere (bracketStep expr) (bracketStep expr') := by
  have hc := hexpr.consumes
  have ho := hexpr.opens
  refine .bind alone_white (fun before => .andThen (alone_flag '*') fun star => .ite _
    (.whiteBefore fun after => .andThen (alone_char ']').commit fun _ => .pure _)
    (hexpr.alone.bind (fun index => .whiteBefore fun after =>
      .andThen (alone_char ']').commit fun _ => .pure _) ?_)) ?_
  · intro index mid found rest _ h _
    obtain ⟨after, left, hwhite, -, h⟩ := bind_excerpt h
    exact .of_white hwhite (closing_of_commit (.inl rfl) h).firm
  · intro before mid found rest _ h _
    obtain ⟨star, c₁, hstar, h⟩ := bind_eq_ok h
    rcases flag_eq_ok hstar with ⟨rfl, hmid⟩ | ⟨rfl, rfl, -⟩
    · obtain ⟨left, rfl, -⟩ := suffix_between (hmid ▸ List.suffix_cons '*' c₁) (Consumes.leaves h)
      rw [excerpt_eq ['*'] hmid]
      exact ends_of_startsToken rfl true left
    · rw [if_neg Bool.false_ne_true] at h
      exact Opens.ends _ h true

/-- A step starts with a point or a bracket, and more of it follows. -/
theorem step_front [∀ m, Consumes (self m)] {found : Step}
    (h : step self (z ++ y) = .ok (found, rest ++ y)) :
    ∃ c d tail, z = c :: d :: tail ∧ (c = '.' ∨ c = '[') := by
  obtain ⟨c, tail, rfl⟩ := List.exists_cons_of_ne_nil (Takes.ne_nil h)
  unfold step at h
  split at h
  · next heq =>
    cases heq
    obtain ⟨d, tail, rfl⟩ := List.exists_cons_of_ne_nil (Takes.ne_nil h)
    exact ⟨_, d, tail, rfl, .inl rfl⟩
  · next heq =>
    cases heq
    obtain ⟨d, tail, rfl⟩ := List.exists_cons_of_ne_nil (Takes.ne_nil h)
    exact ⟨_, d, tail, rfl, .inr rfl⟩
  · cases h

theorem alone_step (hy : Calm y) (hself : ∀ m, Readable y k (self m) (self' m)) :
    Alone y (k + 1) Anywhere (step self) (step self') := by
  have hc := fun m => (hself m).consumes
  intro cs rest found hlen hfilled h _
  obtain ⟨c, tail, rfl⟩ := List.exists_cons_of_ne_nil (Takes.ne_nil h)
  have hfilled' := hfilled.suffix (List.suffix_cons c tail)
  have hlen' : tail.length < k := by simpa using hlen
  unfold step at h
  split at h
  · next heq =>
    cases heq
    exact alone_pointStep hy hlen' hfilled' h trivial
  · next heq =>
    cases heq
    exact alone_bracketStep (hself .inside) hlen' hfilled' h trivial
  · cases h

/-! ## What may follow -/

section Follows

variable {starts : List Char → Bool} {r r' : Trivia → Reader β}

/-- Where something may follow an expression, the expression ends if it ends behind that, and if what
is read there starts with something firm. -/
theorem Settled.of_behind [∀ t, Consumes (r t)] {o : Option β}
    (hfirm : ∀ {t z b rest}, starts (z ++ y) = true → r t (z ++ y) = .ok (b, rest ++ y) → Firm z)
    (h : Reader.behind (gap newlines) starts r (cs ++ y) = .ok (o, rest ++ y))
    (hrest : Settled y rest) : Settled y cs := by
  obtain ⟨t, mid, hgap, ⟨b, -, hstarts, hread⟩ | ⟨-, -, hcs⟩⟩ := behind_eq_ok h
  · obtain ⟨z, rfl, -⟩ := suffix_between (Consumes.leaves hgap) (Consumes.leaves hread)
    exact .of_gap hgap (hfirm hstarts hread)
  · rwa [← List.append_cancel_right hcs]

theorem Alone.follows [∀ t, Takes (r t)] [∀ t, Consumes (r t)] (hstarts : Looks starts)
    (hr : ∀ t, Alone y k (Settled y) (r t) (r' t))
    (hfirm : ∀ {t z b rest}, starts (z ++ y) = true → r t (z ++ y) = .ok (b, rest ++ y) → Firm z) :
    Alone y k (Settled y) (Reader.behind (gap newlines) starts r)
      (Reader.behind (gap newlines) starts r') :=
  .behind hstarts hr fun h hrest => .of_behind hfirm h hrest

end Follows

/-- Reads a step behind trivia, if there is one. -/
def nextStep (self : Mode → Reader Expr) (m : Mode) : Reader (Option (Trivia × Step)) :=
  behind (gap m.newlines) startsStep fun space => (space, ·) <$> step self

/-- Reads the steps behind what was found first. -/
def stepsFrom (self : Mode → Reader Expr) (m : Mode) (n : Nat) :
    Option (Trivia × Step) → Reader (List (Trivia × Step))
  | some first => do return first :: (← steps self m n)
  | none => pure []

theorem steps_eq (n : Nat) :
    steps self m (n + 1) = (do let first ← nextStep self m; stepsFrom self m n first) := by
  rw [steps]
  refine congrArg _ (funext fun o => ?_)
  cases o <;> rfl

instance [∀ m, Consumes (self m)] : Consumes (nextStep self m) := by
  unfold nextStep
  infer_instance

instance [∀ m, Consumes (self m)] (n : Nat) (o : Option (Trivia × Step)) :
    Consumes (stepsFrom self m n o) := by
  cases o <;> (unfold stepsFrom; infer_instance)

theorem firm_of_step [∀ m, Consumes (self m)] {space : Trivia} {found : Trivia × Step}
    (h : ((space, ·) <$> step self) (z ++ y) = .ok (found, rest ++ y)) : Firm z := by
  obtain ⟨s, mid, hstep, h⟩ := bind_eq_ok h
  obtain ⟨-, rfl⟩ := pure_eq_ok h
  obtain ⟨c, d, tail, rfl, rfl | rfl⟩ := step_front hstep <;> exact firm_token rfl nofun

theorem alone_nextStep (hy : Calm y) (hself : ∀ m, Readable y k (self m) (self' m)) :
    Alone y (k + 1) (Settled y) (nextStep self m) (nextStep self' m) := by
  have hc := fun m => (hself m).consumes
  exact .follows looks_startsStep
    (fun space => ((alone_step hy hself).weaken fun _ _ => trivial).map _)
    fun _ h => firm_of_step h

theorem nextStep_shorter [∀ m, Consumes (self m)] {first : Trivia × Step}
    (h : nextStep self m cs = .ok (some first, rest)) : rest.length < cs.length := by
  obtain ⟨t, mid, hgap, ⟨b, -, -, hstep⟩ | ⟨hnone, -⟩⟩ := behind_eq_ok h
  · exact lt_of_lt_of_le (Takes.shorter hstep) (Consumes.leaves hgap).length_le
  · cases hnone

/-- An expression ends in front of its steps if it ends behind them. -/
theorem Settled.of_steps [∀ m, Consumes (self m)] {n : Nat} {found : List (Trivia × Step)}
    (h : steps self m n (cs ++ y) = .ok (found, rest ++ y)) (hrest : Settled y rest) :
    Settled y cs := by
  induction n generalizing cs found with
  | zero => cases h
  | succ n ih =>
    rw [steps_eq] at h
    obtain ⟨o, mid, hnext, -, h⟩ := bind_excerpt h
    refine .of_behind (fun _ h => firm_of_step h) hnext ?_
    cases o with
    | none =>
      obtain ⟨-, hmid⟩ := pure_eq_ok h
      rwa [← List.append_cancel_right hmid]
    | some first =>
      obtain ⟨more, c₁, hmore, h⟩ := bind_eq_ok h
      obtain ⟨-, rfl⟩ := pure_eq_ok h
      exact ih hmore

/-- Steps are read alone. The induction is on the bound on their number. -/
theorem alone_steps (hy : Calm y) (hself : ∀ m, Readable y k (self m) (self' m)) {n n' : Nat}
    (hn : n' ≤ k + 1) : Alone y n' (Settled y) (steps self m n) (steps self' m n') := by
  have hc := fun m => (hself m).consumes
  induction n generalizing n' with
  | zero => nofun
  | succ n ih =>
    intro cs rest found hlen hfilled h hrest
    obtain ⟨n', rfl⟩ := Nat.exists_eq_add_of_le' (show 1 ≤ n' by omega)
    rw [steps_eq] at h ⊢
    obtain ⟨o, mid, hnext, hmid, h⟩ := bind_excerpt h
    have halone := alone_nextStep (m := m) hy hself (by omega) hfilled hnext
    cases o with
    | none =>
      obtain ⟨rfl, hcs⟩ := pure_eq_ok h
      obtain rfl := List.append_cancel_right hcs
      rw [bind_ok (halone hrest)]
      rfl
    | some first =>
      obtain ⟨more, c₁, hmore, h⟩ := bind_eq_ok h
      obtain ⟨rfl, rfl⟩ := pure_eq_ok h
      have hshorter := nextStep_shorter hnext
      simp only [List.length_append] at hshorter
      rw [bind_ok (halone (.of_steps hmore hrest))]
      exact bind_ok (ih (by omega) (by omega) (hfilled.suffix hmid) hmore hrest) _

/-- A value and the steps into it. -/
def accessOf (subject : Expr) : List (Trivia × Step) → Expr
  | (space, first) :: rest => .access subject space (first :: rest.map (·.2))
  | [] => subject

theorem stepsAfter_eq (subject : Expr) : stepsAfter self m subject =
    (do return accessOf subject (← bounded (steps self m))) := by
  rw [stepsAfter]
  refine congrArg _ (funext fun found => ?_)
  cases found <;> rfl

theorem alone_stepsAfter (hy : Calm y) (hself : ∀ m, Readable y k (self m) (self' m))
    (subject : Expr) :
    Alone y (k + 1) (Settled y) (stepsAfter self m subject) (stepsAfter self' m subject) := by
  have hc := fun m => (hself m).consumes
  rw [stepsAfter_eq, stepsAfter_eq]
  exact Alone.map (.bounded fun n n' hn => alone_steps hy hself hn) _

/-! ## Operators -/

instance : Takes binaryOp where
  shorter h := by
    unfold binaryOp at h
    split at h <;> cases h
    all_goals simp only [List.length_cons]; omega

theorem alone_binaryOp : Alone y k Anywhere binaryOp binaryOp := by
  intro cs rest op _ _ h _
  unfold binaryOp at h
  split at h
  case h_4 hnot heq =>
    cases h
    obtain rfl := excerpt_eq ['<'] heq
    exact binaryOp.eq_4 rest fun r hr => hnot (r ++ y) (by rw [hr]; rfl)
  case h_6 hnot heq =>
    cases h
    obtain rfl := excerpt_eq ['>'] heq
    exact binaryOp.eq_6 rest fun r hr => hnot (r ++ y) (by rw [hr]; rfl)
  case h_14 => cases h
  all_goals
    next heq =>
      cases h
      first
        | exact congrArg binaryOp (excerpt_eq [_, _] heq)
        | exact congrArg binaryOp (excerpt_eq [_] heq)

/-- Reads an operator and its right operand. -/
def operation (self : Mode → Reader Expr) (m : Mode) (left : Expr) (before : Trivia) :
    Reader Expr := do
  let op ← binaryOp
  let after ← gap m.newlines
  let right ← self ⟨m.newlines, false⟩
  return .binary left ⟨before, op, after⟩ right

theorem binaryAfter_eq (left : Expr) : binaryAfter self m left = (do
    return (← behind (gap m.newlines) startsOperator (operation self m left)).getD left) := rfl

instance [∀ m, Consumes (self m)] (left : Expr) (before : Trivia) :
    Consumes (operation self m left before) := by
  unfold operation
  infer_instance

instance [∀ m, Consumes (self m)] (left : Expr) (before : Trivia) :
    Takes (operation self m left before) := by
  unfold operation
  infer_instance

theorem alone_operation (hself : ∀ m, Readable y k (self m) (self' m)) (left : Expr)
    (before : Trivia) :
    Alone y (k + 1) (Settled y) (operation self m left before) (operation self' m left before) := by
  have hc := fun m => (hself m).consumes
  have ho := fun m => (hself m).opens
  exact .bindTakes alone_binaryOp (fun op => .gapBefore fun after => (hself _).alone.map _)
    fun _ _ _ => trivial

/-- Where an operator starts and goes on, the text is firm. -/
theorem firm_of_startsOperator {c d : Char} {tail : List Char}
    (h : startsOperator (c :: d :: tail) = true) : Firm (c :: d :: tail) := by
  rw [startsOperator_pair] at h
  split at h
  · next hc => exact firm_token (hc ▸ rfl) fun hcolon => by rw [hc] at hcolon; cases hcolon
  · split at h
    · next hc =>
      simp only [Bool.and_eq_true, bne_iff_ne, ne_eq] at h
      exact hc ▸ firm_slash h.1 h.2
    · simp only [List.contains_cons, List.contains_nil, Bool.or_false, Bool.or_eq_true,
        beq_iff_eq] at h
      rcases h with rfl | rfl | rfl | rfl | rfl | rfl | rfl | rfl | rfl <;>
        exact firm_token rfl nofun

theorem firm_of_operation (hself : ∀ m, Readable y k (self m) (self' m)) {left e : Expr}
    {before : Trivia} (hstarts : startsOperator (z ++ y) = true)
    (h : operation self m left before (z ++ y) = .ok (e, rest ++ y)) : Firm z := by
  have hc := fun m => (hself m).consumes
  have ho := fun m => (hself m).opens
  obtain ⟨op, mid, hop, hmid, h⟩ := bind_excerpt h
  have hne : mid ≠ [] := by
    obtain ⟨after, left, hgap, -, h⟩ := bind_excerpt h
    exact Consumes.ne_nil hgap (Takes.ne_nil h)
  obtain ⟨c, tail, rfl⟩ := List.exists_cons_of_ne_nil (Takes.ne_nil hop)
  obtain ⟨d, tail, rfl⟩ : ∃ d left, tail = d :: left := by
    refine List.exists_cons_of_ne_nil ?_
    rintro rfl
    have hshorter := Takes.shorter hop
    have hlen := List.length_pos_iff.2 hne
    simp only [List.length_append, List.length_cons, List.length_nil] at hshorter
    omega
  have hpair : startsOperator (c :: d :: tail) = true := by
    rw [List.cons_append, List.cons_append, startsOperator_pair] at hstarts
    rwa [startsOperator_pair]
  exact firm_of_startsOperator hpair

theorem alone_binaryAfter (hself : ∀ m, Readable y k (self m) (self' m)) (left : Expr) :
    Alone y (k + 1) (Settled y) (binaryAfter self m left) (binaryAfter self' m left) := by
  have hc := fun m => (hself m).consumes
  rw [binaryAfter_eq, binaryAfter_eq]
  exact Alone.map (.follows looks_startsOperator (alone_operation hself left)
    fun hstarts h => firm_of_operation hself hstarts h) _

theorem Settled.of_binaryAfter (hself : ∀ m, Readable y k (self m) (self' m)) {left e : Expr}
    (h : binaryAfter self m left (cs ++ y) = .ok (e, rest ++ y)) (hrest : Settled y rest) :
    Settled y cs := by
  have hc := fun m => (hself m).consumes
  rw [binaryAfter_eq] at h
  obtain ⟨o, c₁, hbehind, h⟩ := bind_eq_ok h
  obtain ⟨-, rfl⟩ := pure_eq_ok h
  exact .of_behind (fun hstarts h => firm_of_operation hself hstarts h) hbehind hrest

/-! ## Branches -/

/-- Reads the branches of a conditional. -/
def branches (self : Mode → Reader Expr) (m : Mode) (test : Expr) (beforeMark : Trivia) :
    Reader Expr := do
  char '?'
  let beforeYes ← gap m.newlines
  let yes ← self ⟨m.newlines, !isBinary test⟩
  let afterYes ← gap m.newlines
  commit (char ':')
  let afterColon ← gap m.newlines
  let no ← self ⟨m.newlines, !isBinary test⟩
  return .conditional test beforeMark ⟨beforeYes, yes, afterYes⟩ afterColon no

theorem conditionalAfter_eq (test : Expr) : conditionalAfter self m test = (do
    return (← behind (gap m.newlines) (·.head? == some '?') (branches self m test)).getD test) :=
  rfl

instance [∀ m, Consumes (self m)] (test : Expr) (before : Trivia) :
    Consumes (branches self m test before) := by
  unfold branches
  infer_instance

instance [∀ m, Consumes (self m)] (test : Expr) (before : Trivia) :
    Takes (branches self m test before) := by
  unfold branches
  infer_instance

theorem alone_branches (hself : ∀ m, Readable y k (self m) (self' m)) (test : Expr)
    (before : Trivia) :
    Alone y (k + 1) (Settled y) (branches self m test before) (branches self' m test before) := by
  have hc := fun m => (hself m).consumes
  have ho := fun m => (hself m).opens
  refine .bindTakes (alone_char '?') (fun _ => .gapBefore fun beforeYes => .bind (hself _).alone
    (fun yes => .bind (alone_gap _) (fun afterYes => .andThen (alone_char ':').commit fun _ =>
      .gapBefore fun afterColon => (hself _).alone.map _) ?_) ?_) fun _ _ _ => trivial
  · intro afterYes mid e rest _ h _
    obtain ⟨tail, rfl, -⟩ := commit_char_excerpt h
    exact ends_of_startsToken rfl _ tail
  · intro yes mid e rest _ h _
    obtain ⟨afterYes, left, hgap, -, h⟩ := bind_excerpt h
    obtain ⟨tail, rfl, h⟩ := commit_char_excerpt h
    exact .of_gap hgap ((hself _).after_colon _ h)

theorem firm_of_branches (hself : ∀ m, Readable y k (self m) (self' m)) {test e : Expr}
    {before : Trivia} (h : branches self m test before (z ++ y) = .ok (e, rest ++ y)) : Firm z := by
  have hc := fun m => (hself m).consumes
  have ho := fun m => (hself m).opens
  obtain ⟨tail, rfl, hmore⟩ := char_excerpt h
  have hne : tail ≠ [] := by
    obtain ⟨beforeYes, left, hgap, -, hyes⟩ := bind_excerpt hmore
    exact Consumes.ne_nil hgap (Takes.ne_nil hyes)
  obtain ⟨d, tail, rfl⟩ := List.exists_cons_of_ne_nil hne
  exact firm_token rfl nofun

theorem alone_conditionalAfter (hself : ∀ m, Readable y k (self m) (self' m)) (test : Expr) :
    Alone y (k + 1) (Settled y) (conditionalAfter self m test) (conditionalAfter self' m test) := by
  have hc := fun m => (hself m).consumes
  rw [conditionalAfter_eq, conditionalAfter_eq]
  exact Alone.map (.follows looks_mark (alone_branches hself test)
    fun _ h => firm_of_branches hself h) _

theorem Settled.of_conditionalAfter (hself : ∀ m, Readable y k (self m) (self' m)) {test e : Expr}
    (h : conditionalAfter self m test (cs ++ y) = .ok (e, rest ++ y)) (hrest : Settled y rest) :
    Settled y cs := by
  have hc := fun m => (hself m).consumes
  rw [conditionalAfter_eq] at h
  obtain ⟨o, c₁, hbehind, h⟩ := bind_eq_ok h
  obtain ⟨-, rfl⟩ := pure_eq_ok h
  exact .of_behind (fun _ h => firm_of_branches hself h) hbehind hrest

/-! ## Expressions -/

/-- What follows a term and the steps into it. -/
def exprRest (self : Mode → Reader Expr) (m : Mode) (left : Expr) : Reader Expr := do
  let whole ← binaryAfter self m left
  if m.conditional then conditionalAfter self m whole else return whole

theorem exprStep_eq : exprStep self m = (do
    let subject ← term self m
    let left ← stepsAfter self (Mode.behind m subject) subject
    exprRest self (Mode.behind m subject) left) := rfl

instance [∀ m, Consumes (self m)] (left : Expr) : Consumes (exprRest self m left) := by
  unfold exprRest
  infer_instance

theorem alone_exprRest (hself : ∀ m, Readable y k (self m) (self' m)) (left : Expr) :
    Alone y (k + 1) (Settled y) (exprRest self m left) (exprRest self' m left) := by
  have hc := fun m => (hself m).consumes
  refine .bind (alone_binaryAfter hself left) (fun whole =>
    .ite _ (alone_conditionalAfter hself whole) (.pure whole)) ?_
  intro whole mid e rest _ h hrest
  split at h
  · exact .of_conditionalAfter hself h hrest
  · rwa [← List.append_cancel_right (pure_eq_ok h).2]

theorem Settled.of_exprRest (hself : ∀ m, Readable y k (self m) (self' m)) {left e : Expr}
    (h : exprRest self m left (cs ++ y) = .ok (e, rest ++ y)) (hrest : Settled y rest) :
    Settled y cs := by
  have hc := fun m => (hself m).consumes
  obtain ⟨whole, mid, hbinary, -, h⟩ := bind_excerpt h
  refine .of_binaryAfter hself hbinary ?_
  split at h
  · exact .of_conditionalAfter hself h hrest
  · rwa [← List.append_cancel_right (pure_eq_ok h).2]

theorem Settled.of_stepsAfter [∀ m, Consumes (self m)] {subject left : Expr}
    (h : stepsAfter self m subject (cs ++ y) = .ok (left, rest ++ y)) (hrest : Settled y rest) :
    Settled y cs := by
  rw [stepsAfter_eq] at h
  obtain ⟨found, c₁, hsteps, h⟩ := bind_eq_ok h
  obtain ⟨-, rfl⟩ := pure_eq_ok h
  exact .of_steps hsteps hrest

instance term_consumes [∀ m, Consumes (self m)] : Consumes (term self m) := by
  unfold term
  infer_instance

instance term_opens [∀ m, Consumes (self m)] : Opens (term self m) where
  first h := (termWithin_opens _).first h

instance exprStep_opens [∀ m, Consumes (self m)] : Opens (exprStep self m) := by
  rw [exprStep_eq]
  infer_instance

theorem alone_exprStep (hy : Calm y) (hself : ∀ m, Readable y k (self m) (self' m)) :
    Alone y (k + 1) (Settled y) (exprStep self m) (exprStep self' m) := by
  have hc := fun m => (hself m).consumes
  rw [exprStep_eq, exprStep_eq]
  refine .bind (alone_term hy hself) (fun subject =>
    .bind (alone_stepsAfter hy hself subject) (alone_exprRest hself) ?_) ?_
  · exact fun _ h hrest => .of_exprRest hself h hrest
  · intro subject mid e rest _ h hrest
    obtain ⟨left, last, hsteps, -, h⟩ := bind_excerpt h
    exact .of_stepsAfter hsteps (.of_exprRest hself h hrest)

theorem exprStep_colon [∀ m, Consumes (self m)] {e : Expr}
    (h : exprStep self m cs = .ok (e, rest)) : cs.head? ≠ some ':' := by
  obtain ⟨subject, mid, hterm, -⟩ := bind_eq_ok h
  obtain ⟨c, tail, rfl, -⟩ := Opens.first hterm
  exact fun hc => term_front hterm (Option.some.inj hc)

/-- **Expressions are read alone.** The induction is on the depth. -/
theorem readable_exprWithin (hy : Calm y) (n n' : Nat) (m : Mode) :
    Readable y n' (exprWithin n m) (exprWithin n' m) := by
  induction n generalizing n' m with
  | zero => exact ⟨nofun, Consumes.absent, Opens.absent, nofun⟩
  | succ n ih =>
    have hopens : Opens (exprWithin (n + 1) m) :=
      inferInstanceAs (Opens (exprStep (exprWithin n) m))
    refine ⟨?_, Consumes.exprWithin (n + 1) m, hopens, exprStep_colon⟩
    cases n' with
    | zero => exact fun _ _ _ hlen => absurd hlen (Nat.not_lt_zero _)
    | succ n' => exact alone_exprStep hy (ih n')

/-- An expression that is read in front of `y` and ends there is what its text is. -/
theorem read?_of_expr (hy : Calm y) (hfilled : Filled cs) {e : Expr}
    (h : Reader.expr .line (cs ++ y) = .ok (e, y)) : Expr.read? cs = some e :=
  all?_eq_some.2 ((readable_exprWithin hy _ _ .line).alone (Nat.lt_succ_self _) hfilled h (.inl rfl))

end HclOverlay.Hcl.Reader
