import HclOverlay.Proofs.Excerpts.Objects

/-!
# Terms in excerpts

The first character of a term tells what kind of term it is, except that a `for` may stand in
brackets or braces.

* `startsFor_excerpt` — it does alone where it does in front of `y`.
* `termStep_front` — what a term starts with.
* `alone_termStep`, `alone_term` — **terms**, given readers that read expressions alone.
-/

namespace HclOverlay.Hcl.Reader

variable {y cs mid rest : List Char} {k : Nat}
variable {expr expr' : Reader Expr} {self self' : Mode → Reader Expr} {m : Mode}

/-! ## Where a for starts -/

theorem startsForWord_append (h : startsForWord cs = true) (y : List Char) :
    startsForWord (cs ++ y) = true := by
  unfold startsForWord at h
  split at h
  · next hstrip =>
    rw [stripText_eq_some hstrip]
    exact h
  · cases h

/-- A `for` that opens brackets or braces alone does so in front of `y`. -/
theorem startsFor_append (h : startsFor cs = true) (y : List Char) : startsFor (cs ++ y) = true := by
  obtain ⟨t, z, hwhite⟩ : ∃ t z, white cs = .ok (t, z) := ⟨_, _, rfl⟩
  rw [startsFor_eq hwhite] at h
  have hne : z ≠ [] := by
    rintro rfl
    cases h
  obtain ⟨rfl, hends, -, hskips⟩ := white_eq_ok hwhite
  have hread : white (t ++ z ++ y) = .ok (t, z ++ y) := by
    rw [List.append_assoc]
    refine (hskips hne).white ?_
    unfold startsForWord at h
    split at h
    · next hstrip =>
      rw [stripText_eq_some hstrip]
      exact ends_of_startsToken (c := 'f') rfl true _
    · cases h
  rw [startsFor_eq hread]
  exact startsForWord_append h y

instance : Takes (padded (commit identifier)) := Takes.andThen fun _ => inferInstance

instance : Takes binding := by
  unfold binding
  infer_instance

/-- A `for` that is read starts within the excerpt. -/
theorem startsFor_of_forHead [∀ m, Consumes (self m)] {head : Trivia × Binding × Padded Expr}
    (hfilled : Filled cs) (h : forHead self (cs ++ y) = .ok (head, rest ++ y))
    (hfor : startsFor (cs ++ y) = true) : startsFor cs = true := by
  obtain ⟨opening, left, hwhite, -, h⟩ := bind_excerpt h
  obtain ⟨tail, rfl, hnames⟩ := text_excerpt h
  obtain ⟨d, tail, rfl⟩ := List.exists_cons_of_ne_nil (Takes.ne_nil hnames)
  rw [startsFor_eq hwhite] at hfor
  have halone := alone_white (Nat.lt_succ_self _) hfilled hwhite
    (ends_of_startsToken (c := 'f') rfl true _)
  rw [startsFor_eq halone]
  exact hfor

/-! ## Terms -/

theorem alone_parens (hexpr : Readable y k expr expr') :
    Alone y (k + 1) Anywhere (parens expr) (parens expr') := by
  have hc := hexpr.consumes
  refine .bindTakes (alone_char '(') (fun _ => hexpr.padded.bind
    (fun inner => .andThen (alone_char ')').commit fun _ => .pure _) ?_) fun _ _ _ => trivial
  exact fun _ h _ => (closing_of_commit (.inr (.inl rfl)) h).firm

section Steps

variable {operand operand' : Reader Expr}

instance (op : UnaryOp) : Takes (text op.chars) := by cases op <;> exact Takes.text _ _

theorem alone_prefixed [Consumes operand] [Opens operand] (op : UnaryOp)
    (h : Alone y k (Settled y) operand operand') :
    Alone y (k + 1) (Settled y) (prefixed op operand) (prefixed op operand') :=
  .bindTakes (alone_text _) (fun _ => .blankBefore fun _ => h.map _) fun _ _ _ => trivial

/-- A term starts with a token that is no colon. -/
theorem termStep_front {e : Expr} {c : Char} (h : termStep self operand m (c :: cs) = .ok (e, rest)) :
    startsToken c = true ∧ c ≠ ':' := by
  by_cases hmark : c ∈ termMarks
  · simp only [termMarks, List.mem_cons, List.not_mem_nil, or_false] at hmark
    rcases hmark with rfl | rfl | rfl | rfl | rfl | rfl | rfl <;> exact ⟨rfl, by decide⟩
  · rw [termStep_other hmark] at h
    split at h
    · next hdigit =>
      refine ⟨startsToken_of_isDigit hdigit, ?_⟩
      rintro rfl
      cases hdigit
    · split at h
      · next hstart =>
        refine ⟨startsToken_of_isIdentifierStart hstart, ?_⟩
        rintro rfl
        exact absurd hstart (by decide)
      · cases h

instance [∀ m, Consumes (self m)] [EndsInToken operand] : Opens (termStep self operand m) where
  first {cs rest e} h := by
    cases cs with
    | nil => cases h
    | cons c tail =>
      refine ⟨c, tail, rfl, (termStep_front h).1, ?_⟩
      obtain ⟨front, d, hcs, -⟩ := (EndsInToken.termStep self m operand).last h
      cases front with
      | nil => exact (List.cons.inj hcs).2 ▸ List.suffix_rfl
      | cons b front =>
        rw [(List.cons.inj hcs).2]
        exact (List.suffix_cons d rest).trans (List.suffix_append front _)

/-- Whether a `for` opens brackets or braces is seen from the excerpt. -/
theorem startsFor_excerpt {β : Type} [∀ m, Consumes (self m)] {c : Char}
    {f : Trivia × Binding × Padded Expr → Reader β} [∀ head, Consumes (f head)]
    {other : Except Miss (β × List Char)} {b : β} (hfilled : Filled cs)
    (h : (if startsFor (cs ++ y) = true
        then (do char c; let head ← forHead self; f head) (c :: (cs ++ y)) else other) =
      .ok (b, rest ++ y)) : startsFor cs = startsFor (cs ++ y) := by
  split at h
  · next hfor =>
    rw [bind_ok (char_self _ _)] at h
    obtain ⟨head, left, hhead, -, h⟩ := bind_excerpt h
    rw [hfor]
    exact startsFor_of_forHead hfilled hhead hfor
  · next hfor =>
    rw [Bool.not_eq_true] at hfor
    rw [hfor, Bool.eq_false_iff]
    exact fun halone => Bool.false_ne_true (hfor ▸ startsFor_append halone y)

theorem alone_termStep (hy : Calm y) (hself : ∀ m, Readable y k (self m) (self' m))
    [EndsInToken operand] [Consumes operand] [Opens operand]
    (hoperand : Alone y k (Settled y) operand operand') :
    Alone y (k + 1) (Settled y) (termStep self operand m) (termStep self' operand' m) := by
  have hc := fun m => (hself m).consumes
  intro cs rest e hlen hfilled h hrest
  obtain ⟨c, tail, rfl⟩ := List.exists_cons_of_ne_nil (Takes.ne_nil h)
  have hsuffix : tail <:+ c :: tail := List.suffix_cons c tail
  have hfree : Readable y k (inner self).free (inner self').free := hself .inside
  have hline : Readable y k (inner self).line (inner self').line := hself .line
  by_cases hmark : c ∈ termMarks
  · simp only [termMarks, List.mem_cons, List.not_mem_nil, or_false] at hmark
    rcases hmark with rfl | rfl | rfl | rfl | rfl | rfl | rfl
    · exact alone_quotedTemplate hfree hline hlen hfilled h trivial
    · change (if startsFor (tail ++ y) = true then forList self m ('[' :: (tail ++ y))
        else list (self m.spread) ('[' :: (tail ++ y))) = _ at h
      change (if startsFor tail = true then forList self' m ('[' :: tail)
        else list (self' m.spread) ('[' :: tail)) = _
      rw [startsFor_excerpt (hfilled.suffix hsuffix) h]
      split at h
      · next hfor =>
        rw [if_pos hfor]
        exact alone_forList hself hlen hfilled h trivial
      · next hfor =>
        rw [if_neg hfor]
        exact alone_list (hself _) hlen hfilled h trivial
    · change (if startsFor (tail ++ y) = true then forObject self m ('{' :: (tail ++ y))
        else object (self .line) ('{' :: (tail ++ y))) = _ at h
      change (if startsFor tail = true then forObject self' m ('{' :: tail)
        else object (self' .line) ('{' :: tail)) = _
      rw [forObject_eq] at h
      rw [startsFor_excerpt (hfilled.suffix hsuffix) h]
      rw [← forObject_eq] at h
      split at h
      · next hfor =>
        rw [if_pos hfor]
        exact alone_forObject hself hlen hfilled h trivial
      · next hfor =>
        rw [if_neg hfor]
        exact alone_object (hself _) hlen hfilled h trivial
    · exact alone_parens (hself .inside) hlen hfilled h trivial
    · exact alone_heredoc hfree hline hlen hfilled h trivial
    · refine Alone.orElse ((alone_negativeLiteral hy).weaken fun _ _ => trivial)
        (alone_prefixed .negate hoperand) ?_ hlen hfilled h hrest
      intro cs rest e _ _ hno hread _
      obtain ⟨left, rfl, hmore⟩ := text_excerpt hread
      obtain ⟨space, last, hblank, -, hterm⟩ := bind_excerpt hmore
      exact negativeLiteral_absent hy hblank (Opens.ends _ hterm false) hno
    · exact alone_prefixed .not hoperand hlen hfilled h hrest
  · rw [List.cons_append, termStep_other hmark] at h
    rw [termStep_other hmark]
    split at h
    · next hdigit =>
      rw [if_pos hdigit]
      exact alone_numberLiteral hy hlen hfilled h trivial
    · next hdigit =>
      rw [if_neg hdigit]
      split at h
      · next hstart =>
        rw [if_pos hstart]
        exact alone_nameOrCall hself hlen hfilled h hrest
      · cases h

end Steps

theorem termWithin_opens [∀ m, Consumes (self m)] (n : Nat) : Opens (termWithin self m n) := by
  induction n with
  | zero => exact Opens.absent
  | succ n ih => exact inferInstanceAs (Opens (termStep self (termWithin self m n) m))

theorem term_front {e : Expr} {c : Char} (h : term self m (c :: cs) = .ok (e, rest)) : c ≠ ':' :=
  (termStep_front h).2

/-- **Terms are read alone.** The induction is on the number of operators in front of them. -/
theorem alone_termWithin (hy : Calm y) (hself : ∀ m, Readable y k (self m) (self' m)) {n n' : Nat}
    (hn : n' ≤ k + 1) : Alone y n' (Settled y) (termWithin self m n) (termWithin self' m n') := by
  have hc := fun m => (hself m).consumes
  induction n generalizing n' with
  | zero => nofun
  | succ n ih =>
    cases n' with
    | zero => exact fun _ _ _ hlen => absurd hlen (Nat.not_lt_zero _)
    | succ n' =>
      have hopens : Opens (termWithin self m n) := termWithin_opens n
      exact alone_termStep hy (fun m => (hself m).le (by omega)) (ih (by omega))

theorem alone_term (hy : Calm y) (hself : ∀ m, Readable y k (self m) (self' m)) :
    Alone y (k + 1) (Settled y) (term self m) (term self' m) :=
  .bounded fun _ _ hn => alone_termWithin hy hself hn

end HclOverlay.Hcl.Reader
