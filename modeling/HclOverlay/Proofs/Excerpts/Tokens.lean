import HclOverlay.Proofs.Excerpts.Basic

/-!
# Tokens and what is between them

A token is read alone as it is read in its place. Between tokens it matters what follows: trivia goes
on as long as it can, and so does an expression. What follows has to be told apart from trivia, from
a step, an operator and a branch, and from the arguments of a call, by characters of the excerpt.

* `firm` — a text whose first characters tell what it goes on with.
* `Settled` — nothing follows, or something firm behind trivia; `Settled.gap_eq` — so an expression
  ends here alone if it does in front of `y`.
* `alone_gap`, `Alone.behind` — trivia and what may follow it.
-/

namespace HclOverlay.Hcl.Reader

variable {α β : Type} {y cs mid rest z : List Char} {k : Nat} {newlines : Bool}

/-! ## Tokens -/

/-- What is taken in front of `y` is the front of the excerpt. -/
theorem excerpt_eq (front : List Char) (h : cs ++ y = front ++ (rest ++ y)) :
    cs = front ++ rest := by
  rw [← List.append_assoc] at h
  exact List.append_cancel_right h

theorem head?_excerpt {c : Char} (h : (cs ++ y).head? ≠ some c) : cs.head? ≠ some c := by
  cases cs with
  | nil => simp
  | cons d tail => exact h

theorem alone_char (c : Char) : Alone y k Anywhere (char c) (char c) := by
  intro cs rest a _ _ h _
  rw [excerpt_eq [c] (char_eq_ok h)]
  exact char_self c rest

section First

variable {b : β}

/-- Where a text is read first, the excerpt starts with it. -/
theorem text_excerpt {expected : List Char} {f : Unit → Reader β} [∀ u, Consumes (f u)]
    (h : (text expected >>= f) (cs ++ y) = .ok (b, rest ++ y)) :
    ∃ tail, cs = expected ++ tail ∧ f () (tail ++ y) = .ok (b, rest ++ y) := by
  obtain ⟨_, tail, htext, -, h⟩ := bind_excerpt h
  exact ⟨tail, excerpt_eq expected (text_eq_ok htext), h⟩

theorem char_excerpt {c : Char} {f : Unit → Reader β} [∀ u, Consumes (f u)]
    (h : (char c >>= f) (cs ++ y) = .ok (b, rest ++ y)) :
    ∃ tail, cs = c :: tail ∧ f () (tail ++ y) = .ok (b, rest ++ y) := by
  obtain ⟨_, tail, hchar, -, h⟩ := bind_excerpt h
  exact ⟨tail, excerpt_eq [c] (char_eq_ok hchar), h⟩

theorem commit_char_excerpt {c : Char} {f : Unit → Reader β} [∀ u, Consumes (f u)]
    (h : (commit (char c) >>= f) (cs ++ y) = .ok (b, rest ++ y)) :
    ∃ tail, cs = c :: tail ∧ f () (tail ++ y) = .ok (b, rest ++ y) := by
  obtain ⟨_, tail, hchar, -, h⟩ := bind_excerpt h
  exact ⟨tail, excerpt_eq [c] (char_eq_ok (commit_eq_ok hchar)), h⟩

theorem commit_text_excerpt {expected : List Char} {f : Unit → Reader β} [∀ u, Consumes (f u)]
    (h : (commit (text expected) >>= f) (cs ++ y) = .ok (b, rest ++ y)) :
    ∃ tail, cs = expected ++ tail ∧ f () (tail ++ y) = .ok (b, rest ++ y) := by
  obtain ⟨_, tail, htext, -, h⟩ := bind_excerpt h
  exact ⟨tail, excerpt_eq expected (text_eq_ok (commit_eq_ok htext)), h⟩

/-- Where a character may be read first, the excerpt starts with it or not. -/
theorem flag_excerpt {c : Char} {f : Bool → Reader β} [∀ found, Consumes (f found)]
    (h : (flag c >>= f) (cs ++ y) = .ok (b, rest ++ y)) :
    (∃ tail, cs = c :: tail ∧ f true (tail ++ y) = .ok (b, rest ++ y)) ∨
      f false (cs ++ y) = .ok (b, rest ++ y) := by
  obtain ⟨found, tail, hflag, -, h⟩ := bind_excerpt h
  rcases flag_eq_ok hflag with ⟨rfl, hcs⟩ | ⟨rfl, hcs, -⟩
  · exact .inl ⟨tail, excerpt_eq [c] hcs, h⟩
  · rw [hcs] at h
    exact .inr h

end First

theorem alone_text (expected : List Char) : Alone y k Anywhere (text expected) (text expected) := by
  intro cs rest a _ _ h _
  rw [excerpt_eq _ (text_eq_ok h)]
  exact text_append expected rest

theorem alone_flag (c : Char) : Alone y k Anywhere (flag c) (flag c) := by
  intro cs rest b _ _ h _
  rcases flag_eq_ok h with ⟨rfl, hcs⟩ | ⟨rfl, hrest, hne⟩
  · rw [excerpt_eq [c] hcs]
    exact flag_self c rest
  · rw [List.append_cancel_right hrest]
    exact flag_of_ne (head?_excerpt hne)

theorem EndsName.excerpt (h : EndsName (cs ++ y)) : EndsName cs := by
  cases cs with
  | nil => nofun
  | cons c tail => exact h

theorem alone_identifier : Alone y k Anywhere identifier identifier := by
  intro cs rest name _ _ h _
  obtain ⟨hcs, hname, hends⟩ := identifier_eq_ok h
  rw [excerpt_eq _ hcs, identifier_ok hname hends.excerpt, String.ofList_toList]

theorem alone_lineEnd : Alone y k Anywhere lineEnd lineEnd := by
  intro cs rest eol _ _ h _
  obtain ⟨hcs, heol⟩ := lineEnd_eq_ok h
  rw [excerpt_eq _ hcs]
  rcases heol with rfl | rfl <;> rfl

instance : Takes lineEnd where
  shorter h := by
    obtain ⟨rfl, rfl | rfl⟩ := lineEnd_eq_ok h <;>
      (rw [List.length_append]; exact Nat.lt_add_of_pos_left (Nat.zero_lt_succ _))

instance : Opens identifier where
  first {cs rest name} h := by
    obtain ⟨hcs, hname, -⟩ := identifier_eq_ok h
    rw [Text.isIdentifier] at hname
    cases hchars : name.toList with
    | nil =>
      rw [hchars] at hname
      cases hname
    | cons c more =>
      rw [hchars] at hcs hname
      simp only [Text.isIdentifierChars, Bool.and_eq_true] at hname
      exact ⟨c, more ++ rest, hcs, startsToken_of_isIdentifierStart hname.1,
        List.suffix_append more rest⟩

/-! ## Trivia -/

/-- Trivia is read alone if what is left does not go on with trivia. -/
theorem alone_gap (newlines : Bool) :
    Alone y k (Ends newlines) (gap newlines) (gap newlines) := by
  intro cs rest t _ _ h hends
  obtain ⟨hcs, -, -, hskips⟩ := gap_eq_ok h
  cases hy : y with
  | nil =>
    rw [hy, List.append_nil, List.append_nil] at h
    exact h
  | cons c tail =>
    rw [excerpt_eq _ hcs]
    exact (hskips (.inl (by simp [hy]))).gap hends

theorem alone_white : Alone y k (Ends true) white white := alone_gap true

theorem alone_blank : Alone y k (Ends false) blank blank := alone_gap false

section Before

variable {P : List Char → Prop} {f f' : Trivia → Reader β}

/-- Trivia in front of a token. -/
theorem Alone.gapBefore [hc : ∀ t, Consumes (f t)] [ho : ∀ t, Opens (f t)]
    (hf : ∀ t, Alone y k P (f t) (f' t)) :
    Alone y k P (gap newlines >>= f) (gap newlines >>= f') :=
  (alone_gap newlines).bind hf fun {t} _ _ _ _ h _ => Opens.ends (f t) h newlines

theorem Alone.whiteBefore [∀ t, Consumes (f t)] [∀ t, Opens (f t)]
    (hf : ∀ t, Alone y k P (f t) (f' t)) :
    Alone y k P (white >>= f) (white >>= f') :=
  show Alone y k P (gap true >>= f) (gap true >>= f') from Alone.gapBefore hf

theorem Alone.blankBefore [∀ t, Consumes (f t)] [∀ t, Opens (f t)]
    (hf : ∀ t, Alone y k P (f t) (f' t)) :
    Alone y k P (blank >>= f) (blank >>= f') :=
  show Alone y k P (gap false >>= f) (gap false >>= f') from Alone.gapBefore hf

end Before

/-! ## What follows an expression -/

/-- Whether a text starts with a token and its first two characters tell what it goes on with. A
single character is enough only if it closes something, and two colons do not tell enough. -/
def firm : List Char → Bool
  | [] => false
  | [c] => [']', ')', '}'].contains c
  | ':' :: ':' :: _ => false
  | '/' :: d :: _ => d != '/' && d != '*'
  | c :: _ => startsToken c

/-- A token and one more character are firm, but for two colons. -/
theorem firm_token {c d : Char} {tail : List Char} (h : startsToken c = true)
    (hcolons : c = ':' → d ≠ ':') : firm (c :: d :: tail) = true := by
  rw [firm.eq_5]
  · exact h
  · nofun
  · rintro r rfl heq
    exact hcolons rfl (List.cons.inj heq).1
  · rintro e r rfl
    cases h

/-- What closes something is firm. -/
theorem firm_closing {c : Char} (h : c = ']' ∨ c = ')' ∨ c = '}') (tail : List Char) :
    firm (c :: tail) = true := by
  cases tail with
  | nil => rcases h with rfl | rfl | rfl <;> rfl
  | cons d tail => rcases h with rfl | rfl | rfl <;> exact firm_token rfl nofun

theorem firm_slash {d : Char} {tail : List Char} (h : d ≠ '/') (h' : d ≠ '*') :
    firm ('/' :: d :: tail) = true := by
  simp [firm, h, h']

theorem firm_cases (h : firm z = true) :
    (∃ c, z = [c] ∧ (c = ']' ∨ c = ')' ∨ c = '}')) ∨
      (∃ d tail, z = '/' :: d :: tail ∧ d ≠ '/' ∧ d ≠ '*') ∨
      ∃ c d tail, z = c :: d :: tail ∧ startsToken c = true ∧ (c = ':' → d ≠ ':') := by
  unfold firm at h
  split at h
  · cases h
  · next c => exact .inl ⟨c, rfl, by simpa using h⟩
  · cases h
  · next d tail =>
    simp only [Bool.and_eq_true, bne_iff_ne, ne_eq] at h
    exact .inr (.inl ⟨d, tail, rfl, h⟩)
  · next c tail hsingle hcolons _ =>
    cases tail with
    | nil => exact absurd rfl hsingle
    | cons d tail => exact .inr (.inr ⟨c, d, tail, rfl, h, fun hc hd =>
        hcolons tail hc (by rw [hd])⟩)

theorem ends_slash {d : Char} {tail : List Char} (hd : d ≠ '/') (hd' : d ≠ '*') (newlines : Bool) :
    Ends newlines ('/' :: d :: tail) := by
  have hinline : inlineComment? ('/' :: d :: tail) = none :=
    inlineComment?.eq_2 _ fun r heq => hd' (List.cons.inj (List.cons.inj heq).2).1
  have hline : lineComment? ('/' :: d :: tail) = none :=
    lineComment?.eq_3 _ (fun r heq => absurd (List.cons.inj heq).1 (by decide))
      fun r heq => hd (List.cons.inj (List.cons.inj heq).2).1
  cases newlines with
  | true => simp [Ends, stops, gapSkips, gapComment?, comment?, hinline, hline, isWhiteChar,
      isBlankChar]
  | false => simp [Ends, stops, gapSkips, gapComment?, hinline, isBlankChar]

/-- Nothing firm goes on with trivia. -/
theorem firm_ends (h : firm z = true) (newlines : Bool) (w : List Char) :
    Ends newlines (z ++ w) := by
  rcases firm_cases h with ⟨c, rfl, hc⟩ | ⟨d, tail, rfl, hd, hd'⟩ | ⟨c, d, tail, rfl, hc, -⟩
  · refine ends_of_startsToken ?_ newlines w
    rcases hc with rfl | rfl | rfl <;> rfl
  · exact ends_slash hd hd' newlines
  · exact ends_of_startsToken hc newlines _

/-- Nothing firm goes on with a call, but for a parenthesis. -/
theorem continuesCall_of_firm (h : firm z = true) :
    continuesCall z = false ∨ z.head? = some '(' := by
  rcases firm_cases h with ⟨c, rfl, hc⟩ | ⟨d, tail, rfl, -⟩ | ⟨c, d, tail, rfl, -, hcolons⟩
  · rcases hc with rfl | rfl | rfl <;> exact .inl rfl
  · exact .inl rfl
  · by_cases hopen : c = '('
    · exact .inr (congrArg some hopen)
    · by_cases hcolon : ':' = c
      · have hd : ¬ ':' = d := fun hd => hcolons hcolon.symm hd.symm
        exact .inl (by simp [continuesCall, stripText, hopen, hd])
      · exact .inl (by simp [continuesCall, stripText, hopen, hcolon])

/-- Whether a line ends here, behind a comment or not. -/
def breaksLine : List Char → Bool
  | '\n' :: _ | '\r' :: _ | '#' :: _ | '/' :: '/' :: _ => true
  | _ => false

/-- Behind something firm or the end of a line, a predicate on what follows sees only characters of
the excerpt. -/
structure Looks (starts : List Char → Bool) : Prop where
  nil : starts [] = false
  line {z : List Char} : breaksLine z = true → starts z = false
  firm {z : List Char} : firm z = true → ∀ w, starts (z ++ w) = starts z

theorem startsStep_pair (c d : Char) (tail : List Char) :
    startsStep (c :: d :: tail) = if c = '.' then d != '.' else c == '[' := by
  unfold startsStep
  split
  · next heq =>
    cases heq
    rfl
  · next h heq =>
    cases heq
    have hd : d ≠ '.' := fun hd => h tail (by rw [hd])
    simp [hd]
  · next heq =>
    cases heq
    rfl
  · next h₁ h₂ =>
    have hc : c ≠ '.' := fun hc => h₁ (d :: tail) (by rw [hc])
    have hc' : c ≠ '[' := fun hc => h₂ (d :: tail) (by rw [hc])
    simp [hc, hc']

theorem startsOperator_pair (c d : Char) (tail : List Char) :
    startsOperator (c :: d :: tail) =
      if c = '=' then d == '=' else if c = '/' then d != '/' && d != '*'
      else ['!', '<', '>', '+', '-', '*', '%', '&', '|'].contains c := by
  unfold startsOperator
  split
  · next heq =>
    cases heq
    rfl
  · next heq =>
    cases heq
    rfl
  · next heq =>
    cases heq
    rfl
  · next h₁ h₂ h₃ heq =>
    cases heq
    by_cases hc : c = '='
    · subst hc
      have hd : d ≠ '=' := fun hd => h₁ tail rfl (by rw [hd])
      simp [hd]
    · by_cases hc' : c = '/'
      · subst hc'
        have hd : d ≠ '/' := fun hd => h₂ tail rfl (by rw [hd])
        have hd' : d ≠ '*' := fun hd => h₃ tail rfl (by rw [hd])
        simp [hd, hd']
      · simp [hc, hc']
  · next heq => cases heq

/-- What sees two characters sees only characters of something firm. -/
theorem looks_of_pair {starts : List Char → Bool} (sees : Char → Char → Bool)
    (hpair : ∀ c d tail, starts (c :: d :: tail) = sees c d) (hnil : starts [] = false)
    (hclosing : ∀ c w, c = ']' ∨ c = ')' ∨ c = '}' → starts (c :: w) = false)
    (hline : ∀ {z}, breaksLine z = true → starts z = false) : Looks starts where
  nil := hnil
  line := hline
  firm h w := by
    rcases firm_cases h with ⟨c, rfl, hc⟩ | ⟨d, tail, rfl, -⟩ | ⟨c, d, tail, rfl, -⟩
    · rw [hclosing c [] hc]
      exact hclosing c w hc
    · rw [hpair]
      exact hpair _ _ _
    · rw [hpair]
      exact hpair _ _ _

theorem looks_startsStep : Looks startsStep := by
  refine looks_of_pair _ startsStep_pair rfl (fun c w hc => ?_) fun h => ?_
  · rcases hc with rfl | rfl | rfl <;> rfl
  · unfold breaksLine at h
    split at h <;> first | rfl | cases h

theorem looks_startsOperator : Looks startsOperator := by
  refine looks_of_pair _ startsOperator_pair rfl (fun c w hc => ?_) fun h => ?_
  · rcases hc with rfl | rfl | rfl <;> rfl
  · unfold breaksLine at h
    split at h <;> first | rfl | cases h

theorem looks_mark : Looks (·.head? == some '?') := by
  refine looks_of_pair (fun c _ => c == '?') (fun c d tail => by simp) rfl
    (fun c w hc => ?_) fun h => ?_
  · rcases hc with rfl | rfl | rfl <;> rfl
  · unfold breaksLine at h
    split at h <;> first | rfl | cases h

theorem breaksLine_append (h : breaksLine z = true) (w : List Char) :
    breaksLine (z ++ w) = true := by
  unfold breaksLine at h
  split at h <;> first | rfl | cases h

theorem breaksLine_of_lineComment? {r : List Char × List Char} (h : lineComment? z = some r) :
    breaksLine z = true := by
  unfold lineComment? at h
  split at h <;> first | rfl | cases h

theorem continuesCall_of_breaksLine (h : breaksLine z = true) : continuesCall z = false := by
  unfold breaksLine at h
  split at h <;> first | rfl | cases h

/-! ## Where an expression ends -/

/-- Nothing follows, or something firm behind trivia. -/
def Settled (y cs : List Char) : Prop :=
  cs = [] ∨ ∃ t z, white (cs ++ y) = .ok (t, z ++ y) ∧ firm z = true

/-- Without line ends, a gap stops at the first of them. -/
theorem blank_front {t : Trivia} (h : Skips true t) :
    ∃ t₁ t₂, (t₂ = [] ∨ breaksLine t₂ = true) ∧
      ∀ w, Ends true w → Ends false w → blank (t ++ w) = .ok (t₁, t₂ ++ w) := by
  induction h with
  | nil => exact ⟨[], [], .inl rfl, fun w _ hw => hw.blank⟩
  | @skip c t hc ht ih =>
    by_cases hblank : isBlankChar c = true
    · obtain ⟨t₁, t₂, ht₂, hread⟩ := ih
      refine ⟨c :: t₁, t₂, ht₂, fun w hw hw' => ?_⟩
      have hspan := gapSpan_skip (show gapSkips false c = true from hblank) (t ++ w)
      have heq : gapSpan false (t ++ w) = (t₁, t₂ ++ w) := Except.ok.inj (hread w hw hw')
      rw [heq] at hspan
      exact congrArg Except.ok hspan
    · refine ⟨[], c :: t, .inr ?_, fun w _ _ => ?_⟩
      · have hline : c = '\n' ∨ c = '\r' := by simpa [gapSkips, isWhiteChar, hblank] using hc
        rcases hline with rfl | rfl <;> rfl
      · refine (Ends.blank ?_)
        have hline : c = '\n' ∨ c = '\r' := by simpa [gapSkips, isWhiteChar, hblank] using hc
        rcases hline with rfl | rfl <;> rfl
  | @comment body t hbody ht ih =>
    obtain ⟨t₁, t₂, ht₂, hread⟩ := ih
    obtain ⟨-, hne, hagain⟩ := inlineComment?_eq_some hbody
    refine ⟨body ++ t₁, t₂, ht₂, fun w hw hw' => ?_⟩
    have hspan := gapSpan_comment hne (gapComment?_of_inline (hagain (t ++ w)) false)
    have heq : gapSpan false (t ++ w) = (t₁, t₂ ++ w) := Except.ok.inj (hread w hw hw')
    rw [heq] at hspan
    rw [List.append_assoc]
    exact congrArg Except.ok hspan
  | @line body t hnewlines hbody hline ht ih =>
    refine ⟨[], body ++ t, .inr ?_, fun w _ _ => Ends.blank ?_⟩
    · exact breaksLine_append (breaksLine_of_lineComment? hbody) t
    · rw [List.append_assoc]
      exact ends_comment hbody (.inr (startsLine_append hline w))

/-- **An expression ends here** alone as it does in front of `y`: behind trivia there is the same. -/
theorem Settled.gap_eq (h : Settled y cs) (hne : cs ≠ []) (newlines : Bool) :
    ∃ t z, gap newlines cs = .ok (t, z) ∧ gap newlines (cs ++ y) = .ok (t, z ++ y) ∧
      (firm z = true ∨ breaksLine z = true) := by
  obtain ⟨t, z, hread, hz⟩ := h.resolve_left hne
  obtain ⟨hcs, -, -, hskips⟩ := white_eq_ok hread
  have hskips := hskips (by cases z <;> simp [firm] at hz ⊢)
  obtain rfl := excerpt_eq _ hcs
  rw [List.append_assoc] at hread ⊢
  have hends := firm_ends hz
  have hends' := fun newlines => List.append_nil z ▸ hends newlines []
  cases newlines with
  | true =>
    exact ⟨t, z, hskips.gap (hends' true), hread, .inl hz⟩
  | false =>
    obtain ⟨t₁, t₂, ht₂, hblank⟩ := blank_front hskips
    refine ⟨t₁, t₂ ++ z, hblank z (hends' true) (hends' false), ?_, ?_⟩
    · rw [List.append_assoc]
      exact hblank (z ++ y) (hends true y) (hends false y)
    · rcases ht₂ with rfl | ht₂
      · exact .inl hz
      · exact .inr (breaksLine_append ht₂ z)

theorem Settled.of_gap {t : Trivia} (h : gap newlines (cs ++ y) = .ok (t, z ++ y))
    (hz : firm z = true) : Settled y cs := by
  refine .inr ⟨t, z, ?_, hz⟩
  obtain ⟨hcs, -, -, hskips⟩ := gap_eq_ok h
  rw [hcs]
  exact (hskips (.inl (by cases z <;> simp [firm] at hz ⊢))).to_true.white (firm_ends hz true y)

theorem Settled.of_white {t : Trivia} (h : white (cs ++ y) = .ok (t, z ++ y))
    (hz : firm z = true) : Settled y cs := .inr ⟨t, z, h, hz⟩

theorem Settled.of_blank {t : Trivia} (h : blank (cs ++ y) = .ok (t, z ++ y))
    (hz : firm z = true) : Settled y cs := Settled.of_gap (show gap false _ = _ from h) hz

/-- Where an expression ends, no call goes on unless one does in front of `y`. -/
theorem Settled.not_call (h : Settled y cs) (newlines : Bool) :
    (∃ t z, gap newlines cs = .ok (t, z) ∧ continuesCall z = false) ∨
      ∃ t z, gap newlines (cs ++ y) = .ok (t, z) ∧ z.head? = some '(' := by
  cases cs with
  | nil => exact .inl ⟨[], [], (ends_nil newlines).gap, rfl⟩
  | cons c tail =>
    obtain ⟨t, z, hread, hready, hz⟩ := h.gap_eq (List.cons_ne_nil c tail) newlines
    rcases hz with hz | hz
    · rcases continuesCall_of_firm hz with hcall | hopen
      · exact .inl ⟨t, z, hread, hcall⟩
      · exact .inr ⟨t, z ++ y, hready, by rw [List.head?_append, hopen]; rfl⟩
    · exact .inl ⟨t, z, hread, continuesCall_of_breaksLine hz⟩

/-- What may follow behind trivia. -/
theorem Alone.behind {starts : List Char → Bool} {P : List Char → Prop}
    {r r' : Trivia → Reader β} [ht : ∀ t, Takes (r t)]
    (hstarts : Looks starts) (hr : ∀ t, Alone y k P (r t) (r' t))
    (hsettled : ∀ {cs rest o}, behind (gap newlines) starts r (cs ++ y) =
      .ok (o, rest ++ y) → P rest → Settled y cs) :
    Alone y k P (behind (gap newlines) starts r)
      (behind (gap newlines) starts r') := by
  intro cs rest o hlen hfilled h hP
  have hset := hsettled h hP
  obtain ⟨t, mid, hgap, hmid⟩ := behind_eq_ok h
  cases cs with
  | nil =>
    rcases hmid with ⟨b, -, -, hread⟩ | ⟨rfl, -, hrest⟩
    · -- nothing of the excerpt is left to be read
      have hshorter := (ht t).shorter hread
      have hlonger := (Consumes.gap newlines).leaves hgap |>.length_le
      simp only [List.length_append, List.nil_append] at hshorter hlonger
      omega
    · rw [List.append_cancel_right hrest]
      exact behind_none (ends_nil newlines).gap hstarts.nil
  | cons c tail =>
    obtain ⟨t', z, hgap', hgapy, hz⟩ := hset.gap_eq (List.cons_ne_nil c tail) newlines
    have hsame : starts (z ++ y) = starts z := by
      rcases hz with hz | hz
      · exact hstarts.firm hz y
      · rw [hstarts.line hz, hstarts.line (breaksLine_append hz y)]
    rw [hgap] at hgapy
    cases hgapy
    rcases hmid with ⟨b, rfl, hyes, hread⟩ | ⟨rfl, hno, hrest⟩
    · have hz' : z <:+ c :: tail := (gap_eq_ok hgap').1 ▸ List.suffix_append _ _
      exact behind_ok hgap' (hsame ▸ hyes)
        (hr t (lt_of_le_of_lt hz'.length_le hlen) (hfilled.suffix hz') hread hP)
    · rw [List.append_cancel_right hrest]
      exact behind_none hgap' (hsame ▸ hno)

end HclOverlay.Hcl.Reader
