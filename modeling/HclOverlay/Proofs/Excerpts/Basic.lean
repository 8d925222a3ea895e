import HclOverlay.Proofs.Reading.Ending
import HclOverlay.Proofs.Reading.Rules
import Mathlib.Data.List.Infix

/-!
# Excerpts of a text

What a reader takes off the front of a text is decided by what it takes, not by what stands behind
it: it takes the same off this excerpt alone. A choice needs some care, because a reader may also
fail on the longer text for what it finds behind the excerpt.

* `Filled` — no heredoc of a text ends in its first line. Whether such a heredoc has text depends on
  all that follows.
* `Alone` — what is read in front of `y` is read alone.
* `Alone.bind`, `Alone.orElse`, `Alone.opt`, … — readers made from readers.
* `Takes`, `Opens` — readers that take a character, and those that start with a token.
* `firm`, `Settled` — what follows an expression settles where it ends.
-/

namespace HclOverlay.Hcl.Reader

variable {α β : Type} {y cs mid rest : List Char} {k : Nat}

/-! ## Excerpts -/

/-- What lies between a text and one of its ends is an end of the excerpt with that end. -/
theorem suffix_between (h : mid <:+ cs ++ y) (h' : rest ++ y <:+ mid) :
    ∃ left, mid = left ++ y ∧ left <:+ cs := by
  obtain ⟨front, hfront⟩ := h
  obtain ⟨back, rfl⟩ := h'
  refine ⟨back ++ rest, by rw [List.append_assoc], front, ?_⟩
  rw [← List.append_assoc, ← List.append_assoc] at hfront
  rw [← List.append_assoc]
  exact List.append_cancel_right hfront

/-- A run in front of `y` that leaves something of the excerpt, taken apart. -/
theorem bind_excerpt {r : Reader α} {f : α → Reader β} [hr : Consumes r]
    [hf : ∀ a, Consumes (f a)] {b : β} (h : (r >>= f) (cs ++ y) = .ok (b, rest ++ y)) :
    ∃ a mid, r (cs ++ y) = .ok (a, mid ++ y) ∧ mid <:+ cs ∧
      f a (mid ++ y) = .ok (b, rest ++ y) := by
  obtain ⟨a, c₁, h₁, h₂⟩ := bind_eq_ok h
  obtain ⟨mid, rfl, hmid⟩ := suffix_between (hr.leaves h₁) ((hf a).leaves h₂)
  exact ⟨a, mid, h₁, hmid, h₂⟩

/-- What may be read first is there in front of `y`, or it is absent. -/
theorem opt_excerpt {r : Reader α} {f : Option α → Reader β} [hr : Consumes r]
    [hsome : ∀ a, Consumes (f (some a))] {b : β} (h : (opt r >>= f) (cs ++ y) = .ok (b, rest ++ y)) :
    (∃ a mid, r (cs ++ y) = .ok (a, mid ++ y) ∧ mid <:+ cs ∧
      f (some a) (mid ++ y) = .ok (b, rest ++ y)) ∨
    (r (cs ++ y) = .error .absent ∧ f none (cs ++ y) = .ok (b, rest ++ y)) := by
  obtain ⟨o, c₁, h₁, h₂⟩ := bind_eq_ok h
  rcases opt_eq_ok h₁ with ⟨a, rfl, hread⟩ | ⟨rfl, hno, rfl⟩
  · obtain ⟨mid, rfl, hmid⟩ := suffix_between (hr.leaves hread) ((hsome a).leaves h₂)
    exact .inl ⟨a, mid, hread, hmid, h₂⟩
  · exact .inr ⟨hno, h₂⟩

/-- Reads the front of a heredoc without text. -/
def emptyHeredoc : Reader Unit := do
  text ['<', '<']
  let _ ← flag '-'
  let delimiter ← identifier
  let _ ← lineEnd
  let _ ← heredocEmpty delimiter.toList
  return ()

/-- No heredoc of a text has its delimiter already at the start of its first line. -/
def Filled (cs : List Char) : Prop := ∀ mid ∈ cs.tails, (emptyHeredoc mid).isOk = false

instance (cs : List Char) : Decidable (Filled cs) := inferInstanceAs (Decidable (∀ _ ∈ _, _))

theorem Filled.suffix (h : Filled cs) (hmid : mid <:+ cs) : Filled mid := fun left hleft =>
  h left ((List.mem_tails _ _).2 (((List.mem_tails _ _).1 hleft).trans hmid))

theorem Filled.ne_ok (h : Filled cs) {u : Unit} : emptyHeredoc cs ≠ .ok (u, rest) := by
  intro hread
  have hnot := h cs ((List.mem_tails _ _).2 List.suffix_rfl)
  rw [hread] at hnot
  cases hnot

/-- What `r` reads off a text in front of `y`, `r'` reads off the text alone, if it has less than
`k` characters and `P` holds of what is left. The second reader may differ from the first in the
bounds on its steps. -/
def Alone (y : List Char) (k : Nat) (P : List Char → Prop) (r r' : Reader α) : Prop :=
  ∀ ⦃cs rest a⦄, cs.length < k → Filled cs → r (cs ++ y) = .ok (a, rest ++ y) → P rest →
    r' cs = .ok (a, rest)

/-- No condition on what is left. -/
def Anywhere (_ : List Char) : Prop := True

/-! ## Readers that take a character -/

/-- A reader that takes at least one character. -/
class Takes (r : Reader α) : Prop where
  shorter {cs rest : List Char} {a : α} : r cs = .ok (a, rest) → rest.length < cs.length

instance (priority := low) Takes.ofToken (r : Reader α) [hr : EndsInToken r] : Takes r where
  shorter h := by
    obtain ⟨front, c, rfl, -⟩ := hr.last h
    simp
    omega

instance Takes.bind (r : Reader α) (f : α → Reader β) [hr : Takes r] [hf : ∀ a, Consumes (f a)] :
    Takes (r >>= f) where
  shorter h := by
    obtain ⟨a, mid, hmid, hrest⟩ := bind_eq_ok h
    exact lt_of_le_of_lt ((hf a).leaves hrest).length_le (hr.shorter hmid)

theorem Takes.andThen {r : Reader α} {f : α → Reader β} [hr : Consumes r]
    (hf : ∀ a, Takes (f a)) : Takes (r >>= f) where
  shorter h := by
    obtain ⟨a, mid, hmid, hrest⟩ := bind_eq_ok h
    exact lt_of_lt_of_le ((hf a).shorter hrest) (hr.leaves hmid).length_le

instance Takes.commit (r : Reader α) [hr : Takes r] : Takes (commit r) where
  shorter h := hr.shorter (commit_eq_ok h)

instance Takes.char (c : Char) : Takes (char c) where
  shorter h := by simp [char_eq_ok h]

instance Takes.text (c : Char) (more : List Char) : Takes (text (c :: more)) where
  shorter h := by
    rw [text_eq_ok h, List.cons_append, List.length_cons, List.length_append]
    omega

/-- A reader that starts with a token. -/
class Opens (r : Reader α) : Prop where
  first {cs rest : List Char} {a : α} : r cs = .ok (a, rest) →
    ∃ c tail, cs = c :: tail ∧ startsToken c = true ∧ rest <:+ tail

instance (priority := low) Takes.ofOpens (r : Reader α) [hr : Opens r] : Takes r where
  shorter h := by
    obtain ⟨c, tail, rfl, -, hsuffix⟩ := hr.first h
    exact Nat.lt_succ_of_le hsuffix.length_le

instance Opens.bind (r : Reader α) (f : α → Reader β) [hr : Opens r] [hf : ∀ a, Consumes (f a)] :
    Opens (r >>= f) where
  first h := by
    obtain ⟨a, mid, hmid, hrest⟩ := bind_eq_ok h
    obtain ⟨c, tail, hcs, hc, hsuffix⟩ := hr.first hmid
    exact ⟨c, tail, hcs, hc, ((hf a).leaves hrest).trans hsuffix⟩

instance Opens.commit (r : Reader α) [hr : Opens r] : Opens (commit r) where
  first h := hr.first (commit_eq_ok h)

theorem Opens.char {c : Char} (hc : startsToken c = true) : Opens (char c) where
  first h := ⟨c, _, char_eq_ok h, hc, List.suffix_rfl⟩

theorem Opens.text {c : Char} (hc : startsToken c = true) (more : List Char) :
    Opens (text (c :: more)) where
  first h := ⟨c, more ++ _, text_eq_ok h, hc, List.suffix_append _ _⟩

/-- Where a reader starts with a token, so does the excerpt. -/
theorem Opens.excerpt (r : Reader α) [hr : Opens r] {a : α}
    (h : r (cs ++ y) = .ok (a, rest ++ y)) :
    ∃ c tail, cs = c :: tail ∧ startsToken c = true ∧ rest <:+ tail := by
  obtain ⟨c, tail, hcs, hc, hsuffix⟩ := hr.first h
  cases cs with
  | nil =>
    have hlen := hsuffix.length_le
    have hlen' := congrArg List.length hcs
    simp at hlen hlen'
    omega
  | cons d left =>
    obtain ⟨rfl, rfl⟩ := List.cons.inj hcs
    refine ⟨d, left, rfl, hc, ?_⟩
    obtain ⟨back, hback⟩ := hsuffix
    rw [← List.append_assoc] at hback
    exact ⟨back, List.append_cancel_right hback⟩

theorem Opens.ends (r : Reader α) [Opens r] {a : α} (h : r (cs ++ y) = .ok (a, rest ++ y))
    (newlines : Bool) : Ends newlines cs := by
  obtain ⟨c, tail, rfl, hc, -⟩ := Opens.excerpt r h
  exact ends_of_startsToken hc newlines tail

/-! ## Readers made from readers -/

section Combinators

variable {P Q : List Char → Prop} {r r' s s' : Reader α} {f f' : α → Reader β}

theorem Alone.weaken (h : Alone y k Q r r') (hPQ : ∀ rest, P rest → Q rest) : Alone y k P r r' :=
  fun _ _ _ hlen hfilled hread hP => h hlen hfilled hread (hPQ _ hP)

theorem Alone.le {n : Nat} (h : Alone y k P r r') (hn : n ≤ k) : Alone y n P r r' :=
  fun _ _ _ hlen => h (lt_of_lt_of_le hlen hn)

theorem Alone.pure (a : α) : Alone y k P (pure a : Reader α) (pure a) := by
  intro cs rest b _ _ h _
  obtain ⟨rfl, hrest⟩ := pure_eq_ok h
  rw [List.append_cancel_right hrest]
  rfl

/-- One reader after the other: what the second one reads tells where the first one stops, given
what was read there. -/
theorem Alone.bindWith {Q : α → List Char → Prop} [hc : Consumes r] [hcf : ∀ a, Consumes (f a)]
    (hr : ∀ {cs rest a}, cs.length < k → Filled cs → r (cs ++ y) = .ok (a, rest ++ y) →
      Q a rest → r' cs = .ok (a, rest))
    (hf : ∀ a, Alone y k P (f a) (f' a))
    (hQ : ∀ {a mid b rest}, Filled mid → f a (mid ++ y) = .ok (b, rest ++ y) → P rest → Q a mid) :
    Alone y k P (r >>= f) (r' >>= f') := by
  intro cs rest b hlen hfilled h hP
  obtain ⟨a, c₁, h₁, h₂⟩ := bind_eq_ok h
  obtain ⟨mid, rfl, hmid⟩ := suffix_between (hc.leaves h₁) ((hcf a).leaves h₂)
  have hfilled' := hfilled.suffix hmid
  rw [bind_ok (hr hlen hfilled h₁ (hQ hfilled' h₂ hP))]
  exact hf a (lt_of_le_of_lt hmid.length_le hlen) hfilled' h₂ hP

/-- One reader after the other, if what the second one reads tells where the first one stops. -/
theorem Alone.bind [Consumes r] [∀ a, Consumes (f a)] (hr : Alone y k Q r r')
    (hf : ∀ a, Alone y k P (f a) (f' a))
    (hQ : ∀ {a mid b rest}, Filled mid → f a (mid ++ y) = .ok (b, rest ++ y) → P rest → Q mid) :
    Alone y k P (r >>= f) (r' >>= f') :=
  Alone.bindWith (fun hlen hfilled h hQ' => hr hlen hfilled h hQ') hf hQ

/-- If the first reader takes a character, the second one has a shorter text. -/
theorem Alone.bindTakes [hc : Consumes r] [ht : Takes r] [hcf : ∀ a, Consumes (f a)]
    (hr : Alone y (k + 1) Q r r') (hf : ∀ a, Alone y k P (f a) (f' a))
    (hQ : ∀ {a mid b rest}, Filled mid → f a (mid ++ y) = .ok (b, rest ++ y) → P rest → Q mid) :
    Alone y (k + 1) P (r >>= f) (r' >>= f') := by
  intro cs rest b hlen hfilled h hP
  obtain ⟨a, c₁, h₁, h₂⟩ := bind_eq_ok h
  obtain ⟨mid, rfl, hmid⟩ := suffix_between (hc.leaves h₁) ((hcf a).leaves h₂)
  have hshorter := ht.shorter h₁
  simp only [List.length_append] at hshorter
  have hfilled' := hfilled.suffix hmid
  rw [bind_ok (hr hlen hfilled h₁ (hQ hfilled' h₂ hP))]
  exact hf a (by omega) hfilled' h₂ hP

/-- One reader after another that can stop anywhere. -/
theorem Alone.andThen [Consumes r] [∀ a, Consumes (f a)] (hr : Alone y k Anywhere r r')
    (hf : ∀ a, Alone y k P (f a) (f' a)) : Alone y k P (r >>= f) (r' >>= f') :=
  hr.bind hf fun _ _ _ => trivial

/-- The second reader may rely on what the first one reads. -/
theorem Alone.andThenOf {S : α → Prop} [hc : Consumes r] [hcf : ∀ a, Consumes (f a)]
    (hr : Alone y k Anywhere r r') (hS : ∀ {cs rest a}, r cs = .ok (a, rest) → S a)
    (hf : ∀ a, S a → Alone y k P (f a) (f' a)) : Alone y k P (r >>= f) (r' >>= f') := by
  intro cs rest b hlen hfilled h hP
  obtain ⟨a, c₁, h₁, h₂⟩ := bind_eq_ok h
  obtain ⟨mid, rfl, hmid⟩ := suffix_between (hc.leaves h₁) ((hcf a).leaves h₂)
  rw [bind_ok (hr hlen hfilled h₁ trivial)]
  exact hf a (hS h₁) (lt_of_le_of_lt hmid.length_le hlen) (hfilled.suffix hmid) h₂ hP

theorem Alone.map [Consumes r] (hr : Alone y k P r r') (g : α → β) :
    Alone y k P (do return g (← r)) (do return g (← r')) := by
  refine Alone.bind hr (fun a => .pure (g a)) fun _ h hP => ?_
  obtain ⟨-, hrest⟩ := pure_eq_ok h
  rwa [← List.append_cancel_right hrest]

theorem Alone.commit (hr : Alone y k P r r') : Alone y k P (commit r) (commit r') :=
  fun _ _ _ hlen hfilled h hP => commit_ok (hr hlen hfilled (commit_eq_ok h) hP)

/-- A choice, if what is not there in front of `y` is not there alone either. -/
theorem Alone.orElse (hr : Alone y k P r r') (hs : Alone y k P s s')
    (habsent : ∀ {cs rest a}, cs.length < k → Filled cs → r (cs ++ y) = .error .absent →
      s (cs ++ y) = .ok (a, rest ++ y) → P rest → r' cs = .error .absent) :
    Alone y k P (r <|> s) (r' <|> s') := by
  intro cs rest a hlen hfilled h hP
  rcases orElse_eq_ok h with hread | ⟨hno, hread⟩
  · exact orElse_ok (hr hlen hfilled hread hP) _
  · rw [orElse_absent (habsent hlen hfilled hno hread hP)]
    exact hs hlen hfilled hread hP

theorem Alone.opt (hr : Alone y k P r r')
    (habsent : ∀ {cs}, cs.length < k → Filled cs → r (cs ++ y) = .error .absent → P cs →
      r' cs = .error .absent) : Alone y k P (opt r) (opt r') := by
  intro cs rest o hlen hfilled h hP
  rcases opt_eq_ok h with ⟨a, rfl, hread⟩ | ⟨rfl, hno, hrest⟩
  · exact opt_ok (hr hlen hfilled hread hP)
  · rw [List.append_cancel_right hrest] at hP ⊢
    exact opt_absent (habsent hlen hfilled hno hP)

theorem Alone.ite (c : Prop) [Decidable c] (hr : Alone y k P r r') (hs : Alone y k P s s') :
    Alone y k P (if c then r else s) (if c then r' else s') := by
  split
  · exact hr
  · exact hs

/-- Bounds on the steps of a reader do not matter as long as they exceed the length of the text. -/
theorem Alone.bounded {r r' : Nat → Reader α}
    (h : ∀ n n', n' ≤ k → Alone y n' P (r n) (r' n')) : Alone y k P (bounded r) (bounded r') :=
  fun cs _ _ hlen hfilled hread hP =>
    h _ (cs.length + 1) hlen (Nat.lt_succ_self _) hfilled hread hP

end Combinators

end HclOverlay.Hcl.Reader
