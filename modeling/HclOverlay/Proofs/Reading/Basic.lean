import HclOverlay.Hcl.Reader.Expr

/-!
# Running readers

Readers are run from left to right over a text that is known piece by piece. For each general reader
there is an equation for what it does on such a text, and for those that later proofs take apart
there is an inversion: what must have happened for the reader to succeed.

* `bind_ok`, `bind_error` — one step of a run; `bind_eq_ok` takes a finished run apart.
* `char_self`, `text_append`, `flag_self`, … — readers of given text on text that starts with it.
* `orElse_ok`, `orElse_absent`, `opt_ok`, `opt_absent`, `commit_ok` — choices.
* `behind_ok`, `behind_none` — looking ahead behind something skipped.
-/

namespace HclOverlay.Hcl.Reader

variable {α β : Type} {cs rest : List Char}

/-! ## Steps of a run -/

@[simp] theorem pure_apply (a : α) (cs : List Char) : (pure a : Reader α) cs = .ok (a, cs) := rfl

theorem bind_apply (r : Reader α) (f : α → Reader β) (cs : List Char) :
    (r >>= f) cs =
      match r cs with
      | .ok (a, rest) => f a rest
      | .error m => .error m := rfl

/-- A run goes on behind what the first reader read. -/
theorem bind_ok {r : Reader α} {a : α} (h : r cs = .ok (a, rest)) (f : α → Reader β) :
    (r >>= f) cs = f a rest := by
  rw [bind_apply, h]

/-- A run fails where its first reader fails. -/
theorem bind_error {r : Reader α} {m : Miss} (h : r cs = .error m) (f : α → Reader β) :
    (r >>= f) cs = .error m := by
  rw [bind_apply, h]

/-- Inversion for `bind`. -/
theorem bind_eq_ok {r : Reader α} {f : α → Reader β} {b : β}
    (h : (r >>= f) cs = .ok (b, rest)) :
    ∃ a mid, r cs = .ok (a, mid) ∧ f a mid = .ok (b, rest) := by
  rw [bind_apply] at h
  rcases hr : r cs with m | ⟨a, mid⟩ <;> rw [hr] at h
  · cases h
  · exact ⟨a, mid, rfl, h⟩

/-- Inversion for `pure`. -/
theorem pure_eq_ok {a b : α} (h : (pure a : Reader α) cs = .ok (b, rest)) : b = a ∧ rest = cs := by
  cases h
  exact ⟨rfl, rfl⟩

theorem map_ok {r : Reader α} {a : α} (h : r cs = .ok (a, rest)) (f : α → β) :
    (f <$> r) cs = .ok (f a, rest) := by
  change (r >>= fun a => pure (f a)) cs = _
  rw [bind_ok h]
  rfl

/-! ## Choices -/

theorem orElse_apply (r s : Reader α) (cs : List Char) :
    (r <|> s) cs =
      match r cs with
      | .error .absent => s cs
      | found => found := rfl

theorem orElse_ok {r : Reader α} {a : α} (h : r cs = .ok (a, rest)) (s : Reader α) :
    (r <|> s) cs = .ok (a, rest) := by
  rw [orElse_apply, h]

theorem orElse_malformed {r : Reader α} (h : r cs = .error .malformed) (s : Reader α) :
    (r <|> s) cs = .error .malformed := by
  rw [orElse_apply, h]

theorem orElse_absent {r : Reader α} (h : r cs = .error .absent) (s : Reader α) :
    (r <|> s) cs = s cs := by
  rw [orElse_apply, h]

/-- Inversion for a choice. -/
theorem orElse_eq_ok {r s : Reader α} {a : α} (h : (r <|> s) cs = .ok (a, rest)) :
    r cs = .ok (a, rest) ∨ (r cs = .error .absent ∧ s cs = .ok (a, rest)) := by
  rw [orElse_apply] at h
  rcases hr : r cs with (_ | _) | ⟨b, mid⟩ <;> rw [hr] at h
  · exact .inr ⟨rfl, h⟩
  · cases h
  · exact .inl h

theorem commit_ok {r : Reader α} {a : α} (h : r cs = .ok (a, rest)) :
    commit r cs = .ok (a, rest) := orElse_ok h _

theorem commit_error {r : Reader α} {m : Miss} (h : r cs = .error m) :
    commit r cs = .error .malformed := by
  cases m with
  | absent => exact orElse_absent h _
  | malformed => exact orElse_malformed h _

/-- Inversion for what must be there. -/
theorem commit_eq_ok {r : Reader α} {a : α} (h : commit r cs = .ok (a, rest)) :
    r cs = .ok (a, rest) := by
  rcases orElse_eq_ok h with h | ⟨-, h⟩
  · exact h
  · cases h

theorem opt_ok {r : Reader α} {a : α} (h : r cs = .ok (a, rest)) :
    opt r cs = .ok (some a, rest) := by
  rw [opt, h]

theorem opt_absent {r : Reader α} (h : r cs = .error .absent) : opt r cs = .ok (none, cs) := by
  rw [opt, h]

theorem opt_malformed {r : Reader α} (h : r cs = .error .malformed) :
    opt r cs = .error .malformed := by
  rw [opt, h]

/-- Inversion for what may be there. -/
theorem opt_eq_ok {r : Reader α} {o : Option α} (h : opt r cs = .ok (o, rest)) :
    (∃ a, o = some a ∧ r cs = .ok (a, rest)) ∨
      (o = none ∧ r cs = .error .absent ∧ rest = cs) := by
  rw [opt] at h
  rcases hr : r cs with (_ | _) | ⟨a, mid⟩ <;> rw [hr] at h <;> cases h
  · exact .inr ⟨rfl, rfl, rfl⟩
  · exact .inl ⟨a, rfl, rfl⟩

/-- Inversion for what a function finds. -/
theorem ofOption_eq_ok {found : List Char → Option (α × List Char)} {a : α}
    (h : ofOption found cs = .ok (a, rest)) : found cs = some (a, rest) := by
  rw [ofOption] at h
  split at h
  · next heq =>
    cases h
    exact heq
  · cases h

/-! ## Given text -/

@[simp] theorem char_self (c : Char) (rest : List Char) : char c (c :: rest) = .ok ((), rest) :=
  if_pos rfl

theorem char_of_ne {c : Char} (h : cs.head? ≠ some c) : char c cs = .error .absent := by
  cases cs with
  | nil => rfl
  | cons d rest => exact if_neg fun hd => h (congrArg some hd)

/-- Inversion for a given character. -/
theorem char_eq_ok {c : Char} {u : Unit} (h : char c cs = .ok (u, rest)) : cs = c :: rest := by
  cases cs with
  | nil => cases h
  | cons d tail =>
    rw [char] at h
    split at h
    · next hd =>
      cases h
      rw [hd]
    · cases h

@[simp] theorem flag_self (c : Char) (rest : List Char) : flag c (c :: rest) = .ok (true, rest) :=
  if_pos rfl

theorem flag_of_ne {c : Char} (h : cs.head? ≠ some c) : flag c cs = .ok (false, cs) := by
  cases cs with
  | nil => rfl
  | cons d rest => exact if_neg fun hd => h (congrArg some hd)

/-- Inversion for an optional character. -/
theorem flag_eq_ok {c : Char} {b : Bool} (h : flag c cs = .ok (b, rest)) :
    (b = true ∧ cs = c :: rest) ∨ (b = false ∧ rest = cs ∧ cs.head? ≠ some c) := by
  cases cs with
  | nil =>
    cases h
    exact .inr ⟨rfl, rfl, by simp⟩
  | cons d tail =>
    rw [flag] at h
    split at h
    · next hd =>
      cases h
      exact .inl ⟨rfl, by rw [hd]⟩
    · next hd =>
      cases h
      exact .inr ⟨rfl, rfl, by simpa using hd⟩

theorem stripText_append (expected rest : List Char) :
    stripText expected (expected ++ rest) = some rest := by
  induction expected with
  | nil => rfl
  | cons c expected ih => rw [List.cons_append, stripText, if_pos rfl, ih]

theorem stripText_eq_some {expected cs rest : List Char}
    (h : stripText expected cs = some rest) : cs = expected ++ rest := by
  induction expected generalizing cs with
  | nil => exact Option.some.inj h
  | cons e expected ih =>
    cases cs with
    | nil => cases h
    | cons c cs =>
      rw [stripText] at h
      split at h
      · next hc => rw [hc, ih h, List.cons_append]
      · cases h

@[simp] theorem text_append (expected rest : List Char) :
    text expected (expected ++ rest) = .ok ((), rest) := by
  rw [text, ofOption, stripText_append, Option.map_some]

/-- Inversion for a given text. -/
theorem text_eq_ok {expected : List Char} {u : Unit} (h : text expected cs = .ok (u, rest)) :
    cs = expected ++ rest := by
  obtain ⟨tail, hstrip, heq⟩ := Option.map_eq_some_iff.1 (ofOption_eq_ok h)
  cases heq
  exact stripText_eq_some hstrip

/-! ## Looking ahead -/

theorem behind_ok {skip : Reader α} {starts : List Char → Bool} {r : α → Reader β} {a : α} {b : β}
    {mid : List Char} (hskip : skip cs = .ok (a, mid)) (hstarts : starts mid = true)
    (hr : r a mid = .ok (b, rest)) : behind skip starts r cs = .ok (some b, rest) := by
  rw [behind, hskip]
  simp only [hstarts, if_true, hr]

theorem behind_none {skip : Reader α} {starts : List Char → Bool} {r : α → Reader β} {a : α}
    {mid : List Char} (hskip : skip cs = .ok (a, mid)) (hstarts : starts mid = false) :
    behind skip starts r cs = .ok (none, cs) := by
  rw [behind, hskip]
  simp [hstarts]

/-- Inversion for looking ahead. -/
theorem behind_eq_ok {skip : Reader α} {starts : List Char → Bool} {r : α → Reader β}
    {o : Option β} (h : behind skip starts r cs = .ok (o, rest)) :
    ∃ a mid, skip cs = .ok (a, mid) ∧
      ((∃ b, o = some b ∧ starts mid = true ∧ r a mid = .ok (b, rest)) ∨
        (o = none ∧ starts mid = false ∧ rest = cs)) := by
  rw [behind] at h
  rcases hs : skip cs with m | ⟨a, mid⟩ <;> rw [hs] at h <;> dsimp only at h
  · cases h
  refine ⟨a, mid, rfl, ?_⟩
  cases hm : starts mid with
  | true =>
    rw [hm, if_pos rfl] at h
    rcases hr : r a mid with m | ⟨b, tail⟩ <;> rw [hr] at h <;> cases h
    exact .inl ⟨b, rfl, rfl, rfl⟩
  | false =>
    rw [hm, if_neg Bool.false_ne_true] at h
    cases h
    exact .inr ⟨rfl, rfl, rfl⟩

/-- A whole text is read when a reader leaves nothing of it. -/
theorem all?_eq_some {r : Reader α} {a : α} : all? r cs = some a ↔ r cs = .ok (a, []) := by
  rw [all?]
  constructor
  · intro h
    split at h
    · next heq =>
      cases h
      exact heq
    · cases h
  · intro h
    rw [h]

end HclOverlay.Hcl.Reader
