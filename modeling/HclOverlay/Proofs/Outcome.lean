import Mathlib.Data.List.Basic
import Mathlib.Data.List.Forall2

/-!
# Outcomes

Reading leaves notices and patching changes files; both may fail, and what they left stays when they
do. `outcome` is how such a computation ends together with what it leaves, from any state, and the
equations say what each way of building a computation does to it.
-/

namespace HclOverlay

variable {ε σ α β : Type}

theorem except_bind_ok (a : α) (f : α → Except ε β) : (Except.ok a >>= f) = f a := rfl

/-- A sequence succeeds if both of its parts do. -/
theorem except_bind_eq_ok {m : Except ε α} {f : α → Except ε β} {b : β} (h : (m >>= f) = .ok b) :
    ∃ a, m = .ok a ∧ f a = .ok b := by
  cases m with
  | error e => cases h
  | ok a => exact ⟨a, rfl, h⟩

/-- A sequence fails if one of its parts does. -/
theorem except_bind_eq_error {m : Except ε α} {f : α → Except ε β} {e : ε}
    (h : (m >>= f) = .error e) : m = .error e ∨ ∃ a, m = .ok a ∧ f a = .error e := by
  cases m with
  | error d =>
    cases h
    exact .inl rfl
  | ok a => exact .inr ⟨a, rfl, h⟩

/-- How a computation ends and what it leaves, from any state. -/
def outcome (m : ExceptT ε (StateM σ) α) (s : σ) : Except ε α × σ :=
  StateT.run (ExceptT.run m) s

/-- A sequence goes on from what its first part leaves, unless that part failed. -/
theorem outcome_bind (m : ExceptT ε (StateM σ) α) (f : α → ExceptT ε (StateM σ) β)
    (s : σ) :
    outcome (m >>= f) s =
      match outcome m s with
      | (.ok a, s) => outcome (f a) s
      | (.error e, s) => (.error e, s) := by
  simp only [outcome, ExceptT.run_bind, StateT.run_bind]
  rcases StateT.run (ExceptT.run m) s with ⟨_ | _, _⟩ <;> rfl

theorem outcome_get (s : σ) :
    outcome (get : ExceptT ε (StateM σ) σ) s = (.ok s, s) := rfl

theorem outcome_set (t s : σ) :
    outcome (set t : ExceptT ε (StateM σ) PUnit) s = (.ok (), t) := rfl

theorem outcome_modify (f : σ → σ) (s : σ) :
    outcome (modify f : ExceptT ε (StateM σ) PUnit) s = (.ok (), f s) := rfl

theorem outcome_throw (f : ε) (s : σ) :
    outcome (throw f : ExceptT ε (StateM σ) α) s = (.error f, s) := rfl

theorem outcome_tryCatch (m : ExceptT ε (StateM σ) α) (h : ε → ExceptT ε (StateM σ) α) (s : σ) :
    outcome (tryCatch m h) s =
      match outcome m s with
      | (.ok a, s) => (.ok a, s)
      | (.error e, s) => outcome (h e) s := by
  have hcatch : outcome (tryCatch m h) s =
      (match (outcome m s).1 with
        | .ok a => (pure (.ok a) : StateM σ (Except ε α))
        | .error e => ExceptT.run (h e)) (outcome m s).2 := rfl
  rw [hcatch]
  rcases outcome m s with ⟨_ | _, _⟩ <;> rfl

theorem outcome_lift (e : Except ε α) (s : σ) :
    outcome (liftM e : ExceptT ε (StateM σ) α) s = (e, s) := by
  cases e <;> rfl

/-- What a successful sequence did: its first part succeeded, and the second one from there. -/
theorem outcome_bind_eq_ok {m : ExceptT ε (StateM σ) α}
    {f : α → ExceptT ε (StateM σ) β} {s t : σ} {b : β}
    (h : outcome (m >>= f) s = (.ok b, t)) :
    ∃ a u, outcome m s = (.ok a, u) ∧ outcome (f a) u = (.ok b, t) := by
  rw [outcome_bind] at h
  rcases hm : outcome m s with ⟨e | a, u⟩ <;> rw [hm] at h
  · cases h
  · exact ⟨a, u, rfl, h⟩

/-- What a successful walk along a list gives comes from the members of the list. -/
theorem outcome_mapM_eq_ok {f : α → ExceptT ε (StateM σ) β} {l : List α} {r : List β}
    {s t : σ} (h : outcome (l.mapM f) s = (.ok r, t)) :
    ∀ b ∈ r, ∃ a ∈ l, ∃ u v, outcome (f a) u = (.ok b, v) := by
  induction l generalizing r s with
  | nil =>
    cases h
    simp
  | cons a l ih =>
    rw [List.mapM_cons] at h
    obtain ⟨b, u, hb, h⟩ := outcome_bind_eq_ok h
    obtain ⟨more, v, hmore, h⟩ := outcome_bind_eq_ok h
    cases h
    rintro c (_ | ⟨_, hc⟩)
    · exact ⟨a, List.mem_cons_self, s, u, hb⟩
    · obtain ⟨a', ha', hread⟩ := ih hmore c hc
      exact ⟨a', List.mem_cons_of_mem a ha', hread⟩

/-- What every step of a successful fold keeps, the fold keeps. -/
theorem outcome_foldlM_eq_ok {p : β → Prop} {f : β → α → ExceptT ε (StateM σ) β}
    {l : List α} (hf : ∀ a ∈ l, ∀ b c u v, p b → outcome (f b a) u = (.ok c, v) → p c) {b c : β}
    {s t : σ} (hb : p b) (h : outcome (l.foldlM f b) s = (.ok c, t)) : p c := by
  induction l generalizing b s with
  | nil =>
    cases h
    exact hb
  | cons a l ih =>
    rw [List.foldlM_cons] at h
    obtain ⟨d, u, hd, h⟩ := outcome_bind_eq_ok h
    exact ih (fun a' ha' => hf a' (List.mem_cons_of_mem a ha'))
      (hf a List.mem_cons_self b d s u hb hd) h

/-! ## Results apart from what is left -/

/-- A fold ends as its steps do, if how these end does not depend on what was left before them. -/
theorem outcome_foldlM_fst {f : β → α → ExceptT ε (StateM σ) β} {g : β → α → Except ε β}
    (hfg : ∀ b a s, (outcome (f b a) s).1 = g b a) (l : List α) (b : β) (s : σ) :
    (outcome (l.foldlM f b) s).1 = l.foldlM g b := by
  induction l generalizing b s with
  | nil => rfl
  | cons a l ih =>
    rw [List.foldlM_cons, List.foldlM_cons, outcome_bind, ← hfg b a s]
    rcases outcome (f b a) s with ⟨e | c, t⟩
    · rfl
    · exact ih c t

/-- A walk along a list ends as its steps do, likewise. -/
theorem outcome_mapM_fst {f : α → ExceptT ε (StateM σ) β} {g : α → Except ε β}
    (hfg : ∀ a s, (outcome (f a) s).1 = g a) (l : List α) (s : σ) :
    (outcome (l.mapM f) s).1 = l.mapM g := by
  induction l generalizing s with
  | nil => rfl
  | cons a l ih =>
    rw [List.mapM_cons, List.mapM_cons, outcome_bind, ← hfg a s]
    rcases outcome (f a) s with ⟨e | b, t⟩
    · rfl
    · change (outcome (l.mapM f >>= fun bs => pure (b :: bs)) t).1 = _
      rw [outcome_bind, ← ih t]
      rcases outcome (l.mapM f) t with ⟨e | bs, u⟩ <;> rfl

/-- Every member of a list has a partner in a list of the same make. -/
theorem exists_of_mem_forall₂ {R : α → β → Prop} {l : List α} {r : List β}
    (h : List.Forall₂ R l r) : ∀ a ∈ l, ∃ b ∈ r, R a b := by
  induction h with
  | nil => simp
  | @cons a b l r hab _ ih =>
    refine List.forall_mem_cons.2 ⟨⟨b, List.mem_cons_self, hab⟩, fun c hc => ?_⟩
    obtain ⟨d, hd, hcd⟩ := ih c hc
    exact ⟨d, List.mem_cons_of_mem b hd, hcd⟩

/-- A walk along a list succeeds if every step does. -/
theorem mapM_eq_ok_iff {f : α → Except ε β} {l : List α} {r : List β} :
    l.mapM f = .ok r ↔ List.Forall₂ (fun a b => f a = .ok b) l r := by
  induction l generalizing r with
  | nil =>
    rw [List.forall₂_nil_left_iff]
    exact ⟨fun h => by cases h; rfl, fun h => by rw [h]; rfl⟩
  | cons a l ih =>
    rw [List.mapM_cons, List.forall₂_cons_left_iff]
    constructor
    · intro h
      obtain ⟨b, hb, h⟩ := except_bind_eq_ok h
      obtain ⟨bs, hbs, h⟩ := except_bind_eq_ok h
      cases h
      exact ⟨b, bs, hb, ih.1 hbs, rfl⟩
    · rintro ⟨b, bs, hb, hbs, rfl⟩
      rw [hb, ih.2 hbs]
      rfl

/-- It fails as its first step that does. -/
theorem mapM_eq_error_iff {f : α → Except ε β} {l : List α} {e : ε} :
    l.mapM f = .error e ↔
      ∃ front a back, l = front ++ a :: back ∧ (∀ b ∈ front, ∃ c, f b = .ok c) ∧
        f a = .error e := by
  induction l with
  | nil => exact ⟨nofun, fun ⟨front, a, back, h, _⟩ => by simp at h⟩
  | cons a l ih =>
    rw [List.mapM_cons]
    constructor
    · intro h
      rcases except_bind_eq_error h with ha | ⟨b, ha, h⟩
      · exact ⟨[], a, l, rfl, by simp, ha⟩
      · rcases except_bind_eq_error h with hl | ⟨bs, -, h⟩
        · obtain ⟨front, c, back, rfl, hfront, hc⟩ := ih.1 hl
          exact ⟨a :: front, c, back, rfl, List.forall_mem_cons.2 ⟨⟨b, ha⟩, hfront⟩, hc⟩
        · cases h
    · rintro ⟨front, c, back, hsplit, hfront, hc⟩
      cases front with
      | nil =>
        obtain ⟨rfl, rfl⟩ := List.cons.inj hsplit
        rw [hc]
        rfl
      | cons d front =>
        obtain ⟨rfl, rfl⟩ := List.cons.inj hsplit
        obtain ⟨⟨b, hb⟩, hfront⟩ := List.forall_mem_cons.1 hfront
        rw [hb, ih.2 ⟨front, c, back, rfl, hfront, hc⟩]
        rfl

end HclOverlay
