import HclOverlay.Build.Session
import HclOverlay.Proofs.Outcome

/-!
# Builds step by step

What a computation of a build does to the file tree and how it ends. Notices and printed texts are
left out: no build looks at them.

* `Does` — a computation leads from one tree to another one and ends in some way.
* `does_bind` and its companions — what computations do that are built from others.
* `Looks` — computations that only look at the tree; `reads` is how they end.
* `reads_bind_eq_ok` — what a sequence of looks has seen.
-/

namespace HclOverlay.Build

open Work

variable {α β : Type} {t t' : FileTree}

/-- A computation leads from one tree to another one and ends with a result. -/
def Does (w : Work α) (t : FileTree) (r : Except Failure α) (t' : FileTree) : Prop :=
  ∃ s, s.tree = t ∧ (outcome w s).1 = r ∧ (outcome w s).2.tree = t'

theorem does_outcome (w : Work α) (s : Session) :
    Does w s.tree (outcome w s).1 (outcome w s).2.tree := ⟨s, rfl, rfl, rfl⟩

/-- A sequence ends where its first part fails, or goes on from there. -/
theorem does_bind {w : Work α} {f : α → Work β} {r : Except Failure β}
    (h : Does (w >>= f) t r t') :
    (∃ e, Does w t (.error e) t' ∧ r = .error e) ∨
      ∃ a t₁, Does w t (.ok a) t₁ ∧ Does (f a) t₁ r t' := by
  obtain ⟨s, rfl, hr, ht⟩ := h
  rw [outcome_bind] at hr ht
  rcases hw : outcome w s with ⟨e | a, s₁⟩ <;> rw [hw] at hr ht
  · exact .inl ⟨e, ⟨s, rfl, by rw [hw], by rw [hw]; exact ht⟩, hr.symm⟩
  · exact .inr ⟨a, s₁.tree, ⟨s, rfl, by rw [hw], by rw [hw]⟩, s₁, rfl, hr, ht⟩

theorem does_bind_ok {w : Work α} {f : α → Work β} {b : β} (h : Does (w >>= f) t (.ok b) t') :
    ∃ a t₁, Does w t (.ok a) t₁ ∧ Does (f a) t₁ (.ok b) t' := by
  rcases does_bind h with ⟨e, -, heq⟩ | h
  · cases heq
  · exact h

theorem does_pure {a : α} {r : Except Failure α} (h : Does (pure a) t r t') : r = .ok a ∧ t' = t := by
  obtain ⟨s, rfl, rfl, rfl⟩ := h
  exact ⟨rfl, rfl⟩

theorem does_throw {e : Failure} {r : Except Failure α} (h : Does (throw e) t r t') :
    r = .error e ∧ t' = t := by
  obtain ⟨s, rfl, rfl, rfl⟩ := h
  exact ⟨rfl, rfl⟩

theorem does_tree {r : Except Failure FileTree} (h : Does tree t r t') : r = .ok t ∧ t' = t := by
  obtain ⟨s, rfl, rfl, rfl⟩ := h
  exact ⟨rfl, rfl⟩

theorem does_say {text : String} {r : Except Failure Unit} (h : Does (say text) t r t') :
    r = .ok () ∧ t' = t := by
  obtain ⟨s, rfl, rfl, rfl⟩ := h
  exact ⟨rfl, rfl⟩

theorem does_warn {n : Notice} {r : Except Failure Unit} (h : Does (warn n) t r t') :
    r = .ok () ∧ t' = t := by
  obtain ⟨s, rfl, rfl, rfl⟩ := h
  exact ⟨rfl, rfl⟩

theorem does_warnAll {ns : List Notice} {r : Except Failure Unit} (h : Does (warnAll ns) t r t') :
    r = .ok () ∧ t' = t := by
  obtain ⟨s, rfl, rfl, rfl⟩ := h
  exact ⟨rfl, rfl⟩

theorem does_lift {m : Noted α} {r : Except Failure α} (h : Does (lift m) t r t') :
    r = m.run.1 ∧ t' = t := by
  obtain ⟨s, rfl, rfl, rfl⟩ := h
  rw [lift]
  rcases m.run with ⟨_ | _, _⟩ <;> exact ⟨rfl, rfl⟩

theorem does_look {wrap : FileError → Failure} {f : FileTree → Except FileError α}
    {r : Except Failure α} (h : Does (look wrap f) t r t') :
    r = (f t).mapError wrap ∧ t' = t := by
  obtain ⟨s, rfl, rfl, rfl⟩ := h
  have htree : outcome tree s = (.ok s.tree, s) := rfl
  simp only [look, outcome_bind, htree]
  rcases f s.tree with e | a <;> exact ⟨rfl, rfl⟩

theorem does_look_ok {wrap : FileError → Failure} {f : FileTree → Except FileError α} {a : α}
    (h : Does (look wrap f) t (.ok a) t') : f t = .ok a ∧ t' = t := by
  obtain ⟨hr, rfl⟩ := does_look h
  cases hf : f t' with
  | error e =>
    rw [hf] at hr
    cases hr
  | ok b =>
    rw [hf] at hr
    cases hr
    exact ⟨rfl, rfl⟩

/-- An edit of the tree. -/
theorem does_onFile {p : Path} {e : FileTree.Edit α} {r : Except Failure α}
    (h : Does (onFile p e) t r t') :
    r = (outcome e t).1.mapError (.file p) ∧ t' = (outcome e t).2 := by
  obtain ⟨s, rfl, rfl, rfl⟩ := h
  have hedit : outcome (onFile p e) s =
      ((outcome e s.tree).1.mapError (.file p), { s with tree := (outcome e s.tree).2 }) := by
    have hrun : e.run s.tree = outcome e s.tree := rfl
    simp only [onFile, outcome_bind, outcome_get, outcome_set, hrun]
    rcases (outcome e s.tree).1 with e | a <;> rfl
  rw [hedit]
  exact ⟨rfl, rfl⟩

theorem does_attempt {w : Work α} {r : Except Failure (Except Failure α)}
    (h : Does (attempt w) t r t') : ∃ result, r = .ok result ∧ Does w t result t' := by
  obtain ⟨s, rfl, rfl, rfl⟩ := h
  exact ⟨(outcome w s).1, rfl, does_outcome w s⟩

/-- A walk along a list does one step after the other. -/
theorem does_forM {f : α → Work PUnit} {P : FileTree → FileTree → Prop} (hrefl : ∀ t, P t t)
    (htrans : ∀ {t t₁ t'}, P t t₁ → P t₁ t' → P t t')
    {l : List α} (hf : ∀ a ∈ l, ∀ t r t', Does (f a) t r t' → P t t') {r : Except Failure PUnit}
    (h : Does (l.forM f) t r t') : P t t' := by
  induction l generalizing t with
  | nil =>
    obtain ⟨-, rfl⟩ := does_pure h
    exact hrefl _
  | cons a l ih =>
    change Does (f a >>= fun _ => l.forM f) t r t' at h
    rcases does_bind h with ⟨e, h, -⟩ | ⟨u, t₁, h₁, h⟩
    · exact hf a List.mem_cons_self _ _ _ h
    · exact htrans (hf a List.mem_cons_self _ _ _ h₁)
        (ih (fun b hb => hf b (List.mem_cons_of_mem a hb)) h)

theorem does_forM_cons {f : α → Work PUnit} {a : α} {l : List α}
    (h : Does ((a :: l).forM f) t (.ok ()) t') :
    ∃ u, Does (f a) t (.ok ()) u ∧ Does (l.forM f) u (.ok ()) t' := by
  change Does (f a >>= fun _ => l.forM f) t (.ok ()) t' at h
  obtain ⟨u, t₁, h₁, h₂⟩ := does_bind_ok h
  exact ⟨t₁, h₁, h₂⟩

/-- What every step of a walk keeps, the walk keeps, if it ends well. -/
theorem does_forM_ok {P : FileTree → Prop} {f : α → Work PUnit} {l : List α}
    (hf : ∀ a ∈ l, ∀ {t t'}, P t → Does (f a) t (.ok ()) t' → P t') (ht : P t)
    (h : Does (l.forM f) t (.ok ()) t') : P t' := by
  induction l generalizing t with
  | nil =>
    obtain ⟨-, rfl⟩ := does_pure h
    exact ht
  | cons a l ih =>
    obtain ⟨u, hfirst, hrest⟩ := does_forM_cons h
    exact ih (fun b hb => hf b (List.mem_cons_of_mem a hb)) (hf a List.mem_cons_self ht hfirst) hrest

/-! ## Looking -/

/-- How a computation ends that starts with nothing printed. -/
def reads (w : Work α) (t : FileTree) : Except Failure α := (outcome w ⟨t, [], []⟩).1

/-- A computation that changes no file and ends in a way that depends on the tree alone. -/
class Looks (w : Work α) : Prop where
  does : ∀ {t r t'}, Does w t r t' → t' = t ∧ r = reads w t

theorem does_reads (w : Work α) [Looks w] (t : FileTree) : Does w t (reads w t) t := by
  have h := does_outcome w ⟨t, [], []⟩
  rwa [(Looks.does h).1] at h

/-- Whatever ends in one way only ends as it does from the start. -/
theorem Looks.of_unique {w : Work α} {result : FileTree → Except Failure α}
    (h : ∀ {t r t'}, Does w t r t' → r = result t ∧ t' = t) : Looks w := by
  refine ⟨fun hdoes => ?_⟩
  obtain ⟨rfl, rfl⟩ := h hdoes
  exact ⟨rfl, (h (does_outcome w ⟨_, [], []⟩)).1.symm⟩

instance Looks.pure (a : α) : Looks (pure a : Work α) := .of_unique does_pure

instance Looks.throw (e : Failure) : Looks (throw e : Work α) := .of_unique does_throw

instance Looks.tree : Looks tree := .of_unique does_tree

instance Looks.say (text : String) : Looks (say text) := .of_unique does_say

instance Looks.warn (n : Notice) : Looks (warn n) := .of_unique does_warn

instance Looks.warnAll (ns : List Notice) : Looks (warnAll ns) := .of_unique does_warnAll

instance Looks.lift (m : Noted α) : Looks (lift m) := .of_unique does_lift

instance Looks.look (wrap : FileError → Failure) (f : FileTree → Except FileError α) :
    Looks (look wrap f) := .of_unique does_look

instance Looks.readText (p : Path) : Looks (readText p) := Looks.look _ _

theorem does_bind_looks {w : Work α} {f : α → Work β} [hw : Looks w] [hf : ∀ a, Looks (f a)]
    {r : Except Failure β} (h : Does (w >>= f) t r t') :
    r = ((reads w t).bind fun a => reads (f a) t) ∧ t' = t := by
  rcases does_bind h with ⟨e, hfirst, rfl⟩ | ⟨a, t₁, hfirst, hsecond⟩
  · obtain ⟨rfl, hr⟩ := hw.does hfirst
    rw [← hr]
    exact ⟨rfl, rfl⟩
  · obtain ⟨rfl, hr₁⟩ := hw.does hfirst
    obtain ⟨rfl, hr⟩ := (hf a).does hsecond
    rw [← hr₁]
    exact ⟨hr, rfl⟩

/-- Looks one after the other. -/
instance Looks.bind (w : Work α) (f : α → Work β) [Looks w] [∀ a, Looks (f a)] :
    Looks (w >>= f) := .of_unique does_bind_looks

instance Looks.ite (c : Prop) [Decidable c] (w v : Work α) [hw : Looks w] [hv : Looks v] :
    Looks (if c then w else v) := by
  split
  · exact hw
  · exact hv

instance Looks.forM (f : α → Work PUnit) [∀ a, Looks (f a)] (l : List α) : Looks (l.forM f) := by
  induction l with
  | nil => exact Looks.pure PUnit.unit
  | cons a l ih => exact Looks.bind (f a) fun _ => l.forM f

theorem reads_bind (w : Work α) (f : α → Work β) [Looks w] [∀ a, Looks (f a)] (t : FileTree) :
    reads (w >>= f) t = (reads w t).bind fun a => reads (f a) t :=
  (does_bind_looks (does_reads (w >>= f) t)).1

/-- What a sequence of looks has seen. -/
theorem reads_bind_eq_ok {w : Work α} {f : α → Work β} [Looks w] [∀ a, Looks (f a)] {b : β}
    (h : reads (w >>= f) t = .ok b) : ∃ a, reads w t = .ok a ∧ reads (f a) t = .ok b := by
  rw [reads_bind] at h
  exact except_bind_eq_ok h

/-- A part of a result that is there. -/
theorem exists_ok {ε : Type} {r : Except ε α} {f : α → β} {b : β}
    (h : r.toOption.map f = some b) : ∃ a, r = .ok a ∧ f a = b := by
  cases r with
  | error e => cases h
  | ok a => exact ⟨a, rfl, Option.some.inj h⟩

theorem reads_look_eq_ok {wrap : FileError → Failure} {f : FileTree → Except FileError α} {a : α}
    (h : reads (look wrap f) t = .ok a) : f t = .ok a := by
  have hdoes := does_reads (look wrap f) t
  rw [h] at hdoes
  exact (does_look_ok hdoes).1

theorem reads_lift (m : Noted α) (t : FileTree) : reads (lift m) t = m.run.1 :=
  (does_lift (does_reads (lift m) t)).1

end HclOverlay.Build
