import HclOverlay.Overlay.Patch

/-!
# How attributes select strategies

An attribute of a patch block selects a strategy by a call: `merge(x)` merges `x`. Such a call holds
nothing but the name of the strategy and `x`, so it can be taken off. But a call can also expand its
argument, as in `merge(x...)`. This is taken off as well, and the dots are lost.

* `Expr.Calls` — a call of the function named after a strategy on one argument.
* `Expr.Wraps`, `Expr.Expands` — the call says that and no more, or its argument is expanded.
* `Expr.Lossless` — what one expects of the strategy of an attribute.
* `strategyOf_lossless_iff` — **it holds of all expressions but those that expand**.
-/

namespace HclOverlay

open Hcl Overlay

namespace Hcl.Expr

/-- A call of the function named after a strategy, without a namespace, on a single argument. -/
inductive Calls (s : Strategy) (x : Expr) (ending : ArgsEnd) : Expr → Prop
  | call (before behind lead trail closing : Trivia) :
      Calls s x ending (.call [⟨before, s.name, behind⟩] [⟨lead, x, trail⟩] ending closing)

/-- The call `s(x)`, up to trivia and a trailing comma. -/
def Wraps (s : Strategy) (x e : Expr) : Prop := Calls s x .plain e ∨ Calls s x .comma e

/-- The call `s(x...)` for some strategy and argument. -/
def Expands (e : Expr) : Prop := ∃ s x, Calls s x .expand e

variable {s s' : Strategy} {x x' e : Expr} {ending ending' : ArgsEnd}

/-- A call reads: the name of its strategy, a parenthesis, its argument and another parenthesis. -/
theorem Calls.print_eq (h : Calls s x ending e) :
    ∃ before behind lead trail closing, e.print = before ++ s.name.toList ++ behind ++ '(' ::
      (lead ++ x.print ++ trail ++ ending.chars ++ closing ++ [')']) := by
  obtain ⟨before, behind, lead, trail, closing⟩ := h
  refine ⟨before, behind, lead, trail, closing, ?_⟩
  simp [print, stretches, itemsStretches, moreItemsStretches, paddedStretches, plain, pathChars,
    nameChars, join_append, Stretch.chars, Stretch.escapesAfter]

theorem Calls.strategyOf_eq (h : Calls s x ending e) : strategyOf e = (s, x) := by
  obtain ⟨before, behind, lead, trail, closing⟩ := h
  rw [strategyOf, Strategy.ofFunction?_eq_some_iff.2 rfl]

/-- A call is more than its argument. -/
theorem Calls.ne (h : Calls s x ending e) : x ≠ e := by
  obtain ⟨before, behind, lead, trail, closing⟩ := h
  intro heq
  have hsize := congrArg sizeOf heq
  simp only [call.sizeOf_spec, List.cons.sizeOf_spec, Padded.mk.sizeOf_spec] at hsize
  omega

/-- A call has one strategy, one argument and one ending. -/
theorem Calls.unique (h : Calls s x ending e) (h' : Calls s' x' ending' e) :
    s = s' ∧ x = x' ∧ ending = ending' := by
  have hparts := h.strategyOf_eq.symm.trans h'.strategyOf_eq
  obtain ⟨rfl, rfl⟩ := Prod.mk.inj hparts
  obtain ⟨before, behind, lead, trail, closing⟩ := h
  cases h'
  exact ⟨rfl, rfl, rfl⟩

/-- An expression is kept whole unless it is a call of a strategy. -/
theorem strategyOf_cases (e : Expr) :
    (∃ s x ending, Calls s x ending e) ∨ strategyOf e = (.replace, e) := by
  unfold strategyOf
  split
  · next function arg ending closing =>
    split
    · next s hs =>
      obtain ⟨before, name, behind⟩ := function
      obtain rfl : name = s.name := Strategy.ofFunction?_eq_some_iff.1 hs
      exact .inl ⟨s, arg.item, ending, .call before behind arg.before arg.after closing⟩
    · exact .inr rfl
  · exact .inr rfl

theorem Wraps.strategyOf_eq (h : Wraps s x e) : strategyOf e = (s, x) :=
  h.elim Calls.strategyOf_eq Calls.strategyOf_eq

theorem Expands.not_wraps (h : Expands e) : ¬ Wraps s x e := by
  obtain ⟨s', x', hcalls⟩ := h
  rintro (h | h)
  · cases (h.unique hcalls).2.2
  · cases (h.unique hcalls).2.2

/-- What one expects of the strategy of an attribute: nothing of its expression gets lost. -/
structure Lossless (e : Expr) : Prop where
  /-- an expression that is kept whole is a replacement -/
  whole : (strategyOf e).2 = e → (strategyOf e).1 = .replace
  /-- what is taken off is the call of the strategy and nothing else -/
  part : (strategyOf e).2 ≠ e → Wraps (strategyOf e).1 (strategyOf e).2 e
  /-- an expanded argument is left in its call -/
  expanded : Expands e → strategyOf e = (.replace, e)
  /-- what is no call of a strategy replaces as a whole -/
  replaces : (∀ s x, ¬ Wraps s x e) → patchAttribute e = ⟨.replace, e.value⟩

end Hcl.Expr

open Expr

/-- **Only dots get lost.** The call of a strategy is taken off in any spelling, and its text is
that of the strategy and its argument, with trivia and a comma in between. The strategy of an
attribute says all that its expression says if and only if this is not the call of a strategy on an
expanded argument. -/
theorem strategyOf_lossless_iff (e : Expr) :
    (∀ s x, Wraps s x e → strategyOf e = (s, x) ∧
      ∃ (before behind lead trail closing : Trivia) (comma : List Char),
        (comma = [] ∨ comma = [',']) ∧
        e.print = before ++ s.name.toList ++ behind ++ '(' ::
          (lead ++ x.print ++ trail ++ comma ++ closing ++ [')'])) ∧
      (Lossless e ↔ ¬ Expands e) := by
  refine ⟨fun s x h => ⟨h.strategyOf_eq, ?_⟩, fun h hexpands => ?_, fun h => ?_⟩
  · rcases h with h | h
    · obtain ⟨before, behind, lead, trail, closing, hprint⟩ := h.print_eq
      exact ⟨before, behind, lead, trail, closing, [], .inl rfl, hprint⟩
    · obtain ⟨before, behind, lead, trail, closing, hprint⟩ := h.print_eq
      exact ⟨before, behind, lead, trail, closing, [','], .inr rfl, hprint⟩
  · obtain ⟨s, x, hcalls⟩ := hexpands
    have hpart := h.part (by rw [hcalls.strategyOf_eq]; exact hcalls.ne)
    exact Expands.not_wraps ⟨s, x, hcalls⟩ hpart
  · rcases strategyOf_cases e with ⟨s, x, ending, hcalls⟩ | hwhole
    · have hwraps : Wraps s x e := by
        cases ending with
        | plain => exact .inl hcalls
        | comma => exact .inr hcalls
        | expand => exact absurd ⟨s, x, hcalls⟩ h
      have heq := hcalls.strategyOf_eq
      exact ⟨fun hsame => absurd (by rw [← hsame, heq]) hcalls.ne, fun _ => by rwa [heq],
        fun hexpands => absurd hexpands h, fun hnone => absurd hwraps (hnone s x)⟩
    · refine ⟨fun _ => by rw [hwhole], fun hne => absurd (by rw [hwhole]) hne, fun _ => hwhole,
        fun _ => ?_⟩
      rw [patchAttribute, hwhole]

/-- In `merge(x...)` the dots get lost. -/
example (x : Expr) : strategyOf (.call [.bare "merge"] [.bare x] .expand []) = (.merge, x) := rfl

end HclOverlay
