import HclOverlay.Proofs.Path.Locations
import Mathlib.Data.Char
import Mathlib.Data.List.Lex
import Mathlib.Data.List.Sort
import Mathlib.Data.Prod.Lex

/-!
# The order of paths

Paths are sorted by their components, so a sorted list of paths with different components depends on
its members alone: in which order a tree holds them does not matter.

* `Component.key`, `lt_iff` — the order as a lexicographic one.
* `perm_sort`, `pairwise_sort` — sorted paths are the same paths, in order.
* `eq_of_sorted` — **sorted lists with the same members are the same**.
* `below_injective` — paths below a directory have different components.
-/

namespace HclOverlay.Path

/-- A component in the order of components. -/
def Component.key : Component → ℕ ×ₗ List Char
  | .root => toLex (0, [])
  | .here => toLex (1, [])
  | .up => toLex (2, [])
  | .name n => toLex (3, n.toList)

theorem Component.key_injective {a b : Component} (h : a.key = b.key) : a = b := by
  have hpair := congrArg ofLex h
  cases a <;> cases b <;> simp_all [key, String.toList_inj]

theorem Component.lt_iff (a b : Component) : a.lt b = true ↔ a.key < b.key := by
  by_cases hnames : ∃ m n, a = .name m ∧ b = .name n
  · obtain ⟨m, n, rfl, rfl⟩ := hnames
    rw [lt, key, key, Prod.Lex.toLex_lt_toLex]
    simp only [decide_eq_true_iff, lt_irrefl, false_or, true_and]
    exact Iff.rfl
  · cases a <;> cases b <;> simp [lt, key, Prod.Lex.toLex_lt_toLex] at hnames ⊢

theorem componentsLt_iff (as bs : List Component) :
    componentsLt as bs = true ↔ as.map Component.key < bs.map Component.key := by
  induction as generalizing bs with
  | nil => cases bs <;> simp [componentsLt]
  | cons a as ih =>
    cases bs with
    | nil => simp [componentsLt]
    | cons b bs =>
      rw [componentsLt, Bool.or_eq_true, Bool.and_eq_true, beq_iff_eq, ih, Component.lt_iff,
        List.map_cons, List.map_cons, List.cons_lt_cons_iff]
      exact or_congr_right (and_congr_left fun _ =>
        ⟨fun h => congrArg _ h, Component.key_injective⟩)

/-- A path in the order of paths. -/
def key (p : Path) : List (ℕ ×ₗ List Char) := p.components.map Component.key

theorem components_eq_of_key {p q : Path} (h : p.key = q.key) : p.components = q.components :=
  List.map_injective_iff.2 (fun _ _ => Component.key_injective) h

theorem lt_iff (p q : Path) : p.lt q = true ↔ p.key < q.key := componentsLt_iff _ _

theorem perm_insertSorted (p : Path) (ps : List Path) : (insertSorted p ps).Perm (p :: ps) := by
  induction ps with
  | nil => exact .rfl
  | cons q rest ih =>
    rw [insertSorted]
    split
    · exact (ih.cons q).trans (.swap p q rest)
    · exact .rfl

theorem perm_sort (ps : List Path) : (sort ps).Perm ps := by
  induction ps with
  | nil => exact .rfl
  | cons p rest ih => exact (perm_insertSorted p _).trans (ih.cons p)

theorem mem_sort {p : Path} {ps : List Path} : p ∈ sort ps ↔ p ∈ ps := (perm_sort ps).mem_iff

theorem pairwise_insertSorted {p : Path} {ps : List Path}
    (h : ps.Pairwise fun p q => p.key ≤ q.key) :
    (insertSorted p ps).Pairwise fun p q => p.key ≤ q.key := by
  induction ps with
  | nil => exact List.pairwise_singleton _ _
  | cons q rest ih =>
    rw [List.pairwise_cons] at h
    rw [insertSorted]
    split
    · next hlt =>
      refine List.pairwise_cons.2 ⟨fun r hr => ?_, ih h.2⟩
      rcases List.mem_cons.1 ((perm_insertSorted p rest).mem_iff.1 hr) with rfl | hr
      · exact ((lt_iff q r).1 hlt).le
      · exact h.1 r hr
    · next hnot =>
      have hle : p.key ≤ q.key := not_lt.1 fun hlt => hnot ((lt_iff q p).2 hlt)
      refine List.pairwise_cons.2 ⟨fun r hr => ?_, List.pairwise_cons.2 h⟩
      rcases List.mem_cons.1 hr with rfl | hr
      · exact hle
      · exact hle.trans (h.1 r hr)

theorem pairwise_sort (ps : List Path) : (sort ps).Pairwise fun p q => p.key ≤ q.key := by
  induction ps with
  | nil => exact .nil
  | cons p rest ih => exact pairwise_insertSorted ih

/-- **Sorted lists with the same members** are the same. -/
theorem eq_of_sorted {ps qs : List Path} (hps : ps.Pairwise fun p q => p.key ≤ q.key)
    (hqs : qs.Pairwise fun p q => p.key ≤ q.key) (hnodup : ps.Nodup) (hnodup' : qs.Nodup)
    (hmem : ∀ p, p ∈ ps ↔ p ∈ qs)
    (hinj : ∀ p ∈ ps, ∀ q ∈ ps, p.components = q.components → p = q) : ps = qs := by
  refine ((List.perm_ext_iff_of_nodup hnodup hnodup').2 hmem).eq_of_pairwise ?_ hps hqs
  intro p q hp hq hpq hqp
  exact hinj p hp q ((hmem q).2 hq) (components_eq_of_key (le_antisymm hpq hqp))

theorem nodup_sort {ps : List Path} (h : ps.Nodup) : (sort ps).Nodup :=
  (perm_sort ps).nodup_iff.2 h

/-- Paths below a directory have different components. -/
theorem below_injective {base : Path} {row row' : List String} (h : ∀ name ∈ row, IsName name)
    (h' : ∀ name ∈ row', IsName name)
    (heq : (base.below row).components = (base.below row').components) : row = row' := by
  rw [components_below base h, components_below base h', List.append_cancel_left_eq] at heq
  exact List.map_injective_iff.2 (fun _ _ => Component.name.inj) heq

end HclOverlay.Path
