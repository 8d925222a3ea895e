import HclOverlay.Decimal.Shortest
import HclOverlay.Proofs.Decimal.Rounding

/-!
# Where the shortest decimal lies

The search for the shortest decimal goes from coarse grids to fine ones. It ends with a decimal in
the interval around the float: the last grid that it tries is finer than the interval is wide.

* `gridScale`, `gridUnit` — a place of the float and a step of the grid, as natural numbers.
* `isSome_onGrid` — a grid that is fine enough has a point in the interval.
* `exists_onGrid` — **the search finds a point**.
* `digits_le` — it is not above the halfway point to the next float.
-/

namespace HclOverlay.Decimal

/-- The unit of the interval around a float in which its decimals lie. -/
def gridScale (e j : Int) : Nat := pow2 (e - 2).toNat * pow10 (-j).toNat

def gridUnit (e j : Int) : Nat := pow2 (-(e - 2)).toNat * pow10 j.toNat

theorem zpow_toNat {a : ℚ} (ha : a ≠ 0) (n : Int) : a ^ n.toNat = a ^ (-n).toNat * a ^ n := by
  rw [← zpow_natCast, ← zpow_natCast, ← zpow_add₀ ha]
  congr 1
  omega

theorem gridUnit_mul (e j : Int) :
    (gridUnit e j * 2 ^ (e - 2) : ℚ) = gridScale e j * 10 ^ j := by
  have h2 := zpow_toNat (show (2 : ℚ) ≠ 0 by norm_num) (e - 2)
  have h10 := zpow_toNat (show (10 : ℚ) ≠ 0 by norm_num) j
  have hunit : (gridUnit e j : ℚ) = 2 ^ (-(e - 2)).toNat * 10 ^ j.toNat := by
    simp [gridUnit, pow2, pow10]
  have hscale : (gridScale e j : ℚ) = 2 ^ (e - 2).toNat * 10 ^ (-j).toNat := by
    simp [gridScale, pow2, pow10]
  rw [hunit, hscale, h2, h10]
  ring

theorem gridScale_pos (e j : Int) : 0 < gridScale e j :=
  Nat.mul_pos (Nat.pow_pos (by decide)) (Nat.pow_pos (by decide))

theorem gridUnit_pos (e j : Int) : 0 < gridUnit e j :=
  Nat.mul_pos (Nat.pow_pos (by decide)) (Nat.pow_pos (by decide))

variable {b : Binary} {j : Int} {c : Nat}

theorem onGrid_eq (b : Binary) (j : Int) : b.onGrid j =
    let scale := gridScale b.exponent j
    let unit := gridUnit b.exponent j
    let value := 4 * b.mantissa * scale
    let low := value / unit
    match b.covers scale unit low, b.covers scale unit (low + 1) with
    | true, true =>
      if value - low * unit < (low + 1) * unit - value ||
        (value - low * unit == (low + 1) * unit - value && low % 2 == 0) then some low
      else some (low + 1)
    | true, false => some low
    | false, true => some (low + 1)
    | false, false => none := rfl

theorem covers_of_onGrid (h : b.onGrid j = some c) :
    b.covers (gridScale b.exponent j) (gridUnit b.exponent j) c = true := by
  rw [onGrid_eq] at h
  dsimp only at h
  split at h
  · next hlow hhigh =>
    split at h <;> cases h <;> assumption
  · next hlow _ =>
    cases h
    exact hlow
  · next _ hhigh =>
    cases h
    exact hhigh
  · cases h

theorem isSome_onGrid (h : gridUnit b.exponent j < 2 * gridScale b.exponent j) :
    (b.onGrid j).isSome = true := by
  have hcovers : b.covers (gridScale b.exponent j) (gridUnit b.exponent j)
      (4 * b.mantissa * gridScale b.exponent j / gridUnit b.exponent j + 1) = true := by
    have hpos := gridUnit_pos b.exponent j
    generalize gridScale b.exponent j = scale at *
    generalize gridUnit b.exponent j = unit at *
    have hlow : 4 * b.mantissa * scale / unit * unit ≤ 4 * b.mantissa * scale :=
      Nat.div_mul_le_self _ _
    have hhigh : 4 * b.mantissa * scale < (4 * b.mantissa * scale / unit + 1) * unit :=
      Nat.lt_mul_of_div_lt (Nat.lt_succ_self _) hpos
    have hlower : (4 * b.mantissa - (if b.narrowBelow then 1 else 2)) * scale ≤
        4 * b.mantissa * scale := Nat.mul_le_mul_right _ (Nat.sub_le _ _)
    have hupper : (4 * b.mantissa * scale / unit + 1) * unit < (4 * b.mantissa + 2) * scale := by
      rw [Nat.succ_mul, Nat.add_mul]
      omega
    unfold Binary.covers
    dsimp only
    split
    · rw [Bool.and_eq_true, decide_eq_true_eq, decide_eq_true_eq]
      exact ⟨hlower.trans hhigh.le, hupper.le⟩
    · rw [Bool.and_eq_true, decide_eq_true_eq, decide_eq_true_eq]
      exact ⟨hlower.trans_lt hhigh, hupper⟩
  rw [onGrid_eq]
  dsimp only
  rw [hcovers]
  split
  · split <;> rfl
  · rfl
  · rfl
  · next heq => cases heq

theorem covers_bounds {scale unit : Nat} (hm : 0 < b.mantissa) (hscale : 0 < scale)
    (h : b.covers scale unit c = true) :
    0 < c * unit ∧ c * unit ≤ (4 * b.mantissa + 2) * scale := by
  unfold Binary.covers at h
  dsimp only at h
  have hlower : 0 < (4 * b.mantissa - (if b.narrowBelow then 1 else 2)) * scale :=
    Nat.mul_pos (by split <;> omega) hscale
  split at h
  · simp only [Bool.and_eq_true, decide_eq_true_eq] at h
    exact ⟨hlower.trans_le h.1, h.2⟩
  · simp only [Bool.and_eq_true, decide_eq_true_eq] at h
    exact ⟨hlower.trans h.1, h.2.le⟩

theorem search_of_isSome {steps : Nat} {j : Int} {i : Nat} (hi : i < steps)
    (h : (b.onGrid (j - i)).isSome = true) :
    ∃ c j', b.search steps j = ⟨c, j'⟩ ∧ b.onGrid j' = some c := by
  induction steps generalizing j i with
  | zero => cases hi
  | succ steps ih =>
    rw [Binary.search]
    split
    · next c hc => exact ⟨c, j, rfl, hc⟩
    · next hnone =>
      cases i with
      | zero =>
        rw [Int.natCast_zero, Int.sub_zero, hnone] at h
        cases h
      | succ i =>
        refine ih (Nat.lt_of_succ_lt_succ hi) ?_
        rwa [Int.natCast_succ, Int.add_comm, ← Int.sub_sub] at h

theorem ten_zpow_lt {j k : Int} (hup : 10 * j < 3 * k) (hdown : 93 * j < 28 * k) :
    (10 : ℚ) ^ j < 2 ^ k := by
  rcases Int.le_total 0 j with hj | hj
  · refine lt_of_pow_lt_pow_left₀ 3 (by positivity) ?_
    calc ((10 : ℚ) ^ j) ^ 3 = (10 ^ (3 : ℤ)) ^ j := by
          rw [← zpow_natCast, ← zpow_mul, ← zpow_mul, mul_comm]
          rfl
      _ ≤ (2 ^ (10 : ℤ)) ^ j := zpow_le_zpow_left₀ hj (by norm_num) (by norm_num)
      _ = 2 ^ (10 * j) := (zpow_mul _ _ _).symm
      _ < 2 ^ (k * 3) := zpow_lt_zpow_right₀ (by norm_num) (by omega)
      _ = (2 ^ k) ^ 3 := by
        rw [zpow_mul]
        rfl
  · refine lt_of_pow_lt_pow_left₀ 28 (by positivity) ?_
    calc ((10 : ℚ) ^ j) ^ 28 = (10 ^ (28 : ℤ)) ^ j := by
          rw [← zpow_natCast, ← zpow_mul, ← zpow_mul, mul_comm]
          rfl
      _ = ((10 ^ (28 : ℤ)) ^ (-j))⁻¹ := by rw [zpow_neg, inv_inv]
      _ ≤ ((2 ^ (93 : ℤ)) ^ (-j))⁻¹ := by
          gcongr ?_⁻¹
          exact zpow_le_zpow_left₀ (by omega) (by norm_num) (by norm_num)
      _ = 2 ^ (93 * j) := by rw [zpow_neg, inv_inv, ← zpow_mul]
      _ < 2 ^ (k * 28) := zpow_lt_zpow_right₀ (by norm_num) (by omega)
      _ = (2 ^ k) ^ 28 := by
        rw [zpow_mul]
        rfl

/-- The last grid of the search is finer than the interval. -/
theorem exists_onGrid (hm : b.mantissa < 2 ^ 53) (hmin : -1074 ≤ b.exponent)
    (hmax : b.exponent ≤ 971) :
    ∃ c j, b.search 20 ((((Nat.log2 b.mantissa + b.exponent : Int) + 1) * 30103).fdiv 100000 + 1) =
      ⟨c, j⟩ ∧ b.onGrid j = some c := by
  -- the search starts by the number of bits, so its last step is below half of the last place
  refine search_of_isSome (i := 19) (by decide) (isSome_onGrid ?_)
  have hlog : b.mantissa.log2 < 53 := log2_lt_of_lt (by decide) hm
  rw [Int.fdiv_eq_ediv_of_nonneg _ (by decide)]
  generalize hj :
    ((Nat.log2 b.mantissa + b.exponent : Int) + 1) * 30103 / 100000 + 1 - (19 : Nat) = j
  have hten : (10 : ℚ) ^ j < 2 * 2 ^ (b.exponent - 2) := by
    rw [← zpow_one_add₀ (by norm_num)]
    exact ten_zpow_lt (by omega) (by omega)
  have hscale : (0 : ℚ) < gridScale b.exponent j := by exact_mod_cast gridScale_pos b.exponent j
  have hfine : (gridUnit b.exponent j : ℚ) < 2 * gridScale b.exponent j := by
    refine lt_of_mul_lt_mul_right ?_ (show (0 : ℚ) ≤ 2 ^ (b.exponent - 2) by positivity)
    calc (gridUnit b.exponent j * 2 ^ (b.exponent - 2) : ℚ)
        = gridScale b.exponent j * 10 ^ j := gridUnit_mul b.exponent j
      _ < gridScale b.exponent j * (2 * 2 ^ (b.exponent - 2)) := by gcongr
      _ = 2 * gridScale b.exponent j * 2 ^ (b.exponent - 2) := by ring
  exact_mod_cast hfine

/-- The decimal lies between the halfway points to the neighbouring floats. -/
theorem digits_le (hm : 0 < b.mantissa) (h : b.onGrid j = some c) :
    0 < c ∧ (c * 10 ^ j : ℚ) ≤ (4 * b.mantissa + 2) * 2 ^ (b.exponent - 2) := by
  obtain ⟨hpos, hle⟩ := covers_bounds hm (gridScale_pos b.exponent j) (covers_of_onGrid h)
  refine ⟨Nat.pos_of_mul_pos_right hpos, ?_⟩
  have hunit := gridUnit_mul b.exponent j
  have hle : (c * gridUnit b.exponent j : ℚ) ≤ (4 * b.mantissa + 2) * gridScale b.exponent j := by
    exact_mod_cast hle
  have hscale : (0 : ℚ) < gridScale b.exponent j := by exact_mod_cast gridScale_pos b.exponent j
  refine le_of_mul_le_mul_right ?_ hscale
  calc (c * 10 ^ j * gridScale b.exponent j : ℚ)
      = c * gridUnit b.exponent j * 2 ^ (b.exponent - 2) := by
        rw [mul_assoc, mul_comm (10 ^ j : ℚ), ← hunit, mul_assoc]
    _ ≤ (4 * b.mantissa + 2) * gridScale b.exponent j * 2 ^ (b.exponent - 2) := by gcongr
    _ = (4 * b.mantissa + 2) * 2 ^ (b.exponent - 2) * gridScale b.exponent j := by ring

end HclOverlay.Decimal
