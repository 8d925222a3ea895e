import HclOverlay.Proofs.Decimal.Floats

/-!
# Rounding to the nearest float

An operation on floats computes the digits of its exact result, as many as a float has, and keeps
two more bits that say what was cut off. The rounded mantissa is the natural number nearest to the
exact one, the even one of two; so a result that lies between the halfway points around a float is
rounded to this float.

* `IsNearest` — the natural number that is nearest to a rational one.
* `Describes` — what a mantissa and its two bits say about the number they were cut off from;
  `Describes.shiftRight` keeps this when more is cut off.
* `Binary.Stands` — a number that stands for a float: no other float is nearer.
* `round_of_stands` — **such a number is rounded to the float**.
-/

namespace HclOverlay.Decimal

open Float.Model UnpackedFloat

/-! ## Natural numbers -/

/-- A natural number that is nearest to `q`, and even where another one is as near. -/
structure IsNearest (n : Nat) (q : ℚ) : Prop where
  le : q ≤ n + 1 / 2
  ge : n - 1 / 2 ≤ q
  even : q = n + 1 / 2 ∨ q = n - 1 / 2 → n % 2 = 0

variable {n n' : Nat} {q : ℚ}

theorem isNearest_self (n : Nat) : IsNearest n n :=
  ⟨by linarith, by linarith, by rintro (heq | heq) <;> linarith⟩

theorem IsNearest.le_of (h : IsNearest n q) (h' : IsNearest n' q) : n ≤ n' := by
  by_contra hlt
  have hnext : (n' : ℚ) + 1 ≤ n := by exact_mod_cast not_le.1 hlt
  -- the number is halfway between the two, and only one of them is even
  have hle := h'.le
  have hge := h.ge
  have heven := h.even (.inr (by linarith))
  have heven' := h'.even (.inl (by linarith))
  have hone : n = n' + 1 := by
    have hle : (n : ℚ) ≤ n' + 1 := by linarith
    exact_mod_cast le_antisymm hle hnext
  omega

/-- Only one number is nearest. -/
theorem IsNearest.unique (h : IsNearest n q) (h' : IsNearest n' q) : n = n' :=
  Nat.le_antisymm (h.le_of h') (h'.le_of h)

/-! ## What was cut off -/

/-- What a mantissa and the two bits behind it say about the number that they were cut off from. -/
def Describes : ExtendedMantissa → ℚ → Prop
  | ⟨m, false, false⟩, q => q = m
  | ⟨m, false, true⟩, q => m < q ∧ q < m + 1 / 2
  | ⟨m, true, false⟩, q => q = m + 1 / 2
  | ⟨m, true, true⟩, q => m + 1 / 2 < q ∧ q < m + 1

variable {em : ExtendedMantissa}

theorem Describes.bounds (h : Describes em q) : em.mantissa ≤ q ∧ q < em.mantissa + 1 := by
  obtain ⟨m, r, s⟩ := em
  cases r <;> cases s <;> simp only [Describes] at h <;> constructor <;> linarith

/-- One more bit is cut off. -/
theorem Describes.shiftRightOne (h : Describes em q) : Describes em.shiftRightOne (q / 2) := by
  obtain ⟨m, r, s⟩ := em
  have hlast : (m : ℚ) = 2 * (m / 2 : Nat) + (m % 2 : Nat) := by
    exact_mod_cast (Nat.div_add_mod m 2).symm
  have hone : (1 != 0) = true := rfl
  -- the last bit of the mantissa becomes the first of the two, which both go into the second
  rcases Nat.mod_two_eq_zero_or_one m with hbit | hbit <;> rw [hbit] at hlast <;>
    cases r <;> cases s <;>
    simp only [Describes, ExtendedMantissa.shiftRightOne, hbit, hone, bne_self_eq_false,
      Bool.or_false, Bool.or_true] at h ⊢ <;>
    push_cast at hlast
  all_goals first | linarith | (constructor <;> linarith)

theorem Describes.shiftRight (h : Describes em q) (k : Nat) : Describes (em >>> k) (q / 2 ^ k) := by
  induction k with
  | zero =>
    rw [pow_zero, div_one]
    exact h
  | succ k ih =>
    rw [pow_succ, ← div_div]
    exact ih.shiftRightOne

/-- Rounding goes to the nearest number. -/
theorem Describes.isNearest (h : Describes em q) : IsNearest em.roundedMantissa q := by
  obtain ⟨m, r, s⟩ := em
  cases r <;> cases s <;>
    simp only [Describes, ExtendedMantissa.roundedMantissa, ExtendedMantissa.accuracy,
      Accuracy.roundToNearestEven] at h ⊢
  · constructor <;> grind
  · constructor <;> grind
  · rcases Nat.mod_two_eq_zero_or_one m with hbit | hbit <;> rw [hbit] <;>
      constructor <;> push_cast <;> grind
  · constructor <;> push_cast <;> grind

/-- Nothing was cut off. -/
theorem describes_exact (m : Nat) : Describes (.ofMantissaAndAccuracy m .exact) m := rfl

/-- A fraction was cut off. -/
theorem describes_fraction (m : Nat) {a b : Nat} (h : a < b) :
    Describes (.ofMantissaAndAccuracy m (accuracyOfFraction a b)) (m + a / b) := by
  have hb : (0 : ℚ) < b := by exact_mod_cast Nat.zero_lt_of_lt h
  rw [accuracyOfFraction]
  split
  · next hzero =>
    rw [hzero, Nat.cast_zero, zero_div, add_zero]
    exact describes_exact m
  · next hzero =>
    have hpos : (0 : ℚ) < a / b := div_pos (by exact_mod_cast Nat.pos_of_ne_zero hzero) hb
    rcases lt_trichotomy (2 * a) b with hcmp | hcmp | hcmp
    · have hlt : (a / b : ℚ) < 1 / 2 := by
        rw [div_lt_div_iff₀ hb (by norm_num)]
        exact_mod_cast (show a * 2 < 1 * b by omega)
      rw [Nat.compare_eq_lt.2 hcmp]
      exact ⟨by linarith, by linarith⟩
    · have heq : (a / b : ℚ) = 1 / 2 := by
        rw [div_eq_div_iff hb.ne' (by norm_num)]
        exact_mod_cast (show a * 2 = 1 * b by omega)
      rw [Nat.compare_eq_eq.2 hcmp, heq]
      rfl
    · have hgt : (1 / 2 : ℚ) < a / b := by
        rw [div_lt_div_iff₀ (by norm_num) hb]
        exact_mod_cast (show 1 * b < a * 2 by omega)
      have hone : (a / b : ℚ) < 1 := (div_lt_one hb).2 (by exact_mod_cast h)
      rw [Nat.compare_eq_gt.2 hcmp]
      exact ⟨by linarith, by linarith⟩

/-! ## Floats -/

/-- A number that stands for a positive float, in units of its last place: the mantissa is nearest,
and no smaller float is nearer. -/
structure Binary.Stands (b : Binary) (q : ℚ) : Prop where
  nearest : IsNearest b.mantissa (q / 2 ^ b.exponent)
  below : b.narrowBelow = true → (b.mantissa - 1 / 4 : ℚ) ≤ q / 2 ^ b.exponent

section Rounding

variable {b : Binary} {u : UnpackedFloat} {m : Nat} {e : Int}

theorem zpow_add_natCast (e : Int) (k : Nat) : (2 ^ (e + k) : ℚ) = 2 ^ k * 2 ^ e := by
  rw [add_comm, zpow_add₀ (by norm_num), zpow_natCast]

theorem Binary.Stands.lower (h : b.Stands q) : (b.mantissa - 1 / 2) * 2 ^ b.exponent ≤ q :=
  (le_div_iff₀ (by positivity)).1 h.nearest.ge

theorem Binary.Stands.upper (h : b.Stands q) : q ≤ (b.mantissa + 1 / 2) * 2 ^ b.exponent :=
  (div_le_iff₀ (by positivity)).1 h.nearest.le

/-- A number that stands for a float has no more digits than it. -/
theorem Binary.Stands.lt (hb : b.IsDecoded u) (h : b.Stands q) : q < 2 ^ (b.exponent + 53) := by
  have hmantissa : (b.mantissa + 1 : ℚ) ≤ 2 ^ 53 := by exact_mod_cast hb.mantissa_lt
  calc q ≤ (b.mantissa + 1 / 2) * 2 ^ b.exponent := h.upper
    _ < 2 ^ 53 * 2 ^ b.exponent := by
      gcongr
      linarith
    _ = 2 ^ (b.exponent + 53) := (zpow_add_natCast b.exponent 53).symm

/-- A number with fewer digits than the normal float that it stands for is in the interval of a
power of two, on its narrow side. -/
theorem Binary.Stands.narrow (hb : b.IsDecoded u) (h : b.Stands q) (hbottom : b.exponent ≠ -1074)
    (hlt : q < 2 ^ (b.exponent + 52)) :
    b.mantissa = 2 ^ 52 ∧ b.narrowBelow = true ∧ 2 ^ (b.exponent + 51) ≤ q := by
  have hunit : (0 : ℚ) < 2 ^ b.exponent := by positivity
  have hmantissa : b.mantissa = 2 ^ 52 := by
    have hproduct : (b.mantissa - 1 / 2 : ℚ) * 2 ^ b.exponent < 2 ^ 52 * 2 ^ b.exponent :=
      (h.lower.trans_lt hlt).trans_eq (zpow_add_natCast b.exponent 52)
    have hle : (b.mantissa : ℚ) < 2 ^ 52 + 1 := by
      linarith [lt_of_mul_lt_mul_right hproduct hunit.le]
    have hle : b.mantissa < 2 ^ 52 + 1 := by exact_mod_cast hle
    have hge := hb.normal.resolve_right hbottom
    omega
  have hside := hb.narrow hmantissa (lt_of_le_of_ne hb.le_exponent (Ne.symm hbottom))
  refine ⟨hmantissa, hside, ?_⟩
  calc (2 ^ (b.exponent + 51) : ℚ) = 2 ^ 51 * 2 ^ b.exponent := zpow_add_natCast b.exponent 51
    _ ≤ (b.mantissa - 1 / 4) * 2 ^ b.exponent := by
      gcongr
      rw [hmantissa]
      norm_num
    _ ≤ q := (le_div_iff₀ hunit).1 (h.below hside)

theorem log2_bounds (hm : m ≠ 0) (hlow : (m : ℚ) ≤ q) (hhigh : q < m + 1) :
    (2 ^ (m.log2 + e) : ℚ) ≤ q * 2 ^ e ∧ q * 2 ^ e < 2 ^ (m.log2 + 1 + e) := by
  have hfirst : ((2 ^ m.log2 : Nat) : ℚ) ≤ m := by exact_mod_cast Nat.log2_self_le hm
  have hlast : (m + 1 : ℚ) ≤ (2 ^ (m.log2 + 1) : Nat) := by exact_mod_cast Nat.lt_log2_self
  push_cast at hfirst hlast
  rw [zpow_add₀ (by norm_num), zpow_add₀ (by norm_num), ← Nat.cast_add_one, zpow_natCast,
    zpow_natCast]
  constructor
  · gcongr
    exact hfirst.trans hlow
  · gcongr
    exact hhigh.trans_le hlast

/-- The mantissa of a normal float is not computed from a remainder alone. -/
theorem ne_zero_of_stands (hb : b.IsDecoded u) (hbottom : b.exponent ≠ -1074) (hhigh : q < m + 1)
    (hdigits : 52 ≤ m.log2 ∨ e ≤ -1074) (h : b.Stands (q * 2 ^ e)) : m ≠ 0 := by
  rintro rfl
  have hnormal : (2 ^ 52 : ℚ) ≤ b.mantissa := by exact_mod_cast hb.normal.resolve_right hbottom
  have hexponent : e ≤ b.exponent := by
    have hmin := hb.le_exponent
    rw [Nat.log2_zero] at hdigits
    omega
  have hsmall : q * 2 ^ e < (b.mantissa - 1 / 2) * 2 ^ b.exponent := by
    calc q * 2 ^ e < 1 * 2 ^ e := by
          gcongr
          simpa using hhigh
      _ ≤ 1 * 2 ^ b.exponent := by
          gcongr
          norm_num
      _ ≤ (b.mantissa - 1 / 2) * 2 ^ b.exponent := by
          gcongr
          linarith
  exact absurd h.lower hsmall.not_ge

/-- The mantissa is computed with the exponent of the float, or with the next smaller one if the
number is below a power of two that it stands for. -/
theorem exponent_of_stands (hb : b.IsDecoded u) (hlow : (m : ℚ) ≤ q) (hhigh : q < m + 1)
    (hdigits : 52 ≤ m.log2 ∨ e ≤ -1074) (h : b.Stands (q * 2 ^ e)) :
    e + surplus m e = b.exponent ∨
      e + surplus m e = b.exponent - 1 ∧ b.mantissa = 2 ^ 52 ∧ b.narrowBelow = true ∧
        q * 2 ^ e < 2 ^ (b.exponent + 52) := by
  have hexp := exponent_surplus m e
  have hmin := hb.le_exponent
  have hpower {j k : Int} (h : (2 ^ j : ℚ) < 2 ^ k) : j < k :=
    (zpow_lt_zpow_iff_right₀ (by norm_num)).1 h
  rcases Nat.eq_zero_or_pos m with rfl | hm
  · have hbottom : b.exponent = -1074 := by
      by_contra hbottom
      exact ne_zero_of_stands hb hbottom hhigh hdigits h rfl
    rw [Nat.log2_zero] at hexp hdigits
    omega
  · obtain ⟨hfirst, hlast⟩ := log2_bounds (e := e) hm.ne' hlow hhigh
    have htop := hpower (hfirst.trans_lt (h.lt hb))
    by_cases hbottom : b.exponent = -1074
    · omega
    by_cases hlarge : (2 ^ (b.exponent + 52) : ℚ) ≤ q * 2 ^ e
    · have hbound := hpower (hlarge.trans_lt hlast)
      omega
    · rw [not_le] at hlarge
      obtain ⟨hmantissa, hside, habove⟩ := h.narrow hb hbottom hlarge
      have hleast := hpower (hfirst.trans_lt hlarge)
      have hmost := hpower (habove.trans_lt hlast)
      exact .inr ⟨by omega, hmantissa, hside, hlarge⟩

/-- **A number that stands for a float** is rounded to it, if enough of its digits are known. -/
theorem round_of_stands {a : Accuracy} (hb : b.IsDecoded u) (hpos : 0 < b.mantissa)
    (hq : Describes (.ofMantissaAndAccuracy m a) q) (hdigits : 52 ≤ m.log2 ∨ e ≤ -1074)
    (h : b.Stands (q * 2 ^ e)) (s : Sign) :
    roundWithAccuracy Format.binary64 s m e a = .finite s b.mantissa b.exponent hpos := by
  have hbounds := hq.bounds
  rw [mantissa_ofMantissaAndAccuracy] at hbounds
  have hrounded : IsNearest (rounded m e a) (q / 2 ^ surplus m e) := (hq.shiftRight _).isNearest
  have hscale : q / 2 ^ surplus m e = q * 2 ^ e / 2 ^ (e + surplus m e) := by
    rw [zpow_add₀ (by norm_num), zpow_natCast, mul_comm, mul_div_mul_left _ _ (by positivity)]
  rw [hscale] at hrounded
  have hcases := round_cases s m e a
  obtain hexp | ⟨hexp, hmantissa, hside, hpower⟩ :=
    exponent_of_stands hb hbounds.1 hbounds.2 hdigits h
  · have hsame : rounded m e a = b.mantissa := by
      rw [hexp] at hrounded
      exact hrounded.unique h.nearest
    have hlt := hb.mantissa_lt
    rw [hexp, hsame] at hcases
    rcases hcases with ⟨hzero, -⟩ | ⟨_, -, heq⟩ | ⟨hmax, -⟩
    · omega
    · exact heq
    · omega
  · -- with one place more the mantissa is rounded up to the next power of two
    have hdouble : q * 2 ^ e / 2 ^ (b.exponent - 1) = 2 * (q * 2 ^ e / 2 ^ b.exponent) := by
      rw [zpow_sub_one₀ (by norm_num)]
      field_simp
    have hbelow : q * 2 ^ e / 2 ^ b.exponent < 2 ^ 52 := by
      rw [div_lt_iff₀ (by positivity), mul_comm (2 ^ 52 : ℚ)]
      exact hpower.trans_eq (zpow_add₀ (by norm_num) _ _)
    have habove := h.below hside
    rw [hmantissa] at habove
    push_cast at habove
    have hcarry : IsNearest (2 ^ 53) (q * 2 ^ e / 2 ^ (e + surplus m e)) := by
      rw [hexp, hdouble]
      refine ⟨?_, ?_, fun _ => rfl⟩
      · push_cast
        linarith
      · push_cast
        linarith
    have hmax := hrounded.unique hcarry
    rw [hexp, hmax, Int.sub_add_cancel] at hcases
    rcases hcases with ⟨hzero, -⟩ | ⟨_, hlt, -⟩ | ⟨-, heq⟩
    · cases hzero
    · exact absurd hlt (lt_irrefl _)
    · rw [heq]
      exact UnpackedFloat.finite.injEq .. ▸ ⟨rfl, hmantissa.symm, rfl⟩

end Rounding

end HclOverlay.Decimal
