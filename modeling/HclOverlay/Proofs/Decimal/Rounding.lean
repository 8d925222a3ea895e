import HclOverlay.Decimal.Binary
import Mathlib.Algebra.Order.Field.Power
import Mathlib.Tactic.FieldSimp
import Mathlib.Tactic.Linarith
import Mathlib.Tactic.NormNum
import Mathlib.Tactic.Positivity
import Mathlib.Tactic.Ring

/-!
# How floats are rounded

The operations on floats compute with a mantissa and an exponent and then drop the bits that do not
fit. Bounds on what comes out are needed where a number is near the end of the range: half a unit of
the last place decides whether it is rounded to a finite float.

* `surplus`, `rounded` — how many bits are dropped, and what is left.
* `round_cases` — **the results of rounding**.
* `magnitude_round` — rounding adds half a unit of the last place at most.
* `inRange_round_exact` — what lies below the last halfway point is **not too large**.
-/

namespace HclOverlay.Decimal

open Float.Model UnpackedFloat

/-- An unpacked float that is finite when it is packed: its exponent is not too large. -/
def InRange : UnpackedFloat → Prop
  | .zero _ => True
  | .finite _ _ e _ => -1074 ≤ e ∧ e ≤ 971
  | _ => False

/-- How large a finite float is. -/
def magnitude : UnpackedFloat → ℚ
  | .finite _ m e _ => m * 2 ^ e
  | _ => 0

/-! ## Dropping bits -/

theorem mantissa_shiftRight (em : ExtendedMantissa) (k : Nat) :
    (em >>> k).mantissa = em.mantissa / 2 ^ k := by
  induction k with
  | zero => simp [HShiftRight.hShiftRight, Nat.repeat]
  | succ k ih =>
    have hstep : (em >>> (k + 1)).mantissa = (em >>> k).mantissa / 2 := rfl
    rw [hstep, ih, Nat.div_div_eq_div_mul, ← Nat.pow_succ]

theorem roundBit_shiftRight (em : ExtendedMantissa) (k : Nat) :
    (em >>> (k + 1)).roundBit = (em.mantissa / 2 ^ k % 2 != 0) := by
  have hstep : (em >>> (k + 1)).roundBit = ((em >>> k).mantissa % 2 != 0) := rfl
  rw [hstep, mantissa_shiftRight]

theorem roundedMantissa_le (em : ExtendedMantissa) :
    em.roundedMantissa ≤ em.mantissa + em.roundBit.toNat := by
  obtain ⟨m, roundBit, stickyBit⟩ := em
  cases roundBit <;> cases stickyBit <;>
    simp [ExtendedMantissa.roundedMantissa, ExtendedMantissa.accuracy,
      Accuracy.roundToNearestEven]
  omega

theorem le_roundedMantissa (em : ExtendedMantissa) : em.mantissa ≤ em.roundedMantissa := by
  obtain ⟨m, roundBit, stickyBit⟩ := em
  cases roundBit <;> cases stickyBit <;>
    simp [ExtendedMantissa.roundedMantissa, ExtendedMantissa.accuracy,
      Accuracy.roundToNearestEven]

theorem mantissa_ofMantissaAndAccuracy (m : Nat) (a : Accuracy) :
    (ExtendedMantissa.ofMantissaAndAccuracy m a).mantissa = m := by
  unfold ExtendedMantissa.ofMantissaAndAccuracy
  split <;> rfl

/-- Rounding to the nearest goes up by half a place at most. -/
theorem roundedMantissa_shiftRight_le (m k : Nat) :
    2 * (ExtendedMantissa.ofMantissaAndAccuracy m .exact >>> k).roundedMantissa * 2 ^ k ≤
      2 * m + 2 ^ k := by
  cases k with
  | zero =>
    simp [ExtendedMantissa.ofMantissaAndAccuracy, HShiftRight.hShiftRight, Nat.repeat,
      ExtendedMantissa.roundedMantissa, ExtendedMantissa.accuracy, Accuracy.roundToNearestEven]
  | succ k =>
    have hround := roundedMantissa_le (ExtendedMantissa.ofMantissaAndAccuracy m .exact >>> (k + 1))
    rw [mantissa_shiftRight, roundBit_shiftRight, mantissa_ofMantissaAndAccuracy] at hround
    generalize
      (ExtendedMantissa.ofMantissaAndAccuracy m .exact >>> (k + 1)).roundedMantissa = r at *
    have hfloor : m / 2 ^ k * 2 ^ k ≤ m := Nat.div_mul_le_self m _
    have hhalf : m / 2 ^ (k + 1) = m / 2 ^ k / 2 := by rw [Nat.div_div_eq_div_mul, ← Nat.pow_succ]
    rw [hhalf] at hround
    generalize m / 2 ^ k = q at *
    have htwice : 2 * r ≤ q + 1 := by
      rcases Nat.mod_two_eq_zero_or_one q with hq | hq <;> simp [hq] at hround <;> omega
    calc 2 * r * 2 ^ (k + 1) ≤ (q + 1) * 2 ^ (k + 1) := Nat.mul_le_mul_right _ htwice
      _ = 2 * (q * 2 ^ k) + 2 ^ (k + 1) := by ring
      _ ≤ 2 * m + 2 ^ (k + 1) := by omega

theorem targetExponent_eq (t : Int) :
    Format.binary64.targetExponent t = max (t - 53) (-1074) := rfl

/-- The number of bits that do not fit. -/
def surplus (m : Nat) (e : Int) : Nat :=
  (Format.binary64.targetExponent (totalExponent m e) - e).toNat

theorem surplus_eq (m : Nat) (e : Int) :
    surplus m e = (max (m.log2 + 1 + e - 53) (-1074) - e).toNat := rfl

theorem div_surplus_lt (m : Nat) (e : Int) : m / 2 ^ surplus m e < 2 ^ 53 := by
  rw [Nat.div_lt_iff_lt_mul (Nat.two_pow_pos _), ← Nat.pow_add]
  refine Nat.lt_of_lt_of_le Nat.lt_log2_self (Nat.pow_le_pow_right (by decide) ?_)
  rw [surplus_eq]
  omega

/-- The mantissa without the bits that do not fit, rounded. -/
def rounded (m : Nat) (e : Int) (a : Accuracy) : Nat :=
  (ExtendedMantissa.ofMantissaAndAccuracy m a >>> surplus m e).roundedMantissa

theorem rounded_le (m : Nat) (e : Int) (a : Accuracy) :
    rounded m e a ≤ m / 2 ^ surplus m e + 1 := by
  have hround :=
    roundedMantissa_le (ExtendedMantissa.ofMantissaAndAccuracy m a >>> surplus m e)
  rw [mantissa_shiftRight, mantissa_ofMantissaAndAccuracy] at hround
  exact hround.trans (Nat.add_le_add_left (Bool.toNat_le _) _)

theorem log2_lt_of_lt {n k : Nat} (hk : 0 < k) (h : n < 2 ^ k) : n.log2 < k := by
  rcases Nat.eq_zero_or_pos n with rfl | hn
  · exact hk
  · exact (Nat.log2_lt hn.ne').2 h

theorem le_rounded (m : Nat) (e : Int) (a : Accuracy) : m / 2 ^ surplus m e ≤ rounded m e a := by
  have hround :=
    le_roundedMantissa (ExtendedMantissa.ofMantissaAndAccuracy m a >>> surplus m e)
  rwa [mantissa_shiftRight, mantissa_ofMantissaAndAccuracy] at hround

theorem surplus_rounded (m : Nat) (e : Int) (a : Accuracy) :
    rounded m e a < 2 ^ 53 ∧ surplus (rounded m e a) (e + surplus m e) = 0 ∨
      rounded m e a = 2 ^ 53 ∧ surplus (rounded m e a) (e + surplus m e) = 1 := by
  have hle : rounded m e a ≤ 2 ^ 53 := (rounded_le m e a).trans (div_surplus_lt m e)
  have hsurplus : surplus (rounded m e a) (e + surplus m e) = (rounded m e a).log2 - 52 := by
    rw [surplus_eq, surplus_eq]
    omega
  rcases Nat.lt_or_eq_of_le hle with hlt | heq
  · have hlog := log2_lt_of_lt (by decide) hlt
    exact .inl ⟨hlt, by omega⟩
  · rw [hsurplus, heq, Nat.log2_two_pow]
    exact .inr ⟨rfl, rfl⟩

/-- The digits that are left, one fewer if rounding makes one more of them. -/
theorem round_cases (s : Sign) (m : Nat) (e : Int) (a : Accuracy) :
    (rounded m e a = 0 ∧ roundWithAccuracy Format.binary64 s m e a = .zero s) ∨
      (∃ hpos, rounded m e a < 2 ^ 53 ∧ roundWithAccuracy Format.binary64 s m e a =
        .finite s (rounded m e a) (e + surplus m e) hpos) ∨
      (rounded m e a = 2 ^ 53 ∧ roundWithAccuracy Format.binary64 s m e a =
        .finite s (2 ^ 52) (e + surplus m e + 1) (Nat.two_pow_pos 52)) := by
  let last := ExtendedMantissa.ofMantissaAndAccuracy (rounded m e a) .exact >>>
    surplus (rounded m e a) (e + surplus m e)
  have heq : roundWithAccuracy Format.binary64 s m e a =
      if h : last.mantissa = 0 then .zero s
      else .finite s last.mantissa
        (e + surplus m e + surplus (rounded m e a) (e + surplus m e)) (Nat.pos_of_ne_zero h) := rfl
  have hlast : last.mantissa =
      rounded m e a / 2 ^ surplus (rounded m e a) (e + surplus m e) := by
    rw [mantissa_shiftRight, mantissa_ofMantissaAndAccuracy]
  rw [heq]
  rcases surplus_rounded m e a with ⟨hlt, hsurplus⟩ | ⟨hmax, hsurplus⟩
  · rw [hsurplus, Nat.pow_zero, Nat.div_one] at hlast
    by_cases h : last.mantissa = 0
    · rw [dif_pos h]
      exact .inl ⟨hlast ▸ h, rfl⟩
    · rw [dif_neg h]
      refine .inr (.inl ⟨hlast ▸ Nat.pos_of_ne_zero h, hlt, ?_⟩)
      exact UnpackedFloat.finite.injEq .. ▸ ⟨rfl, hlast, by omega⟩
  · rw [hsurplus, hmax] at hlast
    rw [dif_neg (by rw [hlast]; decide)]
    refine .inr (.inr ⟨hmax, ?_⟩)
    exact UnpackedFloat.finite.injEq .. ▸ ⟨rfl, hlast, by omega⟩

theorem exponent_surplus (m : Nat) (e : Int) :
    e + surplus m e = max e (max (m.log2 + 1 + e - 53) (-1074)) := by
  rw [surplus_eq]
  omega

/-- No number below half of the range is too large. -/
theorem inRange_round {m : Nat} {e : Int} (he : e ≤ 970) (hm : m.log2 + 1 + e ≤ 1023) (s : Sign)
    (a : Accuracy) : InRange (roundWithAccuracy Format.binary64 s m e a) := by
  have hexp := exponent_surplus m e
  rcases round_cases s m e a with ⟨-, h⟩ | ⟨_, -, h⟩ | ⟨-, h⟩
  · rw [h]
    trivial
  · rw [h]
    constructor <;> omega
  · rw [h]
    constructor <;> omega

/-- What lies below the last halfway point is not too large. -/
theorem inRange_round_exact {m : Nat} {e : Int} (he : e ≤ 970)
    (hm : (m * 2 ^ (e - 970) : ℚ) < 2 ^ 54 - 1) (s : Sign) :
    InRange (roundWithAccuracy Format.binary64 s m e .exact) := by
  by_cases htotal : m.log2 + 1 + e ≤ 1023
  · exact inRange_round he htotal s _
  -- the number is in the upper half of the range, where half a unit of the last place decides
  have hpos : m ≠ 0 := by
    rintro rfl
    rw [Nat.log2_zero] at htotal
    omega
  have hexp := exponent_surplus m e
  have hlog : m.log2 + 1 + e ≤ 1024 := by
    by_contra hlarge
    have hle : (2 ^ 54 : ℚ) ≤ m * 2 ^ (e - 970) := by
      calc (2 ^ 54 : ℚ) = 2 ^ (54 : ℤ) := by norm_cast
        _ ≤ 2 ^ ((m.log2 : ℤ) + (e - 970)) := zpow_le_zpow_right₀ (by norm_num) (by omega)
        _ = 2 ^ m.log2 * 2 ^ (e - 970) := by rw [zpow_add₀ (by norm_num), zpow_natCast]
        _ ≤ m * 2 ^ (e - 970) := by
          gcongr
          exact_mod_cast Nat.log2_self_le hpos
    linarith
  have hk : e - 970 = 1 - (surplus m e : ℤ) := by omega
  have hsmall : 2 * m < (2 ^ 54 - 1) * 2 ^ surplus m e := by
    rw [hk, zpow_sub₀ (by norm_num), zpow_natCast, zpow_one, mul_div_assoc',
      div_lt_iff₀ (by positivity)] at hm
    have hm : (2 * m : ℚ) < (2 ^ 54 - 1 : Nat) * 2 ^ surplus m e := by
      push_cast
      linarith
    exact_mod_cast hm
  have hrounded : 2 * rounded m e .exact * 2 ^ surplus m e ≤ 2 * m + 2 ^ surplus m e :=
    roundedMantissa_shiftRight_le m (surplus m e)
  have hlt : rounded m e .exact < 2 ^ 53 := by
    refine Nat.lt_of_mul_lt_mul_right (a := 2 ^ (surplus m e + 1)) ?_
    calc rounded m e .exact * 2 ^ (surplus m e + 1)
        = 2 * rounded m e .exact * 2 ^ surplus m e := by ring
      _ ≤ 2 * m + 2 ^ surplus m e := hrounded
      _ < (2 ^ 54 - 1) * 2 ^ surplus m e + 2 ^ surplus m e := Nat.add_lt_add_right hsmall _
      _ = 2 ^ 53 * 2 ^ (surplus m e + 1) := by ring
  rcases round_cases s m e .exact with ⟨-, h⟩ | ⟨_, -, h⟩ | ⟨hmax, -⟩
  · rw [h]
    trivial
  · rw [h]
    constructor <;> omega
  · omega

theorem rounded_exact_le {m : Nat} {e : Int} (he : -1074 ≤ e) :
    rounded m e .exact * 2 ^ surplus m e * 2 ^ 53 ≤ m * (2 ^ 53 + 1) := by
  have hrounded : 2 * rounded m e .exact * 2 ^ surplus m e ≤ 2 * m + 2 ^ surplus m e :=
    roundedMantissa_shiftRight_le m (surplus m e)
  rcases Nat.eq_zero_or_pos (surplus m e) with hk | hk
  · rw [hk] at hrounded ⊢
    omega
  · -- bits are dropped only if more than enough are left to make half of one a small part
    have hlog : surplus m e + 52 ≤ m.log2 := by
      rw [surplus_eq] at hk ⊢
      omega
    have hne : m ≠ 0 := by
      rintro rfl
      rw [Nat.log2_zero] at hlog
      omega
    have hunit : 2 ^ surplus m e * 2 ^ 52 ≤ m := by
      rw [← Nat.pow_add]
      exact (Nat.le_log2 hne).1 hlog
    calc rounded m e .exact * 2 ^ surplus m e * 2 ^ 53
        = 2 * rounded m e .exact * 2 ^ surplus m e * 2 ^ 52 := by ring
      _ ≤ (2 * m + 2 ^ surplus m e) * 2 ^ 52 := Nat.mul_le_mul_right _ hrounded
      _ = m * 2 ^ 53 + 2 ^ surplus m e * 2 ^ 52 := by ring
      _ ≤ m * 2 ^ 53 + m := Nat.add_le_add_left hunit _
      _ = m * (2 ^ 53 + 1) := by ring

/-- **Rounding** makes a number larger by half a unit of the last place at most. -/
theorem magnitude_round {m : Nat} {e : Int} (he : -1074 ≤ e) (s : Sign) :
    magnitude (roundWithAccuracy Format.binary64 s m e .exact) ≤
      m * 2 ^ e * (1 + 2 ^ (-53 : ℤ)) := by
  have hle : (rounded m e .exact * 2 ^ surplus m e * 2 ^ 53 : ℚ) ≤ m * (2 ^ 53 + 1) := by
    exact_mod_cast rounded_exact_le he
  have hbound : (rounded m e .exact * 2 ^ (e + surplus m e) : ℚ) ≤
      m * 2 ^ e * (1 + 2 ^ (-53 : ℤ)) := by
    calc (rounded m e .exact * 2 ^ (e + surplus m e) : ℚ)
        = rounded m e .exact * 2 ^ surplus m e * 2 ^ 53 * (2 ^ e / 2 ^ 53) := by
          rw [zpow_add₀ (by norm_num), zpow_natCast]
          field_simp
      _ ≤ m * (2 ^ 53 + 1) * (2 ^ e / 2 ^ 53) := by gcongr
      _ = m * 2 ^ e * (1 + 2 ^ (-53 : ℤ)) := by
          norm_num
          ring
  rcases round_cases s m e .exact with ⟨-, h⟩ | ⟨_, -, h⟩ | ⟨hmax, h⟩
  · rw [h]
    show (0 : ℚ) ≤ _
    positivity
  · rw [h]
    exact hbound
  · -- the carry has moved one place from the mantissa to the exponent
    rw [h]
    rw [hmax] at hbound
    refine le_trans (le_of_eq ?_) hbound
    show ((2 ^ 52 : Nat) * 2 ^ (e + surplus m e + 1) : ℚ) = _
    rw [zpow_add_one₀ (by norm_num)]
    norm_num
    ring

theorem isFinite_round (s : Sign) (m : Nat) (e : Int) (a : Accuracy) :
    (roundWithAccuracy Format.binary64 s m e a).isFinite = true := by
  rcases round_cases s m e a with ⟨-, h⟩ | ⟨_, -, h⟩ | ⟨-, h⟩ <;> exact h ▸ rfl

/-- A number with enough digits keeps as many as fit. -/
theorem round_normal {m : Nat} {e : Int} (he : -1074 ≤ e) (hm : 52 ≤ m.log2) (s : Sign) :
    ∃ M E h, roundWithAccuracy Format.binary64 s m e .exact = .finite s M E h ∧ 2 ^ 52 ≤ M ∧
      M < 2 ^ 53 ∧ e + surplus m e ≤ E := by
  have hne : m ≠ 0 := by
    rintro rfl
    rw [Nat.log2_zero] at hm
    omega
  have hlow : 2 ^ 52 ≤ m / 2 ^ surplus m e := by
    rw [Nat.le_div_iff_mul_le (Nat.two_pow_pos _), ← Nat.pow_add]
    refine (Nat.pow_le_pow_right (by decide) ?_).trans (Nat.log2_self_le hne)
    rw [surplus_eq]
    omega
  have hle := hlow.trans (le_rounded m e .exact)
  rcases round_cases s m e .exact with ⟨hzero, -⟩ | ⟨hpos, hlt, h⟩ | ⟨-, h⟩
  · omega
  · exact ⟨_, _, hpos, h, hle, hlt, le_refl _⟩
  · exact ⟨_, _, _, h, le_refl _, by decide, by omega⟩

end HclOverlay.Decimal
