import HclOverlay.Proofs.Decimal.Digits
import HclOverlay.Proofs.Decimal.Nearest
import HclOverlay.Proofs.Decimal.Shortest

/-!
# The shortest decimal reads back

The text of a float is meant to be read as the same float. The shortest decimal lies between the
halfway points around the float, and reading computes the digits of its exact value and rounds them
once; so reading ends with the float that was written.

* `RoundedOnce` — a float whose exact value was rounded once.
* `roundedOnce_ofScientific` — decimals are, also those with a negative power of ten, which are
  divided.
* `eq_abs_of_stands` — **the float of a number** that stands for a float is this float.
* `stands_shortest`, `ofDecimal?_shortest` — **the shortest decimal**.
-/

namespace HclOverlay.Decimal

open Float.Model UnpackedFloat

/-! ## One rounding -/

/-- The float of a number of which enough digits were computed before they were rounded. -/
def RoundedOnce (x : Float) (q : ℚ) : Prop :=
  ∃ (m : Nat) (e : Int) (a : Accuracy) (r : ℚ), Describes (.ofMantissaAndAccuracy m a) r ∧
    (52 ≤ m.log2 ∨ e ≤ -1074) ∧ r * 2 ^ e = q ∧
    x = .ofModel (.pack (roundWithAccuracy Format.binary64 .positive m e a))

theorem RoundedFrom.once {x : Float} {q : ℚ} (h : RoundedFrom x q) : RoundedOnce x q := by
  obtain ⟨m, e, hdigits, -, -, hvalue, heq⟩ := h
  exact ⟨m, e, .exact, m, describes_exact m, .inl hdigits, hvalue, heq⟩

section Quotients

variable {m m' : Nat} {e e' : Int}

/-- The exponent that a quotient is computed with. -/
def quotientExponent (m : Nat) (e : Int) (m' : Nat) (e' : Int) : Int :=
  min (e - e') (max (totalExponent m e - totalExponent m' e' - 53) (-1074))

/-- A quotient has as many digits as a float. -/
theorem quotient_digits (hm : 0 < m) (hm' : 0 < m') :
    52 ≤ (m <<< (e - e' - quotientExponent m e m' e').toNat / m').log2 ∨
      quotientExponent m e m' e' ≤ -1074 := by
  generalize ht : quotientExponent m e m' e' = t
  rw [quotientExponent, totalExponent, totalExponent] at ht
  by_cases hsmall : t ≤ -1074
  · exact .inr hsmall
  · left
    have hshift : m'.log2 + 53 ≤ m.log2 + (e - e' - t).toNat := by omega
    have hle : 2 ^ 52 ≤ m <<< (e - e' - t).toNat / m' := by
      rw [Nat.le_div_iff_mul_le hm', Nat.shiftLeft_eq]
      calc 2 ^ 52 * m' ≤ 2 ^ 52 * 2 ^ (m'.log2 + 1) :=
            Nat.mul_le_mul_left _ Nat.lt_log2_self.le
        _ = 2 ^ (m'.log2 + 53) := by rw [← Nat.pow_add, Nat.add_comm, Nat.add_assoc]
        _ ≤ 2 ^ (m.log2 + (e - e' - t).toNat) := Nat.pow_le_pow_right (by decide) hshift
        _ = 2 ^ m.log2 * 2 ^ (e - e' - t).toNat := Nat.pow_add ..
        _ ≤ m * 2 ^ (e - e' - t).toNat := Nat.mul_le_mul_right _ (Nat.log2_self_le hm.ne')
    exact (Nat.le_log2 (by omega)).2 hle

theorem quotient_value (hm' : 0 < m') :
    ((m <<< (e - e' - quotientExponent m e m' e').toNat : Nat) / m' : ℚ) *
      2 ^ quotientExponent m e m' e' = m * 2 ^ e / (m' * 2 ^ e') := by
  have hle : quotientExponent m e m' e' ≤ e - e' := min_le_left _ _
  generalize quotientExponent m e m' e' = t at *
  have hpower : (2 ^ (e - e' - t).toNat * 2 ^ t : ℚ) * 2 ^ e' = 2 ^ e := by
    rw [← zpow_natCast, ← zpow_add₀ (by norm_num), ← zpow_add₀ (by norm_num)]
    congr 1
    omega
  rw [Nat.shiftLeft_eq, ← hpower]
  push_cast
  field_simp

/-- The quotient of two positive floats. -/
theorem roundedOnce_div (hm : 0 < m) (hm' : 0 < m') :
    RoundedOnce (.ofModel (.pack (div Format.binary64 (.finite .positive m e hm)
      (.finite .positive m' e' hm')))) (m * 2 ^ e / (m' * 2 ^ e')) := by
  have hmod := Nat.mod_lt (m <<< (e - e' - quotientExponent m e m' e').toNat) hm'
  refine ⟨_, _, _, _, describes_fraction _ hmod, quotient_digits hm hm', ?_, rfl⟩
  rw [← quotient_value hm']
  congr 1
  rw [eq_div_iff (by exact_mod_cast hm'.ne'), add_mul, div_mul_cancel₀ _
    (by exact_mod_cast hm'.ne')]
  exact_mod_cast Nat.div_add_mod' _ _

end Quotients

/-! ## Decimals -/

/-- A natural number divided by a power of ten. -/
theorem roundedOnce_ofScientific {n k : Nat} (hn : 0 < n) (hpos : 0 < k)
    (hk : k ≤ 2048 + n.log2) : RoundedOnce (Float.ofScientific n true k) (n / 10 ^ k) := by
  by_cases h : n < 2 ^ 53 ∧ k ≤ 22
  · have hsmall : k < Float.exactlyRepresentablePowersOfTen.size := Nat.lt_succ_of_le h.2
    obtain ⟨hm, hx⟩ := unpack_toFloat hn h.1
    obtain ⟨m, e, hm', hy, -, -, -, hvalue⟩ := exists_unpack_power hsmall
    have hlogn : n.log2 < 53 := log2_lt_of_lt (by decide) h.1
    have hshift := shiftLeft_mul_zpow n (52 - n.log2)
    rw [show -((52 - n.log2 : Nat) : ℤ) = n.log2 - 52 by omega] at hshift
    have hfloat : Float.ofScientific n true k =
        n.toUInt64.toFloat / Float.exactlyRepresentablePowersOfTen[k] := dif_pos h
    have hdiv : n.toUInt64.toFloat / Float.exactlyRepresentablePowersOfTen[k] =
        .ofModel (.pack (div Format.binary64 n.toUInt64.toFloat.toModel.unpack
          (Float.exactlyRepresentablePowersOfTen[k]).toModel.unpack)) := rfl
    rw [hfloat, hdiv, hx, hy, ← hvalue, ← hshift]
    exact roundedOnce_div hm hm'
  · have hpower : 0 < 10 ^ k := Nat.pow_pos (by decide)
    have hscientific : UnpackedFloat.ofScientific Format.binary64 n (-k) =
        div Format.binary64 (.finite .positive n 0 hn) (.finite .positive (10 ^ k) 0 hpower) := by
      have htoNat : (- -(k : Int)).toNat = k := by omega
      unfold UnpackedFloat.ofScientific
      rw [dif_neg hn.ne', if_neg, if_neg, if_neg (by omega)]
      · simp only [htoNat]
      · show ¬-(k : Int) < -((2 : Int) ^ 11 + n.log2)
        omega
      · show ¬-(k : Int) > 2 ^ 11
        omega
    have hfloat : Float.ofScientific n true k =
        .ofModel (.pack (UnpackedFloat.ofScientific Format.binary64 n (Int.negOfNat k))) :=
      dif_neg h
    rw [hfloat, Int.negOfNat_eq, Int.ofNat_eq_natCast, hscientific]
    have hdiv : RoundedOnce _ (n * 2 ^ (0 : ℤ) / ((10 ^ k : Nat) * 2 ^ (0 : ℤ))) :=
      roundedOnce_div hn hpower
    rw [zpow_zero, mul_one, mul_one] at hdiv
    push_cast at hdiv
    exact hdiv

variable {c : Nat} {j : Int}

/-- A decimal is rounded once, unless its power of ten is taken to be out of range. -/
theorem roundedOnce_decimal (hc : 0 < c) (hlow : -330 ≤ (digitsOf c).length + j)
    (hhigh : (digitsOf c).length + j ≤ 310) :
    RoundedOnce (if j < 0 then Float.ofScientific c true (-j).toNat
      else Float.ofScientific c false j.toNat) (c * 10 ^ j) := by
  obtain ⟨hsize, -⟩ := length_digitsOf hc
  have hlog : (digitsOf c).length - 1 ≤ c.log2 :=
    (Nat.le_log2 hc.ne').2 ((Nat.pow_le_pow_left (by decide) _).trans hsize)
  split
  · next hneg =>
    obtain ⟨k, rfl⟩ : ∃ k : Nat, j = -k := ⟨j.natAbs, by omega⟩
    have h := roundedOnce_ofScientific hc (k := k) (by omega) (by omega)
    rw [neg_neg, Int.toNat_natCast, zpow_neg, zpow_natCast, ← div_eq_mul_inv]
    exact h
  · next hpos =>
    obtain ⟨k, rfl⟩ := Int.eq_ofNat_of_zero_le (not_lt.1 hpos)
    have h := (roundedFrom_ofScientific hc (k := k) (by omega)).once
    rw [Int.toNat_natCast, zpow_natCast]
    push_cast at h
    exact h

/-! ## Floats -/

section Floats

variable {x : Float} {q : ℚ}

/-- Numbers that stand for a float are in the range of floats. -/
theorem Binary.Stands.bounds {b : Binary} {u : UnpackedFloat} (hb : b.IsDecoded u)
    (hpos : 0 < b.mantissa) (h : b.Stands q) : (2 ^ (-1075 : ℤ) : ℚ) ≤ q ∧ q < 2 ^ (1024 : ℤ) := by
  have hone : (1 : ℚ) ≤ b.mantissa := by exact_mod_cast hpos
  constructor
  · calc (2 ^ (-1075 : ℤ) : ℚ) = 1 / 2 * 2 ^ (-1074 : ℤ) := by
          rw [show (-1075 : ℤ) = -1 + -1074 by norm_num, zpow_add₀ (by norm_num)]
          norm_num
      _ ≤ (b.mantissa - 1 / 2) * 2 ^ b.exponent := by
          gcongr
          · linarith
          · linarith
          · norm_num
          · exact hb.le_exponent
      _ ≤ q := h.lower
  · have hexponent : b.exponent + 53 ≤ 1024 := by
      have := hb.exponent_le
      omega
    exact (h.lt hb).trans_le (zpow_le_zpow_right₀ (by norm_num) hexponent)

theorem abs_of_finite {s : Sign} {m : Nat} {e : Int} {h : 0 < m}
    (hx : x.toModel.unpack = .finite s m e h) : x.abs = .ofModel (.pack (.finite .positive m e h)) := by
  show Float.ofModel (.pack x.toModel.unpack.abs) = _
  rw [hx]
  rfl

/-- **The float of a number** that stands for a float is this float, without its sign. -/
theorem eq_abs_of_stands {y : Float} (hx : x.isFinite = true)
    (hpos : 0 < (Binary.ofFloat x).mantissa) (hy : RoundedOnce y q)
    (h : (Binary.ofFloat x).Stands q) : y = x.abs := by
  have hdecoded := isDecoded_ofFloat hx
  obtain ⟨s, ⟨hzero, -⟩ | ⟨hm, hunpack⟩⟩ := hdecoded.unpacked
  · omega
  · obtain ⟨m, e, a, r, hr, hdigits, rfl, rfl⟩ := hy
    rw [round_of_stands hdecoded hpos hr hdigits h, abs_of_finite hunpack]

theorem isFinite_abs (hx : x.isFinite = true) : x.abs.isFinite = true := by
  have hdecoded := isDecoded_ofFloat hx
  have habs : x.toModel.unpack.abs.isFinite = true ∧ InRange x.toModel.unpack.abs := by
    rcases hdecoded.cases with ⟨s, hx⟩ | ⟨s, hm, hx⟩ <;> rw [hx]
    · exact ⟨rfl, trivial⟩
    · exact ⟨rfl, hdecoded.le_exponent, hdecoded.exponent_le⟩
  exact (isFinite_pack habs.1).resolve_right fun h => h.2 habs.2

/-- The power of ten of a number that is in the range of floats. -/
theorem exponent_bounds (hc : 0 < c) (hlow : (2 ^ (-1075 : ℤ) : ℚ) ≤ c * 10 ^ j)
    (hhigh : (c * 10 ^ j : ℚ) < 2 ^ (1024 : ℤ)) :
    -330 ≤ (digitsOf c).length + j ∧ (digitsOf c).length + j ≤ 310 := by
  obtain ⟨hleast, hmost⟩ := length_digitsOf hc
  have hlength : 0 < (digitsOf c).length := List.length_pos_iff.2 (digitsOf_ne_nil c)
  generalize (digitsOf c).length = size at *
  constructor
  · by_contra hlt
    have hbelow : (c * 10 ^ j : ℚ) < 2 ^ (-1075 : ℤ) := by
      calc (c * 10 ^ j : ℚ) < 10 ^ size * 10 ^ j := by
            gcongr
            exact_mod_cast hmost
        _ = 10 ^ (size + j) := by rw [zpow_add₀ (by norm_num), zpow_natCast]
        _ < 2 ^ (-1075 : ℤ) := ten_zpow_lt (by omega) (by omega)
    exact absurd hlow (not_le.2 hbelow)
  · by_contra hlt
    have hinverse : (10 : ℚ) ^ (-((size - 1 : Nat) + j)) < 2 ^ (-1024 : ℤ) :=
      ten_zpow_lt (by omega) (by omega)
    rw [zpow_neg, zpow_neg, inv_lt_inv₀ (by positivity) (by positivity)] at hinverse
    have habove : (2 ^ (1024 : ℤ) : ℚ) < c * 10 ^ j := by
      calc (2 ^ (1024 : ℤ) : ℚ) < 10 ^ ((size - 1 : Nat) + j) := hinverse
        _ = 10 ^ (size - 1) * 10 ^ j := by rw [zpow_add₀ (by norm_num), zpow_natCast]
        _ ≤ c * 10 ^ j := by
            gcongr
            exact_mod_cast hleast
    exact absurd hhigh habove.not_gt

/-- **A decimal that stands for a float** is read as this float. -/
theorem ofDecimal?_of_stands (hx : x.isFinite = true) (hpos : 0 < (Binary.ofFloat x).mantissa)
    (hc : 0 < c) (h : (Binary.ofFloat x).Stands (c * 10 ^ j)) :
    ofDecimal? c j = some x.abs := by
  obtain ⟨hlow, hhigh⟩ := h.bounds (isDecoded_ofFloat hx) hpos
  obtain ⟨hleast, hmost⟩ := exponent_bounds hc hlow hhigh
  have heq := eq_abs_of_stands hx hpos (roundedOnce_decimal hc hleast hmost) h
  unfold ofDecimal?
  dsimp only
  rw [if_neg hc.ne', heq, if_pos (isFinite_abs hx)]
  rw [if_neg, if_neg]
  · exact not_lt.2 hmost
  · exact not_lt.2 hleast

/-! ## The shortest decimal -/

/-- A step of the grid, in quarters of the last place of the float. -/
theorem gridUnit_eq (e j : Int) :
    (gridUnit e j : ℚ) = 4 * (10 ^ j / 2 ^ e) * gridScale e j := by
  have hunit := gridUnit_mul e j
  rw [zpow_sub₀ (by norm_num)] at hunit
  field_simp at hunit ⊢
  linarith

/-- A decimal between the halfway points around a float stands for it. -/
theorem stands_of_covers {b : Binary} {j : Int} {c : Nat} (hpos : 0 < b.mantissa)
    (h : b.covers (gridScale b.exponent j) (gridUnit b.exponent j) c = true) :
    b.Stands (c * 10 ^ j) := by
  suffices hsuffices : IsNearest b.mantissa (c * 10 ^ j / 2 ^ b.exponent) ∧
      (b.narrowBelow = true → (b.mantissa - 1 / 4 : ℚ) ≤ c * 10 ^ j / 2 ^ b.exponent) from
    ⟨hsuffices.1, hsuffices.2⟩
  have hscale : (0 : ℚ) < gridScale b.exponent j := by exact_mod_cast gridScale_pos b.exponent j
  have hvalue : (c * gridUnit b.exponent j : ℚ) =
      4 * (c * 10 ^ j / 2 ^ b.exponent) * gridScale b.exponent j := by
    rw [gridUnit_eq]
    ring
  generalize (c * 10 ^ j / 2 ^ b.exponent : ℚ) = v at *
  generalize gridScale b.exponent j = scale at *
  generalize gridUnit b.exponent j = unit at *
  have hleft : ∀ k : Nat, k * scale ≤ c * unit ↔ (k : ℚ) ≤ 4 * v := by
    intro k
    rw [← mul_le_mul_iff_of_pos_right hscale, ← hvalue]
    exact_mod_cast Iff.rfl
  have hright : ∀ k : Nat, c * unit ≤ k * scale ↔ 4 * v ≤ k := by
    intro k
    rw [← mul_le_mul_iff_of_pos_right hscale, ← hvalue]
    exact_mod_cast Iff.rfl
  have hleast : ((4 * b.mantissa - (if b.narrowBelow then 1 else 2) : Nat) : ℚ) =
      4 * b.mantissa - (if b.narrowBelow then 1 else 2) := by
    rw [Nat.cast_sub (by split <;> omega)]
    push_cast
    rfl
  have hside : (if b.narrowBelow then 1 else 2 : ℚ) ≤ 2 := by
    split <;> norm_num
  unfold Binary.covers at h
  dsimp only at h
  -- the ends of the interval belong to it if the mantissa is even
  split at h
  · next heven =>
    rw [Bool.and_eq_true, decide_eq_true_eq, decide_eq_true_eq, hleft, hright, hleast] at h
    push_cast at h
    refine ⟨⟨by linarith, by linarith, fun _ => heven⟩, fun hnarrow => ?_⟩
    rw [if_pos hnarrow] at h
    linarith
  · rw [Bool.and_eq_true, decide_eq_true_eq, decide_eq_true_eq, ← not_le, ← not_le, hleft, hright,
      not_le, not_le, hleast] at h
    push_cast at h
    refine ⟨⟨by linarith, by linarith, ?_⟩, fun hnarrow => ?_⟩
    · rintro (heq | heq) <;> linarith
    · rw [if_pos hnarrow] at h
      linarith

/-- The shortest decimal of a float stands for it. -/
theorem stands_shortest (hx : x.isFinite = true) (hzero : (x == 0) = false) :
    0 < (shortest x).significand ∧
      (Binary.ofFloat x).Stands ((shortest x).significand * 10 ^ (shortest x).exponent) := by
  have hdecoded := isDecoded_ofFloat hx
  have hpos := (mantissa_pos_iff hx).2 hzero
  obtain ⟨c, j, hsearch, hgrid⟩ :=
    exists_onGrid hdecoded.mantissa_lt hdecoded.le_exponent hdecoded.exponent_le
  have hshortest : shortest x = ⟨c, j⟩ := hsearch
  rw [hshortest]
  exact ⟨(digits_le hpos hgrid).1, stands_of_covers hpos (covers_of_onGrid hgrid)⟩

/-- **The shortest decimal of a float** is read as this float. -/
theorem ofDecimal?_shortest (hx : x.isFinite = true) (hzero : (x == 0) = false) :
    ofDecimal? (shortest x).significand (shortest x).exponent = some x.abs := by
  obtain ⟨hc, hstands⟩ := stands_shortest hx hzero
  exact ofDecimal?_of_stands hx ((mantissa_pos_iff hx).2 hzero) hc hstands

end Floats

end HclOverlay.Decimal
