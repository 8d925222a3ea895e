import HclOverlay.Proofs.Decimal.Packing

/-!
# What is computed with finite floats

Numbers that are read are floats of natural numbers, multiplied or divided by powers of ten. Such a
computation ends with a finite float unless its exact result is beyond the last halfway point.

* `isDecoded_ofFloat` — the mantissa and the exponent of a finite float, as they are decoded.
* `isFinite_mul`, `isFinite_div` — **products and quotients**.
* `roundedFrom_ofScientific` — decimals that are natural numbers are rounded once.
* `Nearby`, `nearby_ofScientific` — their floats are half a unit too large at most.
* `certain`, `isFinite_mul_power` — **a product that is not too large** is finite.
-/

namespace HclOverlay.Decimal

open Float.Model UnpackedFloat

/-! ## Decoding -/

/-- The magnitude of a finite float, as it is decoded. -/
structure Binary.IsDecoded (b : Binary) (u : UnpackedFloat) : Prop where
  mantissa_lt : b.mantissa < 2 ^ 53
  le_exponent : -1074 ≤ b.exponent
  exponent_le : b.exponent ≤ 971
  normal : 2 ^ 52 ≤ b.mantissa ∨ b.exponent = -1074
  narrow : b.mantissa = 2 ^ 52 → -1074 < b.exponent → b.narrowBelow = true
  unpacked : ∃ s, b.mantissa = 0 ∧ u = .zero s ∨ ∃ h, u = .finite s b.mantissa b.exponent h

theorem isDecoded_ofFloat {x : Float} (h : x.isFinite = true) :
    (Binary.ofFloat x).IsDecoded x.toModel.unpack := by
  let bits : BitVec Format.binary64.numBits := x.toModel.toBits.toBitVec
  have hexp := toNat_unpackExponent bits
  have hmantissa := (unpackMantissa bits).isLt
  have hexponent := (unpackExponent bits).isLt
  have hfinite : (UnpackedFloat.unpack Format.binary64 bits).isFinite = true := h
  have hdecoded : Binary.ofFloat x =
      if bits.toNat / 2 ^ 52 % 2 ^ 11 = 0 then ⟨bits.toNat % 2 ^ 52, -1074, false⟩
      else ⟨2 ^ 52 + bits.toNat % 2 ^ 52, ((bits.toNat / 2 ^ 52 % 2 ^ 11 : Nat) : Int) - 1075,
        bits.toNat % 2 ^ 52 = 0 && 1 < bits.toNat / 2 ^ 52 % 2 ^ 11⟩ := rfl
  have hunpack : x.toModel.unpack = UnpackedFloat.unpack Format.binary64 bits := rfl
  rw [hunpack, hdecoded, ← toNat_unpackExponent, ← toNat_unpackMantissa]
  unfold UnpackedFloat.unpack at hfinite ⊢
  dsimp only at hfinite ⊢
  have hones : unpackExponent bits ≠ -1#_ := by
    intro hones
    rw [if_pos hones] at hfinite
    split at hfinite <;> cases hfinite
  rw [if_neg hones]
  by_cases hzero : unpackExponent bits = 0#_
  · rw [if_pos hzero, if_pos (by rw [hzero]; rfl)]
    refine ⟨?_, Int.le_refl _, show (-1074 : Int) ≤ 971 by decide, .inr rfl,
      fun _ h => absurd h (Int.lt_irrefl _), Sign.ofBitVec (unpackSign bits), ?_⟩
    · dsimp only at *
      omega
    · by_cases h : unpackMantissa bits = 0#52
      · rw [dif_pos h]
        exact .inl ⟨by rw [h]; rfl, rfl⟩
      · rw [dif_neg h]
        have hpos : 0 < (unpackMantissa bits).toNat :=
          Nat.pos_of_ne_zero fun hzero => h (BitVec.eq_of_toNat_eq hzero)
        exact .inr ⟨hpos, by rw [hzero]; rfl⟩
  · have hpos : (unpackExponent bits).toNat ≠ 0 := fun h => hzero (BitVec.eq_of_toNat_eq h)
    have hne : (unpackExponent bits).toNat ≠ 2047 := fun h => hones (BitVec.eq_of_toNat_eq h)
    have hnormal := toNat_normal (unpackMantissa bits)
    rw [if_neg hzero, if_neg hpos]
    refine ⟨?_, ?_, ?_, .inl ?_, fun _ _ => ?_, Sign.ofBitVec (unpackSign bits), .inr ⟨?_, ?_⟩⟩
    all_goals dsimp only at *
    · omega
    · omega
    · omega
    · omega
    · rw [Bool.and_eq_true, decide_eq_true_eq, decide_eq_true_eq]
      omega
    · omega
    · congr

/-! ## Products and quotients -/

theorem Binary.IsDecoded.cases {b : Binary} {u : UnpackedFloat} (h : b.IsDecoded u) :
    (∃ s, u = .zero s) ∨ ∃ s hpos, u = .finite s b.mantissa b.exponent hpos := by
  obtain ⟨s, ⟨-, hu⟩ | ⟨hpos, hu⟩⟩ := h.unpacked
  · exact .inl ⟨s, hu⟩
  · exact .inr ⟨s, hpos, hu⟩

/-- Only zero has no digits. -/
theorem mantissa_pos_iff {x : Float} (hx : x.isFinite = true) :
    0 < (Binary.ofFloat x).mantissa ↔ (x == 0) = false := by
  have hcompare : (x == 0) =
      UnpackedFloat.beq x.toModel.unpack (0 : Float).toModel.unpack := rfl
  rw [hcompare]
  obtain ⟨s, ⟨hnone, hunpack⟩ | ⟨hpos, hunpack⟩⟩ := (isDecoded_ofFloat hx).unpacked
  · rw [hunpack, hnone]
    exact iff_of_false (lt_irrefl 0) (by cases s <;> nofun)
  · rw [hunpack]
    exact iff_of_true hpos (by cases s <;> rfl)

variable {x y : Float} {s s' : Sign} {m m' : Nat} {e e' : Int} {hm : 0 < m} {hm' : 0 < m'}

/-- A product of finite floats is finite or too large. -/
theorem isFinite_mul (hx : x.isFinite = true) (hy : y.isFinite = true) :
    (x * y).isFinite = true ∨ (x * y).isInf = true := by
  have hproduct : (mul Format.binary64 x.toModel.unpack y.toModel.unpack).isFinite = true := by
    rcases (isDecoded_ofFloat hx).cases with ⟨s, hx⟩ | ⟨s, hm, hx⟩ <;>
      rcases (isDecoded_ofFloat hy).cases with ⟨s', hy⟩ | ⟨s', hm', hy⟩ <;> rw [hx, hy]
    · rfl
    · rfl
    · rfl
    · exact isFinite_round _ _ _ _
  exact (isFinite_pack hproduct).imp_right And.left

theorem isFinite_mul_of_lt (hx : x.toModel.unpack = .finite s m e hm)
    (hy : y.toModel.unpack = .finite s' m' e' hm') (he : e + e' ≤ 970)
    (h : (m * m' * 2 ^ (e + e' - 970) : ℚ) < 2 ^ 54 - 1) : (x * y).isFinite = true := by
  have hrange : InRange (mul Format.binary64 x.toModel.unpack y.toModel.unpack) := by
    rw [hx, hy]
    exact inRange_round_exact he (by exact_mod_cast h) _
  have hproduct : (mul Format.binary64 x.toModel.unpack y.toModel.unpack).isFinite = true := by
    rw [hx, hy]
    exact isFinite_round _ _ _ _
  exact (isFinite_pack hproduct).resolve_right fun h => h.2 hrange

/-- A finite float stays finite if it is divided by one that is not too small. -/
theorem isFinite_div (hx : x.isFinite = true) (hy : y.toModel.unpack = .finite s' m' e' hm')
    (hlow : 2 ^ 52 ≤ m') (he' : -49 ≤ e') : (x / y).isFinite = true := by
  have hdecoded := isDecoded_ofFloat hx
  have hmantissa := hdecoded.mantissa_lt
  have hmax := hdecoded.exponent_le
  have hquotient : (div Format.binary64 x.toModel.unpack y.toModel.unpack).isFinite = true ∧
      InRange (div Format.binary64 x.toModel.unpack y.toModel.unpack) := by
    rcases hdecoded.cases with ⟨s, hx⟩ | ⟨s, hm, hx⟩ <;> rw [hx, hy]
    · exact ⟨rfl, trivial⟩
    generalize (Binary.ofFloat x).mantissa = m at *
    generalize (Binary.ofFloat x).exponent = e at *
    refine ⟨isFinite_round _ _ _ _, ?_⟩
    have hlog : m.log2 < 53 := log2_lt_of_lt (by decide) hmantissa
    have hlog' : 52 ≤ m'.log2 := (Nat.le_log2 hm'.ne').2 hlow
    -- the exponent that the quotient is computed with, and how far the dividend is shifted for it
    let t := min (e - e') (max (totalExponent m e - totalExponent m' e' - 53) (-1074))
    let k := (e - e' - t).toNat
    have ht : t ≤ e - e' ∧ t ≤ 967 := by
      simp only [t, totalExponent]
      omega
    have hsmall : (m <<< k / m').log2 < k + 1 := by
      refine log2_lt_of_lt (Nat.succ_pos k) (Nat.div_lt_of_lt_mul ?_)
      rw [Nat.shiftLeft_eq]
      calc m * 2 ^ k < 2 ^ 53 * 2 ^ k := Nat.mul_lt_mul_of_pos_right hmantissa (Nat.two_pow_pos k)
        _ = 2 ^ 52 * 2 ^ (k + 1) := by ring
        _ ≤ m' * 2 ^ (k + 1) := Nat.mul_le_mul_right _ hlow
    exact inRange_round (m := m <<< k / m') (e := t) (by omega) (by omega) _ _
  exact (isFinite_pack hquotient.1).resolve_right fun h => h.2 hquotient.2

theorem isFinite_neg (hx : x.isFinite = true) : (-x).isFinite = true := by
  have hdecoded := isDecoded_ofFloat hx
  have hneg : x.toModel.unpack.neg.isFinite = true ∧ InRange x.toModel.unpack.neg := by
    rcases hdecoded.cases with ⟨s, hx⟩ | ⟨s, hm, hx⟩ <;> rw [hx]
    · exact ⟨rfl, trivial⟩
    · exact ⟨rfl, hdecoded.le_exponent, hdecoded.exponent_le⟩
  exact (isFinite_pack hneg.1).resolve_right fun h => h.2 hneg.2

/-! ## Natural numbers -/

/-- The least number that is rounded beyond every finite float. -/
def overflow : ℚ := (2 ^ 54 - 1) * 2 ^ (970 : ℤ)

/-- A float with all of its digits that stands for a natural number, rounded. -/
def Nearby (x : Float) (n : Nat) : Prop :=
  ∃ s m e h, x.toModel.unpack = .finite s m e h ∧ 2 ^ 52 ≤ m ∧ n.log2 ≤ e + 52 ∧ e ≤ 971 ∧
    (m * 2 ^ e : ℚ) ≤ n * (1 + 2 ^ (-53 : ℤ))

theorem nearby_round {n m : Nat} {e : Int} (hn : 0 < n) (hm : 52 ≤ m.log2) (hmin : -1074 ≤ e)
    (hmax : e ≤ 970) (hvalue : (m * 2 ^ e : ℚ) = n) (hlt : (n : ℚ) < overflow) (s : Sign) :
    Nearby (.ofModel (.pack (roundWithAccuracy Format.binary64 s m e .exact))) n := by
  have hsmall : (m * 2 ^ (e - 970) : ℚ) < 2 ^ 54 - 1 := by
    rw [zpow_sub₀ (by norm_num), ← mul_div_assoc, hvalue, div_lt_iff₀ (by positivity)]
    exact hlt
  have hrange := inRange_round_exact hmax hsmall s
  have hmagnitude := magnitude_round (m := m) hmin s
  obtain ⟨M, E, h, heq, hlow, hhigh, hE⟩ := round_normal hmin hm s
  rw [heq] at hrange hmagnitude ⊢
  have hunpack := unpack_pack (s := s) (h := h) hhigh hrange.1 hrange.2 (.inl hlow)
  refine ⟨s, M, E, h, hunpack, hlow, ?_, hrange.2, hvalue ▸ hmagnitude⟩
  -- all digits are used, so the exponent is not below that of the exact number
  have hexp := exponent_surplus m e
  have hlog : n.log2 < m.log2 + 1 + e := by
    rw [← zpow_lt_zpow_iff_right₀ (show (1 : ℚ) < 2 by norm_num)]
    calc (2 ^ (n.log2 : ℤ) : ℚ) ≤ n := by exact_mod_cast Nat.log2_self_le hn.ne'
      _ = m * 2 ^ e := hvalue.symm
      _ < 2 ^ (m.log2 + 1) * 2 ^ e := by
        gcongr
        exact_mod_cast Nat.lt_log2_self
      _ = 2 ^ (m.log2 + 1 + e) := by
        rw [zpow_add₀ (by norm_num)]
        norm_cast
  omega

theorem rounded_of_surplus {m : Nat} {e : Int} (h : surplus m e = 0) : rounded m e .exact = m := by
  have hlow := le_rounded m e .exact
  have hhigh : 2 * rounded m e .exact * 2 ^ surplus m e ≤ 2 * m + 2 ^ surplus m e :=
    roundedMantissa_shiftRight_le m (surplus m e)
  rw [h] at hlow hhigh
  omega

theorem log2_shiftLeft {n : Nat} (hn : 0 < n) (k : Nat) : (n <<< k).log2 = n.log2 + k := by
  rw [Nat.shiftLeft_eq, Nat.log2_eq_iff (by positivity)]
  obtain ⟨hlow, hhigh⟩ := (Nat.log2_eq_iff hn.ne').1 rfl
  constructor
  · rw [Nat.pow_add]
    exact Nat.mul_le_mul_right _ hlow
  · rw [Nat.add_right_comm, Nat.pow_add]
    exact Nat.mul_lt_mul_of_pos_right hhigh (Nat.two_pow_pos k)

/-- Numbers of no more digits than a float has are converted exactly. -/
theorem unpack_toFloat {n : Nat} (hn : 0 < n) (hlt : n < 2 ^ 53) :
    ∃ h, n.toUInt64.toFloat.toModel.unpack =
      .finite .positive (n <<< (52 - n.log2)) (n.log2 - 52) h := by
  have hlog : n.log2 < 53 := log2_lt_of_lt (by decide) hlt
  have hlog' := log2_shiftLeft hn (52 - n.log2)
  have hpos : 0 < n <<< (52 - n.log2) := by
    rw [Nat.shiftLeft_eq]
    positivity
  have hsurplus : surplus (n <<< (52 - n.log2)) (n.log2 - 52) = 0 := by
    rw [surplus_eq, hlog']
    omega
  have hround := round_cases .positive (n <<< (52 - n.log2)) (n.log2 - 52) .exact
  rw [rounded_of_surplus hsurplus, hsurplus] at hround
  have hofNat : UnpackedFloat.ofUInt64 Format.binary64 n.toUInt64 =
      roundWithAccuracy Format.binary64 .positive (n <<< (52 - n.log2)) (n.log2 - 52) .exact := by
    have hsize : n.toUInt64.toNat = n := by
      rw [Nat.toUInt64_eq, UInt64.toNat_ofNat']
      exact Nat.mod_eq_of_lt (by omega)
    unfold UnpackedFloat.ofUInt64 UnpackedFloat.ofNat UnpackedFloat.ofInt UnpackedFloat.normalize
    rw [hsize, Int.compare_eq_gt.2 (by omega)]
    have hshift : (0 - Format.binary64.targetExponent (totalExponent n 0)).toNat = 52 - n.log2 := by
      rw [targetExponent_eq, totalExponent]
      omega
    show roundWithAccuracy Format.binary64 .positive
      (n <<< (0 - Format.binary64.targetExponent (totalExponent n 0)).toNat)
      (0 - (0 - Format.binary64.targetExponent (totalExponent n 0)).toNat) .exact = _
    rw [hshift, show (0 : Int) - (52 - n.log2 : Nat) = n.log2 - 52 by omega]
  have hnormal := (Nat.log2_eq_iff hpos.ne').1 (hlog'.trans (show _ = 52 by omega))
  have hunpack : n.toUInt64.toFloat.toModel.unpack =
      (Float.Model.pack (UnpackedFloat.ofUInt64 Format.binary64 n.toUInt64)).unpack := rfl
  rw [hunpack, hofNat]
  rcases hround with ⟨hzero, -⟩ | ⟨_, -, h⟩ | ⟨hmax, -⟩
  · omega
  · rw [h, Int.natCast_zero, Int.add_zero]
    exact ⟨hpos, unpack_pack hnormal.2 (by omega) (by omega) (.inl hnormal.1)⟩
  · omega

/-- The small powers of ten are floats themselves. -/
theorem unpack_power : ∀ k : Fin 23,
    (match (Float.exactlyRepresentablePowersOfTen[k]).toModel.unpack with
      | .finite .positive m e _ =>
        2 ^ 52 ≤ m && -52 ≤ e && e ≤ 52 && m * 2 ^ (e + 52).toNat == 10 ^ k.val * 2 ^ 52
      | _ => false) = true := by decide +kernel

theorem exists_unpack_power {k : Nat} (hk : k < Float.exactlyRepresentablePowersOfTen.size) :
    ∃ m e h, (Float.exactlyRepresentablePowersOfTen[k]).toModel.unpack = .finite .positive m e h ∧
      2 ^ 52 ≤ m ∧ -52 ≤ e ∧ e ≤ 52 ∧ (m * 2 ^ e : ℚ) = 10 ^ k := by
  have hpower := unpack_power ⟨k, hk⟩
  split at hpower
  · next m e h hunpack =>
    simp only [Bool.and_eq_true, decide_eq_true_eq, beq_iff_eq] at hpower
    obtain ⟨⟨⟨hlow, hmin⟩, hmax⟩, hpower⟩ := hpower
    refine ⟨m, e, h, hunpack, hlow, hmin, hmax, ?_⟩
    have hpower : (m * 2 ^ (e + 52).toNat : ℚ) = 10 ^ k * 2 ^ 52 := by exact_mod_cast hpower
    rw [← zpow_natCast, Int.toNat_of_nonneg (by omega), zpow_add₀ (by norm_num),
      ← mul_assoc] at hpower
    exact mul_right_cancel₀ (by positivity) hpower
  · cases hpower

theorem shiftLeft_mul_zpow (n j : Nat) : ((n <<< j : Nat) * 2 ^ (-j : ℤ) : ℚ) = n := by
  rw [Nat.shiftLeft_eq, Nat.cast_mul, Nat.cast_pow, zpow_neg, zpow_natCast]
  exact mul_inv_cancel_right₀ (by positivity) _

/-- The float of a number that is computed with all of its digits and rounded once. -/
def RoundedFrom (x : Float) (q : ℚ) : Prop :=
  ∃ (m : Nat) (e : Int), 52 ≤ m.log2 ∧ -1074 ≤ e ∧ e ≤ 970 ∧ (m * 2 ^ e : ℚ) = q ∧
    x = .ofModel (.pack (roundWithAccuracy Format.binary64 .positive m e .exact))

/-- Small numbers and powers are multiplied as floats. -/
theorem roundedFrom_product {n k : Nat} (hn : 0 < n) (h : n < 2 ^ 53 ∧ k ≤ 22) :
    RoundedFrom (Float.ofScientific n false k) (n * 10 ^ k : Nat) := by
  have hsmall : k < Float.exactlyRepresentablePowersOfTen.size := Nat.lt_succ_of_le h.2
  obtain ⟨hm, hx⟩ := unpack_toFloat hn h.1
  obtain ⟨m, e, hm', hy, hlow, hmin, hmax, hvalue⟩ := exists_unpack_power hsmall
  have hlogn : n.log2 < 53 := log2_lt_of_lt (by decide) h.1
  refine ⟨n <<< (52 - n.log2) * m, n.log2 - 52 + e, ?_, by omega, by omega, ?_, ?_⟩
  · rw [Nat.le_log2 (by positivity)]
    exact hlow.trans (Nat.le_mul_of_pos_left _ hm)
  · have hshift := shiftLeft_mul_zpow n (52 - n.log2)
    rw [show -((52 - n.log2 : Nat) : ℤ) = n.log2 - 52 by omega] at hshift
    rw [zpow_add₀ (by norm_num), Nat.cast_mul, mul_mul_mul_comm, hshift, hvalue]
    push_cast
    rfl
  · have hfloat : Float.ofScientific n false k =
        n.toUInt64.toFloat * Float.exactlyRepresentablePowersOfTen[k] := dif_pos h
    rw [hfloat]
    show Float.ofModel (.pack (mul Format.binary64 _ _)) = _
    rw [hx, hy]
    rfl

/-- Other numbers and powers are multiplied as natural numbers. -/
theorem roundedFrom_scientific {n k : Nat} (hn : 0 < n) (hk : k ≤ 2048)
    (h : ¬(n < 2 ^ 53 ∧ k ≤ 22)) :
    RoundedFrom (Float.ofScientific n false k) (n * 10 ^ k : Nat) := by
  refine ⟨n <<< 53 * 10 ^ k, -53, ?_, by decide, by decide, ?_, ?_⟩
  · have hlog := log2_shiftLeft hn 53
    have hpos : 0 < n <<< 53 := by
      rw [Nat.shiftLeft_eq]
      positivity
    have hlow : 2 ^ 52 ≤ n <<< 53 := (Nat.le_log2 hpos.ne').1 (by omega)
    rw [Nat.le_log2 (Nat.mul_pos hpos (by positivity)).ne']
    exact hlow.trans (Nat.le_mul_of_pos_right _ (by positivity))
  · have hshift := shiftLeft_mul_zpow n 53
    rw [Nat.cast_mul, mul_right_comm, Nat.cast_mul]
    exact congrArg (· * _) hshift
  · have hscientific : UnpackedFloat.ofScientific Format.binary64 n (Int.ofNat k) =
        roundWithAccuracy Format.binary64 .positive (n <<< 53 * 10 ^ k) (-53) .exact := by
      unfold UnpackedFloat.ofScientific
      rw [dif_neg hn.ne', if_neg, if_neg, if_pos]
      · rfl
      · exact Int.natCast_nonneg k
      · show ¬(k : Int) < -((2 : Int) ^ 11 + n.log2)
        omega
      · show ¬(k : Int) > 2 ^ 11
        omega
    have hfloat : Float.ofScientific n false k =
        .ofModel (.pack (UnpackedFloat.ofScientific Format.binary64 n (Int.ofNat k))) := dif_neg h
    rw [hfloat, hscientific]

/-- **Decimals** that are natural numbers. -/
theorem roundedFrom_ofScientific {n k : Nat} (hn : 0 < n) (hk : k ≤ 2048) :
    RoundedFrom (Float.ofScientific n false k) (n * 10 ^ k : Nat) := by
  by_cases h : n < 2 ^ 53 ∧ k ≤ 22
  · exact roundedFrom_product hn h
  · exact roundedFrom_scientific hn hk h

theorem nearby_ofScientific {n k : Nat} (hn : 0 < n) (hk : k ≤ 308)
    (hlt : (n * 10 ^ k : Nat) < overflow) : Nearby (Float.ofScientific n false k) (n * 10 ^ k) := by
  obtain ⟨m, e, hdigits, hmin, hmax, hvalue, heq⟩ :=
    roundedFrom_ofScientific hn (hk.trans (by decide))
  rw [heq]
  exact nearby_round (by positivity) hdigits hmin hmax hvalue hlt .positive

theorem Nearby.isFinite {n : Nat} (h : Nearby x n) : x.isFinite = true := by
  obtain ⟨s, m, e, hm, hx, -⟩ := h
  show x.toModel.unpack.isFinite = true
  rw [hx]
  rfl

theorem nearby_ofNat {n : Nat} (hn : 0 < n) (hlt : n < unsignedLimit) :
    Nearby (Float.ofNat n) n := by
  have hlt : ((n * 10 ^ 0 : Nat) : ℚ) < overflow := by
    calc ((n * 10 ^ 0 : Nat) : ℚ) < 2 ^ 64 := by
          rw [pow_zero, mul_one]
          exact_mod_cast hlt
      _ ≤ (2 ^ 54 - 1) * 2 ^ (11 : ℤ) := by norm_num
      _ ≤ overflow := by
          rw [overflow]
          gcongr
          · norm_num
          · norm_num
  have h := nearby_ofScientific hn (by decide) hlt
  rwa [pow_zero, mul_one] at h

theorem isFinite_ofNat {n : Nat} (hlt : n < unsignedLimit) : (Float.ofNat n).isFinite = true := by
  rcases Nat.eq_zero_or_pos n with rfl | hn
  · decide +kernel
  · exact (nearby_ofNat hn hlt).isFinite

theorem power_lt_overflow {k : Nat} (hk : k ≤ 308) : ((1 * 10 ^ k : Nat) : ℚ) < overflow := by
  calc ((1 * 10 ^ k : Nat) : ℚ) = 10 ^ k := by push_cast; exact one_mul _
    _ ≤ 10 ^ (77 * 4) := pow_le_pow_right₀ (by norm_num) hk
    _ = (10 ^ 77) ^ 4 := pow_mul _ _ _
    _ ≤ (111 * 2 ^ (249 : ℤ)) ^ 4 := by
      gcongr
      norm_num
    _ = 111 ^ 4 * 2 ^ 26 * 2 ^ (970 : ℤ) := by
      rw [mul_pow, mul_assoc, ← zpow_natCast (2 ^ (249 : ℤ) : ℚ) 4, ← zpow_mul,
        ← zpow_natCast (2 : ℚ) 26, ← zpow_add₀ (by norm_num)]
      rfl
    _ < overflow := by
      rw [overflow]
      gcongr
      norm_num

theorem nearby_power {k : Nat} (hk : k ≤ 308) : Nearby (Float.ofScientific 1 false k) (10 ^ k) := by
  have h := nearby_ofScientific Nat.one_pos hk (power_lt_overflow hk)
  rwa [one_mul] at h

/-- Powers of ten divide. -/
theorem isFinite_div_power {k : Nat} (hx : x.isFinite = true) (hpos : 0 < k) (hk : k ≤ 308) :
    (x / Float.ofScientific 1 false k).isFinite = true := by
  obtain ⟨s, m, e, hm, hy, hlow, hlog, -⟩ := nearby_power hk
  have hdigits : 3 ≤ (10 ^ k).log2 := by
    rw [Nat.le_log2 (by positivity)]
    calc 2 ^ 3 ≤ 10 ^ 1 := by decide
      _ ≤ 10 ^ k := Nat.pow_le_pow_right (by decide) hpos
  exact isFinite_div hx hy hlow (by omega)

/-- Up to here a product is finite for certain, although its factors were rounded; beyond lie no
more than three floats. -/
def certain : ℚ := (2 ^ 54 - 7) * 2 ^ (970 : ℤ)

/-- **A product that is not too large**, of a number and a power. -/
theorem isFinite_mul_power {n k : Nat} (hx : Nearby x n) (hk : k ≤ 308)
    (h : ((n * 10 ^ k : Nat) : ℚ) ≤ certain) :
    (x * Float.ofScientific 1 false k).isFinite = true := by
  obtain ⟨s, m, e, hm, hx, hlow, hlog, hmax, hvalue⟩ := hx
  obtain ⟨s', m', e', hm', hy, hlow', hlog', hmax', hvalue'⟩ := nearby_power hk
  have hproduct : (m * m' * 2 ^ (e + e' - 970) : ℚ) < 2 ^ 54 - 1 := by
    calc (m * m' * 2 ^ (e + e' - 970) : ℚ) = m * 2 ^ e * (m' * 2 ^ e') / 2 ^ (970 : ℤ) := by
          rw [zpow_sub₀ (by norm_num), zpow_add₀ (by norm_num)]
          ring
      _ ≤ n * (1 + 2 ^ (-53 : ℤ)) * ((10 ^ k : Nat) * (1 + 2 ^ (-53 : ℤ))) / 2 ^ (970 : ℤ) := by
        gcongr
      _ = (n * 10 ^ k : Nat) / 2 ^ (970 : ℤ) * (1 + 2 ^ (-53 : ℤ)) ^ 2 := by
          generalize (2 : ℚ) ^ (970 : ℤ) = unit
          push_cast
          ring
      _ ≤ (2 ^ 54 - 7) * (1 + 2 ^ (-53 : ℤ)) ^ 2 := by
          gcongr
          rwa [div_le_iff₀ (by positivity), ← certain]
      _ < 2 ^ 54 - 1 := by norm_num
  have hexponent : e + e' ≤ 970 := by
    by_contra hlarge
    have : (2 ^ 54 : ℚ) ≤ m * m' * 2 ^ (e + e' - 970) := by
      calc (2 ^ 54 : ℚ) ≤ 2 ^ 52 * 2 ^ 52 * 2 ^ (1 : ℤ) := by norm_num
        _ ≤ m * m' * 2 ^ (e + e' - 970) := by
          gcongr
          · exact_mod_cast hlow
          · exact_mod_cast hlow'
          · norm_num
          · omega
    linarith
  exact isFinite_mul_of_lt hx hy hexponent hproduct

end HclOverlay.Decimal
