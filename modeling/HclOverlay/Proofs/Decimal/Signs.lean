import HclOverlay.Proofs.Decimal.RoundTrip

/-!
# Floats without their signs

The digits of a float are those of its magnitude, and the sign is written and read on its own. So
what is read has to be put together again.

* `signBit_of_unpack` — the sign bit and the sign of a float that is not zero.
* `abs_eq_self`, `neg_abs` — **the magnitude with its sign** is the float.
* `wholeValue?_abs` — the integer that it equals, if it is whole.
* `ofNat_eq_abs` — the float of this integer is the magnitude again; `toNat?_of_stands` — only whole
  floats have it as their decimal.
-/

namespace HclOverlay.Decimal

open Float.Model UnpackedFloat

variable {x : Float}

theorem toNat_unpackSign (bits : BitVec Format.binary64.numBits) :
    (unpackSign bits).toNat = bits.toNat / 2 ^ 63 := by
  have hbits : bits.toNat < 2 ^ 64 := bits.isLt
  have hsign : (unpackSign bits).toNat = bits.toNat / 2 ^ 63 % 2 := by
    rw [unpackSign_def, BitVec.extractLsb'_toNat, Nat.shiftRight_eq_div_pow]
    rfl
  omega

/-- A float is unpacked with the sign that its first bit says. -/
theorem signBit_of_unpack {s : Sign} {m : Nat} {e : Int} {h : 0 < m}
    (hx : x.toModel.unpack = .finite s m e h) : signBit x = true ↔ s = .negative := by
  let bits : BitVec Format.binary64.numBits := x.toModel.toBits.toBitVec
  have hbits : bits.toNat < 2 ^ 64 := bits.isLt
  have hsign := toNat_unpackSign bits
  have hunpack : UnpackedFloat.unpack Format.binary64 bits = .finite s m e h := hx
  obtain rfl : Sign.ofBitVec (unpackSign bits) = s := by
    unfold UnpackedFloat.unpack at hunpack
    dsimp only at hunpack
    split at hunpack
    · split at hunpack <;> cases hunpack
    · split at hunpack
      · split at hunpack <;> cases hunpack
        rfl
      · cases hunpack
        rfl
  have hbit : signBit x = decide (2 ^ 63 ≤ bits.toNat) := rfl
  rw [hbit, decide_eq_true_eq]
  by_cases hzero : unpackSign bits = 0#1
  · have hzero' : (unpackSign bits).toNat = 0 := congrArg BitVec.toNat hzero
    rw [hzero]
    exact iff_of_false (by omega) nofun
  · have hone : (unpackSign bits).toNat ≠ 0 := fun h => hzero (BitVec.eq_of_toNat_eq h)
    rw [Sign.ofBitVec, if_neg hzero]
    exact iff_of_true (by omega) rfl

variable (hx : x.isFinite = true) (hpos : 0 < (Binary.ofFloat x).mantissa)

include hx hpos

/-- A float that is not zero, with its sign. -/
theorem unpack_of_pos : ∃ s, x.toModel.unpack =
    .finite s (Binary.ofFloat x).mantissa (Binary.ofFloat x).exponent hpos := by
  obtain ⟨s, ⟨hzero, -⟩ | ⟨hm, hunpack⟩⟩ := (isDecoded_ofFloat hx).unpacked
  · omega
  · exact ⟨s, hunpack⟩

theorem unpack_abs : x.abs.toModel.unpack =
    .finite .positive (Binary.ofFloat x).mantissa (Binary.ofFloat x).exponent hpos := by
  have hdecoded := isDecoded_ofFloat hx
  obtain ⟨s, hunpack⟩ := unpack_of_pos hx hpos
  rw [abs_of_finite hunpack]
  exact unpack_pack hdecoded.mantissa_lt hdecoded.le_exponent hdecoded.exponent_le hdecoded.normal

theorem signBit_abs : signBit x.abs = false := by
  rw [Bool.eq_false_iff, Ne, signBit_of_unpack (unpack_abs hx hpos)]
  nofun

/-- **A positive float** is its magnitude. -/
theorem abs_eq_self (hsign : signBit x = false) : x.abs = x := by
  obtain ⟨s, hunpack⟩ := unpack_of_pos hx hpos
  have hpositive : s = .positive := by
    cases s with
    | positive => rfl
    | negative =>
      rw [(signBit_of_unpack hunpack).2 rfl] at hsign
      cases hsign
  rw [abs_of_finite hunpack, ← hpositive, ← hunpack]
  exact Float.ofBits_toBits x

/-- **A negative float** is its magnitude with a minus sign. -/
theorem neg_abs (hsign : signBit x = true) : -x.abs = x := by
  obtain ⟨s, hunpack⟩ := unpack_of_pos hx hpos
  have hnegative := (signBit_of_unpack hunpack).1 hsign
  have hneg : -x.abs = .ofModel (.pack x.abs.toModel.unpack.neg) := rfl
  rw [hneg, unpack_abs hx hpos]
  show Float.ofModel (.pack (.finite .negative _ _ hpos)) = x
  rw [← hnegative, ← hunpack]
  exact Float.ofBits_toBits x

/-- The magnitude has the same digits. -/
theorem ofFloat_abs : (Binary.ofFloat x.abs).mantissa = (Binary.ofFloat x).mantissa ∧
    (Binary.ofFloat x.abs).exponent = (Binary.ofFloat x).exponent := by
  have hunpack := unpack_abs hx hpos
  obtain ⟨s, ⟨-, heq⟩ | ⟨hm, heq⟩⟩ := (isDecoded_ofFloat (isFinite_abs hx)).unpacked
  · rw [hunpack] at heq
    cases heq
  · rw [hunpack] at heq
    obtain ⟨-, hmantissa, hexponent⟩ := UnpackedFloat.finite.inj heq
    exact ⟨hmantissa.symm, hexponent.symm⟩

theorem wholeValue?_abs :
    wholeValue? x.abs = (Binary.ofFloat x).toNat?.map fun n => (n : Int) := by
  obtain ⟨hmantissa, hexponent⟩ := ofFloat_abs hx hpos
  have hsame : (Binary.ofFloat x.abs).toNat? = (Binary.ofFloat x).toNat? := by
    rw [Binary.toNat?, Binary.toNat?, hmantissa, hexponent]
  rw [wholeValue?, if_pos (isFinite_abs hx), hsame, signBit_abs hx hpos]
  rfl

omit hx hpos

/-- The natural number that a magnitude is. -/
theorem toNat?_eq_some_iff {b : Binary} {n : Nat} :
    b.toNat? = some n ↔ (n : ℚ) = b.mantissa * 2 ^ b.exponent := by
  unfold Binary.toNat? pow2
  split
  · next hexponent =>
    obtain ⟨k, hk⟩ := Int.eq_ofNat_of_zero_le hexponent
    rw [hk, Int.toNat_natCast, zpow_natCast, Option.some.injEq, eq_comm]
    exact_mod_cast Iff.rfl
  · next hexponent =>
    obtain ⟨k, hk⟩ : ∃ k : Nat, b.exponent = -k := ⟨b.exponent.natAbs, by omega⟩
    have hunit : 0 < 2 ^ k := Nat.two_pow_pos k
    have hvalue : (n : ℚ) = b.mantissa * 2 ^ (-k : ℤ) ↔ n * 2 ^ k = b.mantissa := by
      rw [zpow_neg, zpow_natCast, ← div_eq_mul_inv, eq_div_iff (by positivity)]
      exact_mod_cast Iff.rfl
    rw [hk, neg_neg, Int.toNat_natCast, hvalue]
    show (if b.mantissa % 2 ^ k = 0 then some (b.mantissa / 2 ^ k) else none) = some n ↔ _
    split
    · next hmod =>
      rw [Option.some.injEq, Nat.div_eq_iff_eq_mul_left hunit (Nat.dvd_of_mod_eq_zero hmod), eq_comm]
    · next hmod =>
      refine iff_of_false nofun ?_
      rintro heq
      rw [← heq, Nat.mul_mod_left] at hmod
      exact hmod rfl

/-- The float of the natural number that a magnitude is. -/
theorem ofNat_eq_abs (hx : x.isFinite = true) (hpos : 0 < (Binary.ofFloat x).mantissa) {n : Nat}
    (h : (Binary.ofFloat x).toNat? = some n) : Float.ofNat n = x.abs := by
  have hvalue := toNat?_eq_some_iff.1 h
  have hn : 0 < n := by
    have hproduct : (0 : ℚ) < (Binary.ofFloat x).mantissa * 2 ^ (Binary.ofFloat x).exponent := by
      positivity
    rw [← hvalue] at hproduct
    exact_mod_cast hproduct
  have hrounded := (roundedFrom_ofScientific (k := 0) hn (by decide)).once
  refine eq_abs_of_stands hx hpos hrounded ?_
  have hexact : ((n * 10 ^ 0 : Nat) / 2 ^ (Binary.ofFloat x).exponent : ℚ) =
      (Binary.ofFloat x).mantissa := by
    rw [pow_zero, mul_one, hvalue, mul_div_cancel_right₀ _ (by positivity)]
  refine ⟨?_, fun _ => ?_⟩ <;> rw [hexact]
  · exact isNearest_self _
  · linarith

/-- A float that a natural number stands for is whole. -/
theorem toNat?_of_stands {b : Binary} {N : Nat} (hpos : 0 < b.mantissa) (h : b.Stands N) :
    ∃ n, b.toNat? = some n ∧ n ≤ 2 * N := by
  have hunit : (0 : ℚ) < 2 ^ b.exponent := by positivity
  have hwhole : ∃ n, b.toNat? = some n := by
    rcases Int.le_total 0 b.exponent with hexponent | hexponent
    · obtain ⟨k, hk⟩ := Int.eq_ofNat_of_zero_le hexponent
      refine ⟨b.mantissa * 2 ^ k, toNat?_eq_some_iff.2 ?_⟩
      rw [hk, zpow_natCast]
      push_cast
      rfl
    · -- the mantissa is the nearest of the natural numbers, which this number is itself
      obtain ⟨k, hk⟩ : ∃ k : Nat, b.exponent = -k := ⟨b.exponent.natAbs, by omega⟩
      have hscaled : (N / 2 ^ b.exponent : ℚ) = (N * 2 ^ k : Nat) := by
        rw [hk, zpow_neg, zpow_natCast, div_inv_eq_mul]
        push_cast
        rfl
      have hmantissa := (hscaled ▸ h.nearest).unique (isNearest_self _)
      refine ⟨N, toNat?_eq_some_iff.2 ?_⟩
      rw [hmantissa, ← hscaled, div_mul_cancel₀ _ hunit.ne']
  obtain ⟨n, hn⟩ := hwhole
  refine ⟨n, hn, ?_⟩
  have hlower := (le_div_iff₀ hunit).1 h.nearest.ge
  have hone : (1 : ℚ) ≤ b.mantissa := by exact_mod_cast hpos
  have hle : (n : ℚ) ≤ 2 * N := by
    calc (n : ℚ) = b.mantissa * 2 ^ b.exponent := toNat?_eq_some_iff.1 hn
      _ ≤ 2 * (b.mantissa - 1 / 2) * 2 ^ b.exponent := by
        gcongr
        linarith
      _ ≤ 2 * N := by linarith
  exact_mod_cast hle

end HclOverlay.Decimal
