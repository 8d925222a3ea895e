import HclOverlay.Proofs.Decimal.Rounding
import Mathlib

/-!
# How floats are packed

The result of an operation is packed into 64 bits, and unpacked by the next operation. Nothing is
lost on the way, unless the exponent is too large. (`Float.ofBits_toBits` is the other direction.)

* `unpack_packComponents` — the three parts of a float.
* `isFinite_pack` — packing makes nothing infinite that is in the range.
* `unpack_pack` — **what is packed** is unpacked as itself.
-/

namespace HclOverlay.Decimal

open Float.Model UnpackedFloat

/-! ## Parts -/

theorem toNat_unpackExponent (bits : BitVec Format.binary64.numBits) :
    (unpackExponent bits).toNat = bits.toNat / 2 ^ 52 % 2 ^ 11 := by
  rw [unpackExponent_def, BitVec.extractLsb'_toNat, Nat.shiftRight_eq_div_pow]

theorem toNat_unpackMantissa (bits : BitVec Format.binary64.numBits) :
    (unpackMantissa bits).toNat = bits.toNat % 2 ^ 52 := by
  rw [unpackMantissa_def, BitVec.extractLsb'_toNat, Nat.shiftRight_zero]

/-- The implicit bit stands before the others. -/
theorem toNat_normal (fraction : BitVec 52) :
    (1#1 ++ fraction).toNat = 2 ^ 52 + fraction.toNat := by
  rw [BitVec.toNat_append, ← Nat.shiftLeft_add_eq_or_of_lt fraction.isLt]
  rfl

/-! ## Unpacking -/

/-- What is unpacked from an exponent that is not reserved. -/
theorem unpack_packComponents (s : Sign) {exponent : BitVec 11} (fraction : BitVec 52)
    (h : exponent ≠ -1#11) :
    UnpackedFloat.unpack Format.binary64 (packComponents Format.binary64 s exponent fraction) =
      if exponent = 0#11 then
        if h : fraction = 0#52 then .zero s
        else .finite s fraction.toNat (-1074)
          (Nat.pos_of_ne_zero fun hzero => h (BitVec.eq_of_toNat_eq hzero))
      else .finite s (2 ^ 52 + fraction.toNat) (exponent.toNat - 1075)
        (Nat.add_pos_left (Nat.two_pow_pos 52) _) := by
  have hsign : Sign.ofBitVec (unpackSign (packComponents Format.binary64 s exponent fraction)) =
      s := by
    rw [unpackSign_packComponents, Sign.ofBitVec_toBitVec]
  have hexponent : unpackExponent (packComponents Format.binary64 s exponent fraction) =
    exponent := unpackExponent_packComponents
  have hfraction : unpackMantissa (packComponents Format.binary64 s exponent fraction) =
    fraction := unpackMantissa_packComponents
  generalize packComponents Format.binary64 s exponent fraction = bits at *
  subst hsign hexponent hfraction
  unfold UnpackedFloat.unpack
  dsimp only
  rw [if_neg h]
  by_cases hzero : unpackExponent bits = 0#11
  · rw [if_pos hzero, if_pos hzero]
    split
    · rfl
    · exact UnpackedFloat.finite.injEq .. ▸ ⟨rfl, rfl, by rw [hzero]; rfl⟩
  · rw [if_neg hzero, if_neg hzero]
    exact UnpackedFloat.finite.injEq .. ▸ ⟨rfl, toNat_normal _, rfl⟩

/-! ## Packing -/

/-- How a number is packed whose exponent is not too large. -/
theorem pack_of_le {s : Sign} {m : Nat} {e : Int} {h : 0 < m} (he : e ≤ 971) :
    UnpackedFloat.pack Format.binary64 (.finite s m e h) =
      packComponents Format.binary64 s
        (if m.log2 = 52 then .ofNat 11 (e + 1023 + 52).toNat else 0#11) (.ofNat 52 m) := by
  have hpack : UnpackedFloat.pack Format.binary64 (.finite s m e h) =
      if 2 ^ 11 ≤ (e + 1023 + 52).toNat + 1 then packedInfinity Format.binary64 s
      else if m.log2 + 1 = 53 then
        packComponents Format.binary64 s (.ofNat 11 (e + 1023 + 52).toNat) (.ofNat 52 m)
      else packComponents Format.binary64 s 0#11 (.ofNat 52 m) := rfl
  rw [hpack, if_neg (by omega)]
  split
  · next hnormal => rw [if_pos (Nat.succ.inj hnormal)]
  · next hnormal => rw [if_neg fun h => hnormal (congrArg Nat.succ h)]

/-- A float that is finite before it is packed is so afterwards, unless it is too large. -/
theorem isFinite_pack {u : UnpackedFloat} (h : u.isFinite = true) :
    (Float.Model.pack u).isFinite = true ∨ (Float.Model.pack u).isInf = true ∧ ¬InRange u := by
  show (UnpackedFloat.unpack Format.binary64 (UnpackedFloat.pack Format.binary64 u)).isFinite =
    true ∨ (UnpackedFloat.unpack Format.binary64 (UnpackedFloat.pack Format.binary64 u)).isInf =
      true ∧ ¬InRange u
  cases u with
  | infinity => cases h
  | notANumber => cases h
  | zero s => cases s <;> exact .inl rfl
  | finite s m e hm =>
    by_cases he : e ≤ 971
    · left
      have hones : (if m.log2 = 52 then BitVec.ofNat 11 (e + 1023 + 52).toNat else 0#11) ≠
          -1#11 := by
        split
        · intro hones
          have htop : (e + 1023 + 52).toNat % 2 ^ 11 = 2047 := congrArg BitVec.toNat hones
          omega
        · decide
      rw [pack_of_le he, unpack_packComponents _ _ hones]
      generalize (if m.log2 = 52 then .ofNat 11 (e + 1023 + 52).toNat else 0#11) = exponent
      split
      · split <;> rfl
      · rfl
    · right
      have hpack : UnpackedFloat.pack Format.binary64 (.finite s m e hm) =
          packedInfinity Format.binary64 s :=
        if_pos (show 2 ^ 11 ≤ (e + 1023 + 52).toNat + 1 by omega)
      rw [hpack]
      exact ⟨by cases s <;> rfl, fun hrange => he hrange.2⟩

/-- A number with as many digits as fit is packed and unpacked as itself. -/
theorem unpack_pack {s : Sign} {m : Nat} {e : Int} {h : 0 < m} (hm : m < 2 ^ 53)
    (hmin : -1074 ≤ e) (hmax : e ≤ 971) (hnormal : 2 ^ 52 ≤ m ∨ e = -1074) :
    (Float.Model.pack (.finite s m e h)).unpack = .finite s m e h := by
  show UnpackedFloat.unpack Format.binary64 (UnpackedFloat.pack Format.binary64 _) = _
  rw [pack_of_le hmax]
  by_cases hlow : 2 ^ 52 ≤ m
  · have hexponent : (BitVec.ofNat 11 (e + 1023 + 52).toNat).toNat = (e + 1075).toNat := by
      rw [BitVec.toNat_ofNat]
      omega
    have hones : BitVec.ofNat 11 (e + 1023 + 52).toNat ≠ -1#11 := by
      intro hones
      have htop : (e + 1075).toNat = 2047 := hexponent.symm.trans (congrArg BitVec.toNat hones)
      omega
    have hzero : BitVec.ofNat 11 (e + 1023 + 52).toNat ≠ 0#11 := by
      intro hzero
      have hbottom : (e + 1075).toNat = 0 := hexponent.symm.trans (congrArg BitVec.toNat hzero)
      omega
    rw [if_pos ((Nat.log2_eq_iff h.ne').2 ⟨hlow, hm⟩), unpack_packComponents s _ hones,
      if_neg hzero, hexponent]
    refine UnpackedFloat.finite.injEq .. ▸ ⟨rfl, ?_, by omega⟩
    rw [BitVec.toNat_ofNat]
    omega
  · have hfraction : (BitVec.ofNat 52 m).toNat = m := by
      rw [BitVec.toNat_ofNat]
      omega
    have hempty : BitVec.ofNat 52 m ≠ 0#52 := by
      intro hzero
      rw [hzero] at hfraction
      exact h.ne hfraction
    have hlog : m.log2 ≠ 52 := fun heq => hlow ((Nat.log2_eq_iff h.ne').1 heq).1
    rw [if_neg hlog, unpack_packComponents s _ (by decide), if_pos rfl, dif_neg hempty]
    exact UnpackedFloat.finite.injEq .. ▸ ⟨rfl, hfraction, (hnormal.resolve_left hlow).symm⟩

end HclOverlay.Decimal
