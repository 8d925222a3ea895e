import HclOverlay.Proofs.Decimal.Notation
import HclOverlay.Proofs.Decimal.Signs
import HclOverlay.Proofs.Rendering.Evaluation

/-!
# Reading rendered numbers again

A float is written with its shortest decimal, which is read as the float it was written for. What
comes of it is put into normal form, so a float that is whole and fits 64 bits is read as an integer,
and any other as itself.

* `readUnsigned?_point`, `readUnsigned?_scientific` — the notations of a decimal.
* `readUnsigned?_shortest` — **the shortest decimal** of a float is read as its magnitude.
* `isReadable_of_isHeld` — every number of 64 bits is read as a number.
* `reread?_of_isNormal` — **a number in normal form** is read as itself; `reread?_of_readUnsigned?` —
  so is every number that was read.
* `readsBack_iff_of_isNormal` — values with such numbers are read back, but for two keys.
-/

namespace HclOverlay.Number

open Decimal Hcl.Reader

variable {c : Nat} {j : Int} {x y : Float} {d : Char} {ds fraction : List Char}

/-! ## Notations -/

/-- A number with a point. -/
theorem readUnsigned?_point (hdigits : ∀ a ∈ d :: ds ++ fraction, a.isDigit = true)
    (hne : fraction ≠ [])
    (hvalue : Decimal.ofDecimal? (digitsValue (d :: ds ++ fraction)) (-fraction.length) = some y) :
    readUnsigned? (d :: ds ++ '.' :: fraction) = some (ofFloat y, []) := by
  have hwhole : spanDigits (d :: ds ++ '.' :: fraction) = (d :: ds, '.' :: fraction) :=
    spanDigits_append (fun a ha => hdigits a (List.mem_append_left _ ha)) (by rintro a ⟨⟩; rfl)
  have hback : spanDigits fraction = (fraction, []) := by
    have hspan : spanDigits (fraction ++ []) = (fraction, []) :=
      spanDigits_append (fun a ha => hdigits a (List.mem_append_right (d :: ds) ha)) (by simp)
    rwa [List.append_nil] at hspan
  have hfraction : spanFraction ('.' :: fraction) = (some fraction, []) := by
    obtain ⟨e, es, rfl⟩ := List.exists_cons_of_ne_nil hne
    simp only [spanFraction, hback]
  refine readUnsigned?_of_parts hwhole hfraction rfl ?_
  show (Decimal.ofDecimal? _ (0 - (fraction.length : Int))).map ofFloat = _
  rw [Int.zero_sub, Option.getD_some, hvalue, Option.map_some]

/-- A number with a power of ten, and a point if it has several digits. -/
theorem readUnsigned?_scientific (hdigits : ∀ a ∈ d :: ds, a.isDigit = true) {k : Int}
    (hvalue : Decimal.ofDecimal? (digitsValue (d :: ds)) (k - ds.length) = some y) :
    readUnsigned? (d :: (if ds = [] then [] else '.' :: ds) ++ 'e' :: integerDigits k) =
      some (ofFloat y, []) := by
  have hfirst : ∀ a ∈ [d], a.isDigit = true :=
    List.forall_mem_singleton.2 (hdigits d List.mem_cons_self)
  have hpower : spanPower ('e' :: integerDigits k) = (some k, []) := by
    have hread : readPower? ('e' :: (integerDigits k ++ [])) = some (k, []) :=
      readPower?_integerDigits k (by simp)
    rw [List.append_nil] at hread
    simp only [spanPower, hread]
  by_cases hnil : ds = []
  · subst hnil
    have hwhole : spanDigits ([d] ++ 'e' :: integerDigits k) = ([d], 'e' :: integerDigits k) :=
      spanDigits_append hfirst (by rintro a ⟨⟩; rfl)
    refine readUnsigned?_of_parts hwhole rfl hpower ?_
    show (Decimal.ofDecimal? (digitsValue [d]) (k - 0)).map ofFloat = _
    rw [show k - 0 = k - ([] : List Char).length from rfl, hvalue, Option.map_some]
  · have hwhole : spanDigits ([d] ++ '.' :: (ds ++ 'e' :: integerDigits k)) =
        ([d], '.' :: (ds ++ 'e' :: integerDigits k)) :=
      spanDigits_append hfirst (by rintro a ⟨⟩; rfl)
    have hback : spanDigits (ds ++ 'e' :: integerDigits k) = (ds, 'e' :: integerDigits k) :=
      spanDigits_append (fun a ha => hdigits a (List.mem_cons_of_mem _ ha)) (by rintro a ⟨⟩; rfl)
    have hfraction : spanFraction ('.' :: (ds ++ 'e' :: integerDigits k)) =
        (some ds, 'e' :: integerDigits k) := by
      obtain ⟨e, es, rfl⟩ := List.exists_cons_of_ne_nil hnil
      simp only [spanFraction, hback]
    have htext : d :: (if ds = [] then [] else '.' :: ds) ++ 'e' :: integerDigits k =
        [d] ++ '.' :: (ds ++ 'e' :: integerDigits k) := by
      rw [if_neg hnil, List.cons_append, List.cons_append]
      rfl
    rw [htext]
    refine readUnsigned?_of_parts hwhole hfraction hpower ?_
    show (Decimal.ofDecimal? (digitsValue (d :: ds)) (k - ds.length)).map ofFloat = _
    rw [hvalue, Option.map_some]

/-- The digits of a decimal are read as the float that it is read as. Where all of them stand before
the point and there is none, they are read as an integer. -/
theorem readUnsigned?_digits (hc : 0 < c) (hvalue : Decimal.ofDecimal? c j = some y) :
    readUnsigned? (layout.digits ⟨c, j⟩) = some (ofFloat y, []) ∨
      ∃ k : Nat, j = k ∧ c * 10 ^ k < 10 ^ 16 ∧
        readUnsigned? (layout.digits ⟨c, j⟩) = some (.int (c * 10 ^ k : Nat), []) := by
  have hwrites := layout.writes_digits c j
  generalize layout.digits ⟨c, j⟩ = text at hwrites
  cases hwrites with
  | @whole d ds k hds hpower hshort =>
    right
    have htext : d :: (ds ++ List.replicate k '0') ++ [] = digitsOf (c * 10 ^ k) := by
      rw [digitsOf_mul_pow hc, hds, List.append_nil]
      rfl
    have hlt : c * 10 ^ k < 10 ^ 16 := by
      obtain ⟨-, hc⟩ := length_digitsOf hc
      have hshort : ((d :: ds).length + k : Int) ≤ 16 := hshort
      rw [hds] at hc
      calc c * 10 ^ k < 10 ^ (d :: ds).length * 10 ^ k :=
            Nat.mul_lt_mul_of_pos_right hc (Nat.pow_pos (by decide))
        _ = 10 ^ ((d :: ds).length + k) := (Nat.pow_add ..).symm
        _ ≤ 10 ^ 16 := Nat.pow_le_pow_right (by decide) (by exact_mod_cast hshort)
    refine ⟨k, hpower, hlt, ?_⟩
    show readUnsigned? (d :: (ds ++ List.replicate k '0') ++ []) = _
    rw [htext]
    exact readUnsigned?_digitsOf (hlt.trans (by decide))
  | @point d ds fraction hdigits _ _ hne hsum hpower =>
    left
    refine readUnsigned?_point hdigits hne ?_
    rw [hsum, ← hpower]
    exact hvalue
  | @scientific d ds hds =>
    left
    have hdigits : ∀ a ∈ d :: ds, a.isDigit = true := by
      rw [← hds]
      exact fun _ => isDigit_of_mem_digitsOf
    have hread : Decimal.ofDecimal? (digitsValue (d :: ds)) (j + ds.length - ds.length) = some y := by
      rw [← hds, digitsValue_digitsOf, Int.add_sub_cancel]
      exact hvalue
    have hsign : (0 ≤ j + (ds.length : Int) && layout.plusSign) = false := Bool.and_false _
    rw [hsign, if_neg Bool.false_ne_true, List.nil_append]
    exact readUnsigned?_scientific hdigits hread

/-! ## Floats -/

/-- **The shortest decimal** of a float is read as its magnitude, or as an integer if the float is
whole and not too large. -/
theorem readUnsigned?_shortest (hx : x.isFinite = true) (hzero : (x == 0) = false) :
    readUnsigned? (layout.digits (shortest x)) = some (ofFloat x.abs, []) ∨
      (∃ n, (Binary.ofFloat x).toNat? = some n ∧ n < 2 * 10 ^ 16) ∧
        ∃ n : Nat, readUnsigned? (layout.digits (shortest x)) = some (.int n, []) := by
  obtain ⟨hc, hstands⟩ := stands_shortest hx hzero
  refine (readUnsigned?_digits hc (ofDecimal?_shortest hx hzero)).imp_right ?_
  rintro ⟨k, hk, hlt, hread⟩
  refine ⟨?_, _, hread⟩
  have hwhole : ((shortest x).significand * 10 ^ (shortest x).exponent : ℚ) =
      ((shortest x).significand * 10 ^ k : Nat) := by
    rw [hk, zpow_natCast]
    push_cast
    rfl
  obtain ⟨n, hn, hle⟩ := toNat?_of_stands ((mantissa_pos_iff hx).2 hzero) (hwhole ▸ hstands)
  exact ⟨n, hn, by omega⟩

/-- The sign of a float is read apart from its digits. -/
theorem reread?_float {n : Number} (hzero : (x == 0) = false)
    (h : readUnsigned? (layout.digits (shortest x)) = some (n, [])) :
    (float x).reread? = some (if signBit x then n.neg else n) := by
  have hdigits : ofUnsigned? (layout.digits (shortest x)) = some n := by rw [ofUnsigned?, h]
  have hchars : (float x).toChars =
      (if signBit x then ['-'] else []) ++ layout.digits (shortest x) := by
    show layout.write x = _
    rw [Layout.write, if_neg (ne_true_of_eq_false hzero)]
  unfold reread?
  rw [hchars]
  cases signBit x with
  | true =>
    show (ofUnsigned? (layout.digits (shortest x))).map neg = _
    rw [hdigits]
    rfl
  | false =>
    obtain ⟨d, ds, htext, hd⟩ := readUnsigned?_start h
    rw [htext] at hdigits ⊢
    simp only [Bool.false_eq_true, if_false, List.nil_append]
    split
    · next heq =>
      rw [(List.cons.inj heq).1] at hd
      cases hd
    · exact hdigits

/-- **Every finite float** is read as a number. -/
theorem isReadable_of_isFinite (hx : x.isFinite = true) : (float x).isReadable = true := by
  cases hzero : x == 0 with
  | true =>
    have hchars : (float x).toChars = (if signBit x then ['-'] else []) ++ ['0'] := by
      show layout.write x = _
      rw [Layout.write, if_pos hzero]
      rfl
    unfold isReadable reread?
    rw [hchars]
    cases signBit x <;> rfl
  | false =>
    obtain ⟨n, hread⟩ : ∃ n, readUnsigned? (layout.digits (shortest x)) = some (n, []) := by
      rcases readUnsigned?_shortest hx hzero with hread | ⟨-, n, hread⟩
      · exact ⟨_, hread⟩
      · exact ⟨_, hread⟩
    rw [isReadable, reread?_float hzero hread]
    rfl

/-! ## Normal form -/

/-- A float in normal form is whole only if it is too large for an integer of 64 bits. -/
theorem lt_of_normal (hx : x.isFinite = true) (hnormal : ofFloat x = .float x) {n : Nat}
    (hn : (Binary.ofFloat x).toNat? = some n) : signedLimit < n := by
  by_contra hle
  have hfits : fits (if signBit x then -(n : Int) else n) = true := by
    rw [fits, Bool.and_eq_true, decide_eq_true_eq, decide_eq_true_eq]
    simp only [signedLimit, unsignedLimit] at hle ⊢
    split <;> omega
  have hint : ofFloat x = .int (if signBit x then -(n : Int) else n) := by
    rw [ofFloat, wholeValue?, if_pos hx, hn]
    exact if_pos hfits
  rw [hint] at hnormal
  cases hnormal

theorem ne_zero_of_normal (hx : x.isFinite = true) (hnormal : ofFloat x = .float x) :
    (x == 0) = false := by
  rw [← mantissa_pos_iff hx, Nat.pos_iff_ne_zero]
  intro hmantissa
  have hzero : (Binary.ofFloat x).toNat? = some 0 := by
    rw [toNat?_eq_some_iff, hmantissa]
    simp
  exact absurd (lt_of_normal hx hnormal hzero) (by decide)

/-- The negated magnitude of a negative float in normal form: if it fits 64 bits without a sign, it
was read as an integer, which does not fit them with one. -/
theorem neg_ofFloat_abs (hx : x.isFinite = true) (hnormal : ofFloat x = .float x)
    (hsign : signBit x = true) : (ofFloat x.abs).neg = .float x := by
  have hpos := (mantissa_pos_iff hx).2 (ne_zero_of_normal hx hnormal)
  have hback := neg_abs hx hpos hsign
  rw [ofFloat, wholeValue?_abs hx hpos]
  cases hn : (Binary.ofFloat x).toNat? with
  | none => exact congrArg float hback
  | some n =>
    have hlarge := lt_of_normal hx hnormal hn
    show (if fits n then int n else float x.abs).neg = _
    split
    · have htoFloat : (int n).toFloat = x.abs := by
        rw [toFloat, if_neg (by omega), Int.natAbs_natCast, ofNat_eq_abs hx hpos hn]
      rw [neg, if_neg (by exact_mod_cast not_le.2 hlarge), htoFloat, hback]
    · exact congrArg float hback

/-- A float in normal form is read as itself. -/
theorem reread?_of_normal (hx : x.isFinite = true) (hnormal : ofFloat x = .float x) :
    (float x).reread? = some (.float x) := by
  have hzero := ne_zero_of_normal hx hnormal
  have hread := readUnsigned?_shortest hx hzero
  rcases hread with hread | ⟨⟨n, hn, hlt⟩, -⟩
  · rw [reread?_float hzero hread]
    cases hsign : signBit x with
    | false =>
      rw [abs_eq_self hx ((mantissa_pos_iff hx).2 hzero) hsign, hnormal]
      rfl
    | true => exact congrArg some (neg_ofFloat_abs hx hnormal hsign)
  · have hlarge := lt_of_normal hx hnormal hn
    rw [signedLimit] at hlarge
    omega

/-! ## Numbers of 64 bits -/

/-- Whether a number is held in 64 bits: as an integer, or as a finite float. -/
def isHeld : Number → Bool
  | .float x => x.isFinite
  | n => n.isInteger

/-- Whether a number is in normal form: an integer of 64 bits, or a finite float that equals none. -/
def isNormal : Number → Bool
  | .float x => x.isFinite && !(ofFloat x).isInteger
  | n => n.isInteger

/-- Every number of 64 bits is read as a number. -/
theorem isReadable_of_isHeld {n : Number} (h : n.isHeld = true) : n.isReadable = true := by
  cases n with
  | float x => exact isReadable_of_isFinite h
  | int k => exact isReadable_of_isInteger h
  | belowZero k => exact isReadable_of_isInteger h

/-- A float is put into normal form unless it is an integer of 64 bits. -/
theorem ofFloat_cases (x : Float) : (ofFloat x).isInteger = true ∨ ofFloat x = .float x := by
  unfold ofFloat
  split
  · split
    · next hfits => exact .inl hfits
    · exact .inr rfl
  · exact .inr rfl

theorem isNormal_of_isInteger {n : Number} (h : n.isInteger = true) : n.isNormal = true := by
  cases n with
  | float x => cases h
  | int k => exact h
  | belowZero k => exact h

theorem isNormal_ofFloat (hx : x.isFinite = true) : (ofFloat x).isNormal = true := by
  rcases ofFloat_cases x with hint | hfloat
  · exact isNormal_of_isInteger hint
  · rw [hfloat, isNormal, hx, hfloat]
    rfl

/-- **A number in normal form** is read as itself, counting as its sign says. -/
theorem reread?_of_isNormal {n : Number} (h : n.isNormal = true) : n.reread? = some n.settled := by
  cases n with
  | float x =>
    rw [isNormal, Bool.and_eq_true, Bool.not_eq_true'] at h
    refine reread?_of_normal h.1 ((ofFloat_cases x).resolve_left ?_)
    rw [h.2]
    exact Bool.false_ne_true
  | int k => exact reread?_of_isInteger h
  | belowZero k => exact reread?_of_isInteger h

/-- Decimals are read as finite floats. -/
theorem isFinite_of_ofDecimal? (h : Decimal.ofDecimal? c j = some y) : y.isFinite = true := by
  unfold Decimal.ofDecimal? at h
  dsimp only at h
  split_ifs at h with _ _ _ hexponent hfinite hfinite
  · cases h
    decide
  · cases h
    decide
  · cases h
    exact hfinite
  · cases h
    exact hfinite

theorem fits_natCast {n : Nat} (h : n < unsignedLimit) : fits n = true := by
  rw [fits, Bool.and_eq_true, decide_eq_true_eq, decide_eq_true_eq]
  exact ⟨(Int.neg_nonpos_of_nonneg (Int.natCast_nonneg _)).trans (Int.natCast_nonneg _),
    by exact_mod_cast h⟩

theorem isNormal_of_ofDecimal? {whole : List Char} {part : Option (List Char)} {power : Option Int}
    {n : Number} (h : ofDecimal? whole part power = some n) : n.isNormal = true := by
  unfold ofDecimal? at h
  split at h
  · dsimp only at h
    split at h
    · next hlt =>
      cases h
      exact isNormal_of_isInteger (n := .int _) (fits_natCast hlt)
    · cases h
  · obtain ⟨x, hx, rfl⟩ := Option.map_eq_some_iff.1 h
    exact isNormal_ofFloat (isFinite_of_ofDecimal? hx)

/-- **Numbers that were read** without a sign are read again, from their own text, as the same. -/
theorem reread?_of_readUnsigned? {cs rest : List Char} {n : Number}
    (h : readUnsigned? cs = some (n, rest)) : n.reread? = some n.settled := by
  refine reread?_of_isNormal ?_
  rw [readUnsigned?_eq] at h
  split at h
  · cases h
  · split at h
    · next hvalue =>
      cases h
      exact isNormal_of_ofDecimal? hvalue
    · obtain ⟨m, hvalue, heq⟩ := Option.map_eq_some_iff.1 h
      cases heq
      exact isNormal_of_ofDecimal? hvalue

end HclOverlay.Number

namespace HclOverlay.Value

open Hcl Hcl.Reader

/-- **Values with floats**, too, are read back exactly, but for two keys. -/
theorem readsBack_iff_of_isNormal {v : Value} (hv : v.Plain Number.isNormal) {indent : String}
    (hi : ∀ c ∈ indent.toList, isBlankChar c = true) :
    ((Expr.read? (v.render indent).toList).isSome = true ↔ v.opensFor = false) ∧
    ((Expr.read? (v.render indent).toList).map Expr.value = some v.settled ↔
      v.opensFor = false ∧ v.hasNullKey = false) :=
  readsBack_iff_of (fun _ => Number.reread?_of_isNormal) hv hi

end HclOverlay.Value
