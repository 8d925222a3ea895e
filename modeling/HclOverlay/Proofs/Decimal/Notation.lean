import HclOverlay.Proofs.Decimal.Digits

/-!
# How decimals are written

A layout writes a decimal in one of three ways, and each of them has its own digits before and
behind the point. What is read from the text depends only on these digits and on the power, so
readers of different formats share this case analysis.

* `Layout.Writes` — the ways to write a decimal, with the digits that are written.
* `Layout.writes_digits` — **every decimal** is written in one of them.
-/

namespace HclOverlay.Decimal

/-- The ways to write the decimal `c * 10 ^ j`. -/
inductive Layout.Writes (layout : Layout) (c : Nat) (j : Int) : List Char → Prop
  /-- all digits stand before the point -/
  | whole {d : Char} {ds : List Char} {k : Nat} (digits : digitsOf c = d :: ds) (power : j = k)
      (short : ((d :: ds).length + k : Int) ≤ layout.firstScientific) :
      Writes layout c j
        (d :: (ds ++ List.replicate k '0') ++ if layout.wholePoint then ['.', '0'] else [])
  /-- some digits stand behind the point -/
  | point {d : Char} {ds fraction : List Char}
      (digits : ∀ x ∈ d :: ds ++ fraction, x.isDigit = true) (zero : d = '0' → ds = [])
      (short : ds = [] ∨ ((d :: ds).length : Int) ≤ layout.firstScientific)
      (some : fraction ≠ []) (value : digitsValue (d :: ds ++ fraction) = c)
      (power : j = -fraction.length) :
      Writes layout c j (d :: ds ++ '.' :: fraction)
  /-- one digit stands before the point, and a power of ten behind all digits -/
  | scientific {d : Char} {ds : List Char} (digits : digitsOf c = d :: ds) :
      Writes layout c j
        (d :: (if ds = [] then [] else '.' :: ds) ++ 'e' ::
          ((if 0 ≤ j + ds.length && layout.plusSign then ['+'] else []) ++
            integerDigits (j + ds.length)))

section

variable {layout : Layout} {c k : Nat} {j : Int} {d : Char} {ds : List Char}

/-- The point stands between the digits of the significand. -/
theorem Layout.Writes.between (hds : digitsOf c = d :: ds) (hk : k < ds.length)
    (hpower : j = k - ds.length) (hshort : (k : Int) < layout.firstScientific) :
    layout.Writes c j (d :: ds.take k ++ '.' :: ds.drop k) := by
  have happend : d :: ds.take k ++ ds.drop k = d :: ds :=
    congrArg (d :: ·) (List.take_append_drop k ds)
  refine .point ?_ ?_ ?_ ?_ ?_ ?_
  · rw [happend, ← hds]
    exact fun _ => isDigit_of_mem_digitsOf
  · intro hzero
    have hnil : ds = [] := eq_nil_of_digitsOf (hzero ▸ hds)
    rw [hnil, List.take_nil]
  · right
    rw [List.length_cons, List.length_take]
    omega
  · rw [Ne, List.drop_eq_nil_iff]
    omega
  · rw [happend, ← hds]
    exact digitsValue_digitsOf c
  · rw [List.length_drop]
    omega

/-- The digits of the significand stand behind the point, and zeros in front of them. -/
theorem Layout.Writes.behind (hds : digitsOf c = d :: ds)
    (hpower : j = -(k + (d :: ds).length : Nat)) :
    layout.Writes c j ('0' :: '.' :: List.replicate k '0' ++ d :: ds) := by
  have hdigits : ∀ x ∈ '0' :: (List.replicate k '0' ++ d :: ds), x.isDigit = true := by
    rw [← hds]
    exact List.forall_mem_cons.2 ⟨rfl, List.forall_mem_append.2
      ⟨isDigit_replicate, fun _ => isDigit_of_mem_digitsOf⟩⟩
  have hvalue : digitsValue ('0' :: (List.replicate k '0' ++ d :: ds)) = c := by
    show Nat.ofDigitChars 10 (List.replicate k '0' ++ d :: ds) 0 = c
    rw [Nat.ofDigitChars_append, Nat.ofDigitChars_replicate_zero, Nat.mul_zero, ← hds]
    exact digitsValue_digitsOf c
  show layout.Writes c j (['0'] ++ '.' :: (List.replicate k '0' ++ d :: ds))
  refine .point hdigits (fun _ => rfl) (.inl rfl) (by simp) hvalue ?_
  rw [hpower, List.length_append, List.length_replicate]

/-- **Every decimal** is written in one of the three ways. -/
theorem Layout.writes_digits (layout : Layout) (c : Nat) (j : Int) :
    layout.Writes c j (layout.digits ⟨c, j⟩) := by
  obtain ⟨d, ds, hds, -⟩ := digitsOf_eq_cons c
  have hpower : j + ((d :: ds).length : Nat) - 1 = j + ds.length := by
    rw [List.length_cons]
    omega
  unfold Layout.digits
  dsimp only
  rw [hds, hpower]
  split
  · next hpositional =>
    rw [Bool.and_eq_true, decide_eq_true_eq, decide_eq_true_eq] at hpositional
    split
    · next hj =>
      obtain ⟨k, rfl⟩ := Int.eq_ofNat_of_zero_le hj
      exact .whole hds rfl (by rw [List.length_cons]; omega)
    · split
      · next hj hpoint =>
        exact .between hds (by omega) (by omega) (by omega)
      · next hj hpoint =>
        exact .behind hds (by rw [List.length_cons]; omega)
  · have hwrites : layout.Writes c j _ := .scientific hds
    cases ds with
    | nil => simpa using hwrites
    | cons second ds => simpa using hwrites

end

end HclOverlay.Decimal
