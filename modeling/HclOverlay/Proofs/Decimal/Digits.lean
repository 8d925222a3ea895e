import HclOverlay.Decimal.Layout
import Mathlib.Algebra.Group.Nat.Defs

/-!
# Decimal digits

* `digitsValue_digitsOf` — the digits of a number have its value.
* `length_digitsOf` — there are as many of them as its size says.
* `eq_nil_of_digitsOf` — only zero starts with a zero.
* `ofDigitChars_lt` — how large a number of some digits can be.
-/

namespace HclOverlay.Decimal

/-! ## The digits of a number -/

/-- The digits of a number have its value. -/
@[simp] theorem digitsValue_digitsOf (n : Nat) : digitsValue (digitsOf n) = n :=
  Nat.ofDigitChars_ten_toDigits

theorem isDigit_of_mem_digitsOf {n : Nat} {c : Char} (h : c ∈ digitsOf n) : c.isDigit = true :=
  Nat.isDigit_of_mem_toDigits (by decide) (by decide) h

theorem digitsOf_ne_nil (n : Nat) : digitsOf n ≠ [] := Nat.toDigits_ne_nil

/-- The digits of a number start with a digit. -/
theorem digitsOf_eq_cons (n : Nat) : ∃ d ds, digitsOf n = d :: ds ∧ d.isDigit = true := by
  cases h : digitsOf n with
  | nil => exact absurd h (digitsOf_ne_nil n)
  | cons d ds => exact ⟨d, ds, rfl, isDigit_of_mem_digitsOf (by rw [h]; exact List.mem_cons_self)⟩

/-- A number has as many digits as its size says. -/
theorem length_digitsOf {n : Nat} (hn : 0 < n) :
    10 ^ ((digitsOf n).length - 1) ≤ n ∧ n < 10 ^ (digitsOf n).length := by
  have hpos : 0 < (digitsOf n).length := List.length_pos_iff.2 (digitsOf_ne_nil n)
  have hle := fun k => Nat.length_toDigits_le_iff (b := 10) (n := n) (k := k) (by decide)
  refine ⟨?_, (hle _ hpos).1 (Nat.le_refl _)⟩
  rcases Nat.eq_zero_or_pos ((digitsOf n).length - 1) with hzero | hmore
  · rw [hzero]
    exact hn
  · rw [← Nat.not_lt, ← hle _ hmore]
    show ¬(digitsOf n).length ≤ _
    omega

/-- Only zero starts with a zero, which then is its only digit. -/
theorem eq_nil_of_digitsOf {n : Nat} {ds : List Char} (h : digitsOf n = '0' :: ds) : ds = [] := by
  induction n using Nat.strongRecOn generalizing ds with
  | ind n ih =>
    by_cases hn : n < 10
    · rw [digitsOf, Nat.toDigits_of_lt_base hn] at h
      exact (List.cons.inj h).2.symm
    · rw [digitsOf, Nat.toDigits_of_base_le (by decide) (Nat.not_lt.1 hn)] at h
      obtain ⟨d, more, hmore, -⟩ := digitsOf_eq_cons (n / 10)
      rw [show Nat.toDigits 10 (n / 10) = d :: more from hmore] at h
      obtain ⟨rfl, -⟩ := List.cons.inj h
      obtain rfl := ih (n / 10) (by omega) hmore
      -- the front digits alone are the number without its last digit
      have hvalue := digitsValue_digitsOf (n / 10)
      rw [hmore] at hvalue
      have : n / 10 = 0 := hvalue.symm
      omega

/-- Zeros at the end are a power of ten. -/
theorem digitsOf_mul_pow {n : Nat} (hn : 0 < n) (k : Nat) :
    digitsOf (n * 10 ^ k) = digitsOf n ++ List.replicate k '0' := by
  induction k with
  | zero => rw [Nat.pow_zero, Nat.mul_one, List.replicate_zero, List.append_nil]
  | succ k ih =>
    have happend := Nat.toDigits_append_toDigits (b := 10) (n := n * 10 ^ k) (d := 0) (by decide)
      (Nat.mul_pos hn (Nat.pow_pos (by decide))) (by decide)
    have hnext : n * 10 ^ (k + 1) = 10 * (n * 10 ^ k) + 0 := by
      rw [Nat.pow_succ, Nat.add_zero, ← Nat.mul_assoc, Nat.mul_comm]
    rw [hnext, digitsOf, ← happend, Nat.toDigits_zero, List.replicate_succ', ← List.append_assoc,
      ← ih, digitsOf]

theorem ne_zero_of_digitsOf {n : Nat} {d : Char} {ds : List Char} (hn : 0 < n)
    (h : digitsOf n = d :: ds) : d ≠ '0' := by
  rintro rfl
  have hvalue := digitsValue_digitsOf n
  rw [h, eq_nil_of_digitsOf h] at hvalue
  exact absurd hvalue.symm (Nat.ne_of_gt hn)

/-! ## The value of digits -/

theorem digit_lt {d : Char} (h : d.isDigit = true) : d.toNat - '0'.toNat < 10 := by
  simp only [Char.isDigit, Bool.and_eq_true, decide_eq_true_eq] at h
  have hle : d.toNat ≤ '9'.toNat := UInt32.le_iff_toNat_le.1 h.2
  have hten : '9'.toNat - '0'.toNat = 9 := rfl
  omega

/-- More digits never make a number smaller. -/
theorem le_ofDigitChars (n : Nat) (ds : List Char) : n ≤ Nat.ofDigitChars 10 ds n := by
  induction ds generalizing n with
  | nil => exact Nat.le_refl n
  | cons d ds ih =>
    rw [Nat.ofDigitChars_cons]
    exact Nat.le_trans (by omega) (ih _)

theorem ofDigitChars_lt {n : Nat} {ds : List Char} (h : ∀ c ∈ ds, c.isDigit = true) :
    Nat.ofDigitChars 10 ds n < (n + 1) * 10 ^ ds.length := by
  induction ds generalizing n with
  | nil => rw [Nat.ofDigitChars_nil]; simp
  | cons d ds ih =>
    have hdigit := digit_lt (h d List.mem_cons_self)
    rw [Nat.ofDigitChars_cons, List.length_cons, Nat.pow_succ']
    calc _ < (10 * n + (d.toNat - '0'.toNat) + 1) * 10 ^ ds.length :=
          ih fun c hc => h c (List.mem_cons_of_mem _ hc)
      _ ≤ (n + 1) * 10 * 10 ^ ds.length := Nat.mul_le_mul_right _ (by omega)
      _ = (n + 1) * (10 * 10 ^ ds.length) := Nat.mul_assoc _ _ _

theorem isDigit_replicate {k : Nat} : ∀ c ∈ List.replicate k '0', c.isDigit = true := by
  intro c hc
  rw [List.eq_of_mem_replicate hc]
  rfl

end HclOverlay.Decimal
