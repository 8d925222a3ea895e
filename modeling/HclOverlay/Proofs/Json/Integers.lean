import HclOverlay.Proofs.Json.Reading

/-!
# Integers in JSON

Numbers that are written with digits alone are read as integers, as long as they fit 64 bits with or
without a sign. These integers are exactly those that are read back from their own text.

* `Sized` — the integers of 64 bits.
* `significand_eq` — the digits of such an integer are taken as a whole.
* `readNumeral?_integerDigits` — **a printed integer** is read as itself.
* `sized_of_readNumeral?` — no other integer is ever read.
-/

namespace HclOverlay.Json

open Decimal

/-- An integer of 64 bits, with a sign or without. -/
def Sized (n : Int) : Prop := -(signedLimit : Int) ≤ n ∧ n < unsignedLimit

/-! ## Digits -/

/-- Digits of a number that fits 64 bits are taken as a whole. -/
theorem significand_eq {n : Nat} {ds : List Char} (h : Nat.ofDigitChars 10 ds n < unsignedLimit) :
    significand n ds = (Nat.ofDigitChars 10 ds n, 0) := by
  induction ds generalizing n with
  | nil => rfl
  | cons d ds ih =>
    rw [Nat.ofDigitChars_cons] at h ⊢
    rw [significand, if_pos (Nat.lt_of_le_of_lt (le_ofDigitChars _ ds) h), ih h]

theorem significand_lt {n m left : Nat} {ds : List Char} (hn : n < unsignedLimit)
    (h : significand n ds = (m, left)) : m < unsignedLimit := by
  induction ds generalizing n with
  | nil =>
    cases h
    exact hn
  | cons d ds ih =>
    rw [significand] at h
    split at h
    · next hm => exact ih hm h
    · cases h
      exact hn

/-! ## From text to integer -/

theorem Stops.not_digit {rest : List Char} (h : Stops rest) :
    ∀ c ∈ rest.head?, c.isDigit = false := by
  obtain ⟨c, more, rfl, hc⟩ := h
  intro d hd
  obtain rfl : c = d := Option.some.inj hd
  obtain rfl | rfl := hc <;> decide

theorem readWhole?_digitsOf (n : Nat) {rest : List Char} (h : Stops rest) :
    readWhole? (digitsOf n ++ rest) = some (digitsOf n, rest) := by
  have hspan : (digitsOf n ++ rest).span Char.isDigit = (digitsOf n, rest) :=
    Number.span_append (fun c => isDigit_of_mem_digitsOf) h.not_digit
  rw [readWhole?, hspan]
  split
  · next heq => exact absurd (Prod.mk.inj heq).1 (digitsOf_ne_nil n)
  · next heq => exact absurd (eq_nil_of_digitsOf (Prod.mk.inj heq).1) (List.cons_ne_nil _ _)
  · next heq => rw [heq]

/-- The magnitude of an integer, up to where the value ends. -/
theorem readMagnitude?_digitsOf {n : Nat} (hn : n < unsignedLimit) (negative : Bool)
    {rest : List Char} (h : Stops rest) :
    readMagnitude? negative (digitsOf n ++ rest) = some (integerOf negative n, rest) := by
  have hsignificand : significand 0 (digitsOf n) = (n, 0) := by
    have hvalue : Nat.ofDigitChars 10 (digitsOf n) 0 = n := digitsValue_digitsOf n
    rw [significand_eq (by rwa [hvalue]), hvalue]
  have hend : readFraction? rest = some (none, rest) ∧ readPower? rest = some (none, rest) := by
    obtain ⟨c, more, rfl, hc⟩ := h
    obtain rfl | rfl := hc <;> exact ⟨rfl, rfl⟩
  simp [readMagnitude?, readWhole?_digitsOf n h, hsignificand, hend]

/-- **A printed integer** is read as itself. -/
theorem readNumeral?_integerDigits {n : Int} (hn : Sized n) {rest : List Char} (h : Stops rest) :
    readNumeral? (integerDigits n ++ rest) = some (.int n, rest) := by
  obtain ⟨hlow, hhigh⟩ := hn
  simp only [signedLimit, unsignedLimit] at hlow hhigh
  rw [integerDigits]
  split
  · next hneg =>
    have hrange : ¬(n.natAbs = 0 || signedLimit < n.natAbs) = true := by
      rw [Bool.or_eq_true, decide_eq_true_eq, decide_eq_true_eq, signedLimit]
      omega
    rw [List.cons_append, readNumeral?.eq_1,
      readMagnitude?_digitsOf (by rw [unsignedLimit]; omega) true h, integerOf, if_pos rfl,
      if_neg hrange]
    exact congrArg (fun k => some (Numeral.int k, rest)) (by omega)
  · next hneg =>
    obtain ⟨d, ds, hds, hd⟩ := digitsOf_eq_cons n.natAbs
    have hminus : d ≠ '-' := by
      rintro rfl
      exact absurd hd (by decide)
    have hread := readMagnitude?_digitsOf (n := n.natAbs) (by rw [unsignedLimit]; omega) false h
    rw [hds, List.cons_append] at hread ⊢
    rw [readNumeral?.eq_2 _ (fun _ heq => hminus (List.cons.inj heq).1), hread, integerOf,
      if_neg (by decide)]
    exact congrArg (fun k => some (Numeral.int k, rest)) (by omega)

/-! ## Nothing else is an integer -/

theorem sized_of_integerOf {negative : Bool} {n : Nat} {k : Int} (hn : n < unsignedLimit)
    (h : integerOf negative n = .int k) : Sized k := by
  simp only [unsignedLimit] at hn
  rw [integerOf] at h
  split at h
  · split at h
    · cases h
    · next hrange =>
      rw [Bool.or_eq_true, decide_eq_true_eq, decide_eq_true_eq, signedLimit] at hrange
      cases h
      exact ⟨by rw [signedLimit]; omega, by rw [unsignedLimit]; omega⟩
  · cases h
    exact ⟨by rw [signedLimit]; omega, by rw [unsignedLimit]; omega⟩

theorem floatOf?_ne_int {negative : Bool} {n : Nat} {power k : Int} :
    floatOf? negative n power ≠ some (.int k) := by
  intro h
  obtain ⟨x, -, hx⟩ := Option.map_eq_some_iff.1 h
  cases hx

theorem sized_of_readMagnitude? {negative : Bool} {cs rest : List Char} {k : Int}
    (h : readMagnitude? negative cs = some (.int k, rest)) : Sized k := by
  obtain ⟨⟨whole, cs₁⟩, -, h⟩ := Option.bind_eq_some_iff.1 h
  obtain ⟨⟨fraction, cs₂⟩, -, h⟩ := Option.bind_eq_some_iff.1 h
  obtain ⟨⟨power, cs₃⟩, -, h⟩ := Option.bind_eq_some_iff.1 h
  dsimp only at h
  split at h
  · split at h
    · obtain ⟨hk, -⟩ := Prod.mk.inj (Option.some.inj h)
      exact sized_of_integerOf (significand_lt (by decide) rfl) hk
    · obtain ⟨x, hx, h⟩ := Option.bind_eq_some_iff.1 h
      cases h
      exact absurd hx floatOf?_ne_int
  · obtain ⟨x, hx, h⟩ := Option.bind_eq_some_iff.1 h
    cases h
    exact absurd hx floatOf?_ne_int

/-- **No integer of another size** is ever read. -/
theorem sized_of_readNumeral? {cs rest : List Char} {k : Int}
    (h : readNumeral? cs = some (.int k, rest)) : Sized k := by
  rw [readNumeral?.eq_def] at h
  split at h <;> exact sized_of_readMagnitude? h

end HclOverlay.Json
