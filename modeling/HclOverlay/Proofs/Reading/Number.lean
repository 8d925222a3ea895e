import HclOverlay.Proofs.Decimal.Digits
import HclOverlay.Proofs.Reading.Trivia
import Mathlib.Data.List.TakeDrop

/-!
# Reading numbers again

An integer is written in decimal, and its digits are read back as the same integer. Any number that
is the whole of a text is read in the same way in front of more text, as long as that does not go on
with the number.

* `readUnsigned?_eq`, `readUnsigned?_of_parts` — the parts of a number: digits, a fraction and a
  power.
* `readUnsigned?_digitsOf` — the digits of a number are read as this number.
* `Apart` — a text that goes on with no name and no number.
* `readUnsigned?_extend` — **numbers in front of more text**.
* `numberLiteral_ok`, `negativeLiteral_ok` — literals of either sign.
-/

namespace HclOverlay

open Decimal

namespace Number

theorem span_append {α : Type} {p : α → Bool} {xs ys : List α} (hx : ∀ x ∈ xs, p x = true)
    (hy : ∀ y ∈ ys.head?, p y = false) : (xs ++ ys).span p = (xs, ys) := by
  rw [List.span_eq_takeWhile_dropWhile]
  have hstop : ys.takeWhile p = [] ∧ ys.dropWhile p = ys := by
    cases ys with
    | nil => exact ⟨rfl, rfl⟩
    | cons y ys =>
      have := hy y rfl
      simp [this]
  rw [List.takeWhile_append_of_pos hx, List.dropWhile_append_of_pos hx, hstop.1, hstop.2,
    List.append_nil]

theorem spanDigits_append {ds rest : List Char} (hds : ∀ c ∈ ds, c.isDigit = true)
    (hrest : ∀ c ∈ rest.head?, c.isDigit = false) : spanDigits (ds ++ rest) = (ds, rest) :=
  span_append hds hrest

/-- Splitting off digits does not see what comes behind a text, unless it goes on with digits. -/
theorem spanDigits_extend {cs ds more rest : List Char} (h : spanDigits cs = (ds, more))
    (hrest : ∀ c ∈ rest.head?, c.isDigit = false) :
    spanDigits (cs ++ rest) = (ds, more ++ rest) := by
  rw [spanDigits, List.span_eq_takeWhile_dropWhile] at h
  obtain ⟨rfl, rfl⟩ := Prod.mk.inj h
  have hcs : cs ++ rest = cs.takeWhile Char.isDigit ++ (cs.dropWhile Char.isDigit ++ rest) := by
    rw [← List.append_assoc, List.takeWhile_append_dropWhile]
  rw [hcs]
  refine spanDigits_append (List.all_eq_true.1 List.all_takeWhile) fun c hc => ?_
  cases hmore : cs.dropWhile Char.isDigit with
  | nil =>
    rw [hmore, List.nil_append] at hc
    exact hrest c hc
  | cons d tail =>
    have hhead := List.head?_dropWhile_not Char.isDigit cs
    rw [hmore] at hc hhead
    obtain rfl : d = c := Option.some.inj hc
    simpa using hhead

/-! ## The parts of a number -/

/-- The sign of a power. -/
def spanSign : List Char → Bool × List Char
  | '+' :: r => (false, r)
  | '-' :: r => (true, r)
  | r => (false, r)

/-- The fraction behind the digits of a number, if there is one. -/
def spanFraction (cs : List Char) : Option (List Char) × List Char :=
  match cs with
  | '.' :: r =>
    match spanDigits r with
    | ([], _) => (none, cs)
    | (ds, r) => (some ds, r)
  | r => (none, r)

/-- The power behind it, if there is one. -/
def spanPower (cs : List Char) : Option Int × List Char :=
  match readPower? cs with
  | some (p, r) => (some p, r)
  | none => (none, cs)

theorem readPower?_eq {c : Char} (hc : c = 'e' ∨ c = 'E') (cs : List Char) :
    readPower? (c :: cs) =
      match spanDigits (spanSign cs).2 with
      | ([], _) => none
      | (ds, rest) =>
        some ((if (spanSign cs).1 then -(digitsValue ds : Int) else digitsValue ds), rest) := by
  have hlower : readPower? (c :: cs) = readPower? ('e' :: cs) := by rcases hc with rfl | rfl <;> rfl
  rw [hlower]
  by_cases hplus : ∃ r, cs = '+' :: r
  · obtain ⟨r, rfl⟩ := hplus
    rfl
  · by_cases hminus : ∃ r, cs = '-' :: r
    · obtain ⟨r, rfl⟩ := hminus
      rfl
    · have hplus' : ∀ r, cs = '+' :: r → False := fun r hr => hplus ⟨r, hr⟩
      have hminus' : ∀ r, cs = '-' :: r → False := fun r hr => hminus ⟨r, hr⟩
      exact (readPower?.eq_3 _ hplus' hminus').trans (spanSign.eq_3 _ hplus' hminus' ▸ rfl)

/-- A number is made of digits, a fraction and a power. -/
theorem readUnsigned?_eq (cs : List Char) :
    readUnsigned? cs =
      match spanDigits cs with
      | ([], _) => none
      | (whole, after) =>
        match ofDecimal? whole (spanFraction after).1 (spanPower (spanFraction after).2).1 with
        | some n => some (n, (spanPower (spanFraction after).2).2)
        | none => (ofDecimal? whole none none).map (·, after) := rfl

section

variable {cs after mid rest ds : List Char} {d : Char} {fraction : Option (List Char)}
  {power : Option Int} {n : Number}

/-- A number, from its parts. -/
theorem readUnsigned?_of_parts (hwhole : spanDigits cs = (d :: ds, after))
    (hfraction : spanFraction after = (fraction, mid)) (hpower : spanPower mid = (power, rest))
    (hvalue : ofDecimal? (d :: ds) fraction power = some n) :
    readUnsigned? cs = some (n, rest) := by
  rw [readUnsigned?_eq, hwhole]
  dsimp only
  rw [hfraction, hpower, hvalue]

/-- The parts of a number that is a whole text. -/
theorem parts_of_readUnsigned? (h : readUnsigned? cs = some (n, [])) :
    ∃ d ds after fraction mid power, spanDigits cs = (d :: ds, after) ∧
      spanFraction after = (fraction, mid) ∧ spanPower mid = (power, []) ∧
      ofDecimal? (d :: ds) fraction power = some n := by
  rw [readUnsigned?_eq] at h
  rcases hspan : spanDigits cs with ⟨_ | ⟨d, ds⟩, after⟩
  · rw [hspan] at h
    cases h
  · rw [hspan] at h
    dsimp only at h
    split at h
    · next m hvalue =>
      cases hpower : spanPower (spanFraction after).2 with
      | mk power rest =>
      rw [hpower] at h hvalue
      cases h
      exact ⟨d, ds, after, _, _, power, rfl, rfl, hpower, hvalue⟩
    · next hnone =>
      -- the digits alone are a whole text only if nothing is behind them
      obtain ⟨m, hvalue, heq⟩ := Option.map_eq_some_iff.1 h
      cases heq
      rw [show ofDecimal? (d :: ds) (spanFraction []).1 (spanPower (spanFraction []).2).1 =
        ofDecimal? (d :: ds) none none from rfl, hvalue] at hnone
      cases hnone

theorem spanSign_append (h : cs ≠ []) (rest : List Char) :
    spanSign (cs ++ rest) = ((spanSign cs).1, (spanSign cs).2 ++ rest) := by
  obtain ⟨c, tail, rfl⟩ := List.exists_cons_of_ne_nil h
  by_cases hplus : c = '+'
  · subst hplus
    rfl
  · by_cases hminus : c = '-'
    · subst hminus
      rfl
    · have hspan : ∀ r, spanSign (c :: r) = (false, c :: r) := fun r =>
        spanSign.eq_3 _ (fun _ hr => hplus (List.cons.inj hr).1)
          fun _ hr => hminus (List.cons.inj hr).1
      rw [List.cons_append, hspan, hspan]
      rfl

/-- A fraction ends where no digit follows, and none starts with two points. -/
theorem spanFraction_append (cs : List Char) (hdigit : ∀ c ∈ rest.head?, c.isDigit = false)
    (hpoint : ∀ tail, rest = '.' :: tail → tail.head? = some '.') :
    spanFraction (cs ++ rest) = ((spanFraction cs).1, (spanFraction cs).2 ++ rest) := by
  cases cs with
  | nil =>
    by_cases hpoint' : ∃ tail, rest = '.' :: tail
    · obtain ⟨tail, rfl⟩ := hpoint'
      obtain ⟨more, rfl⟩ : ∃ more, tail = '.' :: more := by
        have hhead := hpoint tail rfl
        cases tail with
        | nil => cases hhead
        | cons d more => exact ⟨more, by rw [Option.some.inj hhead]⟩
      rfl
    · rw [List.nil_append, spanFraction.eq_2 rest fun tail heq => hpoint' ⟨tail, heq⟩]
      rfl
  | cons c tail =>
    by_cases hc : c = '.'
    · subst hc
      rcases hspan : spanDigits tail with ⟨_ | ⟨d, ds⟩, more⟩ <;>
        simp only [List.cons_append, spanFraction, hspan, spanDigits_extend hspan hdigit]
    · have hspan : ∀ r, spanFraction (c :: r) = (none, c :: r) := fun r =>
        spanFraction.eq_2 _ fun _ heq => hc (List.cons.inj heq).1
      rw [List.cons_append, hspan, hspan]
      rfl

/-- A power that a text ends with is read in front of anything but more digits. -/
theorem readPower?_extend {p : Int} (h : readPower? cs = some (p, []))
    (hrest : ∀ c ∈ rest.head?, c.isDigit = false) : readPower? (cs ++ rest) = some (p, rest) := by
  cases cs with
  | nil => cases h
  | cons c tail =>
    by_cases hc : c = 'e' ∨ c = 'E'
    · rw [readPower?_eq hc] at h
      have hne : tail ≠ [] := by
        rintro rfl
        cases h
      rw [List.cons_append, readPower?_eq hc, spanSign_append hne]
      rcases hspan : spanDigits (spanSign tail).2 with ⟨_ | ⟨d, ds⟩, more⟩
      · rw [hspan] at h
        cases h
      · rw [hspan] at h
        cases h
        rw [spanDigits_extend hspan hrest]
        rfl
    · have hnone : readPower? (c :: tail) = none :=
        readPower?.eq_7 _ (fun r hr => hc (.inl (List.cons.inj hr).1))
          (fun r hr => hc (.inr (List.cons.inj hr).1))
      rw [hnone] at h
      cases h

/-- An integer is read as a power as it was written. -/
theorem readPower?_integerDigits (k : Int) (hrest : ∀ c ∈ rest.head?, c.isDigit = false) :
    readPower? ('e' :: (integerDigits k ++ rest)) = some (k, rest) := by
  have hspan := spanDigits_append (fun _ => isDigit_of_mem_digitsOf (n := k.natAbs)) hrest
  have hvalue := digitsValue_digitsOf k.natAbs
  obtain ⟨d, ds, hds, hd⟩ := digitsOf_eq_cons k.natAbs
  rw [hds] at hspan hvalue
  rw [readPower?_eq (.inl rfl), integerDigits, hds]
  by_cases hneg : k < 0
  · rw [if_pos hneg, List.cons_append, spanSign.eq_2, hspan]
    simp only [hvalue, if_true]
    exact congrArg (fun n => some (n, rest)) (by omega)
  · have hsign : spanSign (d :: ds ++ rest) = (false, d :: ds ++ rest) := by
      refine spanSign.eq_3 _ (fun r hr => ?_) (fun r hr => ?_) <;>
        · obtain ⟨rfl, -⟩ := List.cons.inj hr
          cases hd
    rw [if_neg hneg, hsign]
    dsimp only
    rw [hspan]
    simp only [hvalue, Bool.false_eq_true, if_false]
    exact congrArg (fun n => some (n, rest)) (by omega)

end

end Number

namespace Hcl.Reader

open Number

/-- A text that goes on with no name and no number. -/
def Apart (rest : List Char) : Prop :=
  ∀ c ∈ rest.head?, Text.isIdentifierContinue c = false ∧ c ≠ '.'

theorem apart_cons {c : Char} {rest : List Char} (h : Text.isIdentifierContinue c = false)
    (h' : c ≠ '.') : Apart (c :: rest) := by
  intro d hd
  obtain rfl : c = d := Option.some.inj hd
  exact ⟨h, h'⟩

theorem Apart.not_digit {rest : List Char} (h : Apart rest) :
    ∀ c ∈ rest.head?, c.isDigit = false := by
  intro c hc
  have := (h c hc).1
  simp only [Text.isIdentifierContinue, Bool.or_eq_false_iff] at this
  exact this.1.1.2

theorem Apart.readPower? {rest : List Char} (h : Apart rest) : Number.readPower? rest = none := by
  refine Number.readPower?.eq_7 _ (fun tail heq => ?_) (fun tail heq => ?_)
  · exact absurd (h 'e' (by rw [heq]; rfl)).1 (by decide)
  · exact absurd (h 'E' (by rw [heq]; rfl)).1 (by decide)

/-- Digits, also those in which a number starts, are no trivia. -/
theorem startsToken_of_isDigit {d : Char} (h : d.isDigit = true) : startsToken d = true := by
  by_contra hne
  simp only [startsToken, isWhiteChar, isBlankChar, Bool.not_eq_true', Bool.or_eq_false_iff,
    beq_eq_false_iff_ne, ne_eq, not_and, not_not] at hne
  have : d ≠ ' ' ∧ d ≠ '\t' ∧ d ≠ '\n' ∧ d ≠ '\r' ∧ d ≠ '#' ∧ d ≠ '/' := by
    refine ⟨?_, ?_, ?_, ?_, ?_, ?_⟩ <;> rintro rfl <;> exact absurd h (by decide)
  simp_all

/-- The digits of a number of 64 bits are read as this number. -/
theorem readUnsigned?_digitsOf {n : Nat} (hn : n < unsignedLimit) :
    readUnsigned? (digitsOf n) = some (.int n, []) := by
  have hspan : spanDigits (digitsOf n ++ []) = (digitsOf n, []) :=
    spanDigits_append (fun _ => isDigit_of_mem_digitsOf) (by simp)
  have hvalue : Number.ofDecimal? (digitsOf n) none none = some (.int n) := by
    simp [Number.ofDecimal?, hn]
  obtain ⟨d, ds, hd, -⟩ := digitsOf_eq_cons n
  rw [List.append_nil] at hspan
  rw [hd] at hvalue hspan ⊢
  exact readUnsigned?_of_parts hspan rfl rfl hvalue

/-- A number starts with a digit. -/
theorem readUnsigned?_start {cs : List Char} {found : Number × List Char}
    (h : readUnsigned? cs = some found) : ∃ d ds, cs = d :: ds ∧ d.isDigit = true := by
  cases cs with
  | nil => cases h
  | cons d ds =>
    refine ⟨d, ds, rfl, ?_⟩
    by_contra hd
    have hspan : spanDigits (d :: ds) = ([], d :: ds) := by
      simp [spanDigits, List.span_eq_takeWhile_dropWhile, hd]
    simp [readUnsigned?, hspan] at h

/-- **A number that is a whole text** is read off any longer text that does not go on with it. -/
theorem readUnsigned?_extend {cs : List Char} {n : Number} (h : readUnsigned? cs = some (n, []))
    {rest : List Char} (hrest : Apart rest) : readUnsigned? (cs ++ rest) = some (n, rest) := by
  obtain ⟨d, ds, after, fraction, mid, power, hwhole, hfraction, hpower, hvalue⟩ :=
    parts_of_readUnsigned? h
  have hpoint : ∀ tail, rest = '.' :: tail → tail.head? = some '.' := fun tail heq =>
    absurd rfl (hrest '.' (by rw [heq]; rfl)).2
  have hfraction' := spanFraction_append after hrest.not_digit hpoint
  rw [hfraction] at hfraction'
  refine readUnsigned?_of_parts (spanDigits_extend hwhole hrest.not_digit) hfraction' ?_ hvalue
  unfold spanPower at hpower ⊢
  dsimp only
  split at hpower
  · next hread =>
    cases hpower
    rw [readPower?_extend hread hrest.not_digit]
  · cases hpower
    rw [List.nil_append, hrest.readPower?]

theorem consumed_append (text rest : List Char) : consumed (text ++ rest) rest = text := by
  rw [consumed, List.length_append, Nat.add_sub_cancel, List.take_left]

/-- A number that is a whole text is read as a literal with this spelling. -/
theorem numberLiteral_ok {cs rest : List Char} {n : Number}
    (h : readUnsigned? cs = some (n, [])) (hrest : Apart rest) :
    numberLiteral (cs ++ rest) = .ok (.number n cs, rest) := by
  rw [numberLiteral, ofOption, readUnsigned?_extend h hrest, Option.map_some]
  simp only [consumed_append]

/-- So is one with a minus sign in front of it. -/
theorem negativeLiteral_ok {cs rest : List Char} {n : Number}
    (h : readUnsigned? cs = some (n, [])) (hrest : Apart rest) :
    negativeLiteral ('-' :: (cs ++ rest)) = .ok (.number n.neg ('-' :: cs), rest) := by
  obtain ⟨d, ds, rfl, hd⟩ := readUnsigned?_start h
  have hends : Ends false (d :: ds ++ rest) :=
    ends_of_startsToken (startsToken_of_isDigit hd) false _
  rw [negativeLiteral, bind_ok (a := '-' :: (d :: ds ++ rest)) rfl, bind_ok (char_self _ _),
    bind_ok hends.blank, bind_apply, ofOption, readUnsigned?_extend h hrest, Option.map_some]
  simp only [pure_apply]
  rw [← List.cons_append, consumed_append]

end Hcl.Reader

end HclOverlay
