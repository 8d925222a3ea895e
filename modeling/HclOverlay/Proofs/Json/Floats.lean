import HclOverlay.Proofs.Decimal.Floats
import HclOverlay.Proofs.Decimal.Notation
import HclOverlay.Proofs.Decimal.Shortest
import HclOverlay.Proofs.Json.Integers

/-!
# Floats in JSON

A number with a point or a power is computed from its digits with two roundings or more, so a float
is not always read from its own text as itself. It is read as some float, though: no text that is
printed for a finite float is taken to be beyond the range of floats. This is clear below a bound
that leaves room for the roundings, and for the three floats above it by looking at them.

* `isSome_scaled` — the computation succeeds up to a bound; `isFinite_scaled` says with what.
* `significand_le` — digits beyond 64 bits are ignored, so what is computed with is never too large.
* `Readable`, `readable_point`, `readable_power` — texts with a point, with a power.
* `readable_shortest` — **the shortest decimal** of a finite float is read.
* `exists_exists_readNumeral?_float` — **a printed float** is read as some number.
* `isFinite_of_readNumeral?` — **no float but a finite one** is ever read.
-/

namespace HclOverlay.Json

open Decimal

/-! ## Scaling -/

theorem isSome_scaled_of_neg {power : Int} (h : power < 0) (x : Float) :
    (scaled x power).isSome = true := by
  fun_induction scaled x power with
  | case1 => omega
  | case2 => omega
  | case3 => rfl
  | case4 => rfl
  | case5 => omega
  | case6 x power hlarge _ _ ih => exact ih (by omega)

theorem isFinite_scaled {x y : Float} {power : Int} (h : scaled x power = some y)
    (hx : x.isFinite = true) : y.isFinite = true := by
  fun_induction scaled x power with
  | case1 => cases h
  | case2 x power hsmall hpos y' hinf =>
    rw [← Option.some.inj h]
    exact (isFinite_mul hx (nearby_power hsmall).isFinite).resolve_right hinf
  | case3 x power hsmall hneg =>
    cases h
    exact isFinite_div_power hx (by omega) hsmall
  | case4 =>
    cases h
    exact hx
  | case5 => cases h
  | case6 x power hlarge _ _ ih =>
    exact ih h (isFinite_div_power hx (by decide) (Nat.le_refl 308))

theorem certain_lt : certain < 10 ^ 309 := by
  calc certain < 2 ^ 54 * 2 ^ (970 : ℤ) := by
        rw [certain]
        gcongr
        norm_num
    _ = 2 * (2 ^ (93 : ℤ)) ^ 11 := by
        rw [← zpow_natCast (2 : ℚ) 54, ← zpow_natCast ((2 : ℚ) ^ (93 : ℤ)) 11, ← zpow_mul,
          ← zpow_one_add₀ (by norm_num), ← zpow_add₀ (by norm_num)]
        rfl
    _ ≤ 10 * (10 ^ 28) ^ 11 := by
        gcongr
        · norm_num
        · norm_num
    _ = 10 ^ 309 := by
        rw [← pow_mul, ← pow_succ']

theorem le_of_certain {n power : Nat} (hn : 0 < n) (h : ((n * 10 ^ power : Nat) : ℚ) ≤ certain) :
    power ≤ 308 := by
  by_contra hlarge
  have hle : (10 : ℚ) ^ 309 ≤ (n * 10 ^ power : Nat) := by
    rw [Nat.cast_mul]
    calc (10 : ℚ) ^ 309 ≤ 10 ^ power := pow_le_pow_right₀ (by norm_num) (by omega)
      _ ≤ n * (10 ^ power : Nat) := by
        rw [Nat.cast_pow]
        exact le_mul_of_one_le_left (by positivity) (by exact_mod_cast hn)
  exact absurd (hle.trans h) (not_le.2 certain_lt)

theorem not_isInf_of_isFinite {x : Float} (h : x.isFinite = true) : x.isInf = false := by
  have hunpack : x.toModel.unpack.isFinite = true := h
  show x.toModel.unpack.isInf = false
  cases hx : x.toModel.unpack with
  | infinity s => rw [hx] at hunpack; cases hunpack
  | notANumber => rfl
  | zero s => rfl
  | finite s m e hm => rfl

theorem isSome_scaled {n power : Nat} (hpos : 0 < n) (hn : n < unsignedLimit)
    (h : ((n * 10 ^ power : Nat) : ℚ) ≤ certain) :
    (scaled (Float.ofNat n) power).isSome = true := by
  have hpower := le_of_certain hpos h
  have hfinite := isFinite_mul_power (nearby_ofNat hpos hn) hpower h
  rw [scaled, Int.natAbs_natCast, if_pos hpower, if_pos (Int.natCast_nonneg power)]
  dsimp only
  rw [not_isInf_of_isFinite hfinite]
  rfl

/-! ## Significands -/

theorem significand_le {n m ignored : Nat} {ds : List Char} (h : significand n ds = (m, ignored)) :
    n ≤ m ∧ m * 10 ^ ignored ≤ Nat.ofDigitChars 10 ds n ∧ ignored ≤ ds.length := by
  induction ds generalizing n with
  | nil =>
    obtain ⟨rfl, rfl⟩ := Prod.mk.inj h
    exact ⟨Nat.le_refl n, by rw [Nat.ofDigitChars_nil, Nat.pow_zero, Nat.mul_one], Nat.le_refl 0⟩
  | cons d ds ih =>
    rw [significand] at h
    rw [Nat.ofDigitChars_cons, List.length_cons]
    split at h
    · obtain ⟨hle, hvalue, hignored⟩ := ih h
      exact ⟨by omega, hvalue, by omega⟩
    · obtain ⟨rfl, rfl⟩ := Prod.mk.inj h
      refine ⟨Nat.le_refl n, ?_, Nat.le_refl _⟩
      rw [Nat.ofDigitChars_eq_ofDigitChars_zero, Nat.pow_succ']
      calc n * (10 * 10 ^ ds.length) = 10 ^ ds.length * (10 * n) := by ring
        _ ≤ 10 ^ ds.length * (10 * n + (d.toNat - '0'.toNat)) :=
          Nat.mul_le_mul_left _ (Nat.le_add_right _ _)
        _ ≤ _ := Nat.le_add_right _ _

/-- Not all digits of a fraction are ignored. -/
theorem ignored_lt {n m ignored : Nat} {d : Char} {ds : List Char} (hd : d.isDigit = true)
    (hn : n < 10 ^ 16) (h : significand n (d :: ds) = (m, ignored)) :
    ignored < (d :: ds).length := by
  have hdigit := digit_lt hd
  rw [significand, if_pos (by rw [unsignedLimit]; omega)] at h
  exact Nat.lt_succ_of_le (significand_le h).2.2

theorem significand_pos {m ignored : Nat} {d : Char} {ds : List Char} (hd : d.isDigit = true)
    (hzero : d ≠ '0') (h : significand 0 (d :: ds) = (m, ignored)) : 0 < m := by
  have hdigit := digit_lt hd
  have hpos : 0 < d.toNat - '0'.toNat := by
    simp only [Char.isDigit, Bool.and_eq_true, decide_eq_true_eq] at hd
    have hle : '0'.toNat ≤ d.toNat := UInt32.le_iff_toNat_le.1 hd.1
    have hne : d.toNat ≠ '0'.toNat := fun heq => hzero (Char.ext (UInt32.toNat.inj heq))
    omega
  rw [significand, if_pos (by rw [unsignedLimit]; omega), Nat.mul_zero, Nat.zero_add] at h
  exact hpos.trans_le (significand_le h).1

/-! ## Numbers with a point or a power -/

/-- A text is read as a number, whatever follows it. -/
def Readable (text : List Char) : Prop :=
  ∀ negative, ∃ n, ∀ rest, Stops rest →
    readMagnitude? negative (text ++ rest) = some (n, rest)

theorem readFraction?_point {ds rest : List Char} (hds : ∀ c ∈ ds, c.isDigit = true) (hne : ds ≠ [])
    (hrest : ∀ c ∈ rest.head?, c.isDigit = false) :
    readFraction? ('.' :: (ds ++ rest)) = some (some ds, rest) := by
  rw [readFraction?, Number.span_append hds hrest]
  cases ds with
  | nil => exact absurd rfl hne
  | cons d ds => rfl

theorem readWhole?_append {d : Char} {ds rest : List Char} (hds : ∀ c ∈ d :: ds, c.isDigit = true)
    (hzero : d = '0' → ds = []) (hrest : ∀ c ∈ rest.head?, c.isDigit = false) :
    readWhole? (d :: ds ++ rest) = some (d :: ds, rest) := by
  rw [readWhole?, Number.span_append hds hrest]
  split
  · next heq => cases heq
  · next heq =>
    cases heq
    cases hzero rfl
  · next heq =>
    cases heq
    rfl

/-- A number that is no integer, from its parts. -/
theorem readMagnitude?_parts {negative : Bool} {cs cs₁ cs₂ rest whole : List Char}
    {fraction : Option (List Char)} {power : Option Int} {n m ignored : Nat}
    (hwhole : readWhole? cs = some (whole, cs₁)) (hn : significand 0 whole = (n, 0))
    (hfraction : readFraction? cs₁ = some (fraction, cs₂))
    (hpower : readPower? cs₂ = some (power, rest)) (hsome : fraction ≠ none ∨ power ≠ none)
    (hm : significand n (fraction.getD []) = (m, ignored)) :
    readMagnitude? negative cs =
      (floatOf? negative m (power.getD 0 + ignored - (fraction.getD []).length)).map (·, rest) := by
  have hexponent : power.getD 0 + ignored - (fraction.getD []).length =
      ((0 : Nat) : Int) - ((fraction.getD []).length - ignored) + power.getD 0 := by omega
  rw [hexponent]
  simp only [readMagnitude?, hwhole, hn, hfraction, hpower, Option.bind_eq_bind, Option.bind_some]
  split
  · simp at hsome
  · rw [hm]
    cases floatOf? negative m _ <;> rfl

/-- Positional notation. -/
theorem readable_point {d : Char} {ds fraction : List Char} (hds : ∀ c ∈ d :: ds, c.isDigit = true)
    (hzero : d = '0' → ds = []) (hwhole : Nat.ofDigitChars 10 (d :: ds) 0 < 10 ^ 16)
    (hfraction : ∀ c ∈ fraction, c.isDigit = true) (hne : fraction ≠ []) :
    Readable (d :: ds ++ '.' :: fraction) := by
  intro negative
  have hsignificand : significand 0 (d :: ds) = _ := significand_eq (hwhole.trans (by decide))
  obtain ⟨m, ignored, hm⟩ : ∃ m ignored,
      significand (Nat.ofDigitChars 10 (d :: ds) 0) fraction = (m, ignored) := ⟨_, _, rfl⟩
  have hignored : ignored < fraction.length := by
    obtain ⟨f, fs, rfl⟩ := List.exists_cons_of_ne_nil hne
    exact ignored_lt (hfraction f List.mem_cons_self) hwhole hm
  obtain ⟨x, hx⟩ := Option.isSome_iff_exists.1 (isSome_scaled_of_neg
    (show (0 : Int) + ignored - fraction.length < 0 by omega) (Float.ofNat m))
  refine ⟨.float (if negative then -x else x), fun rest hrest => ?_⟩
  have hread : readWhole? (d :: ds ++ '.' :: (fraction ++ rest)) =
      some (d :: ds, '.' :: (fraction ++ rest)) :=
    readWhole?_append hds hzero (by rintro c ⟨⟩; rfl)
  have hpower : readPower? rest = some (none, rest) := by
    obtain ⟨c, more, rfl, hc⟩ := hrest
    obtain rfl | rfl := hc <;> rfl
  have htext : d :: ds ++ '.' :: fraction ++ rest = d :: ds ++ '.' :: (fraction ++ rest) :=
    List.append_assoc _ _ _
  rw [htext, readMagnitude?_parts hread hsignificand
    (readFraction?_point hfraction hne hrest.not_digit) hpower (.inl (Option.some_ne_none _)) hm,
    floatOf?]
  dsimp only [Option.getD]
  rw [hx]
  rfl

/-- The power is read as it was written. -/
theorem readPower?_integerDigits (power : Int) {rest : List Char}
    (hrest : ∀ c ∈ rest.head?, c.isDigit = false) :
    readPower? ('e' :: ((if 0 ≤ power then ['+'] else []) ++ integerDigits power ++ rest)) =
      some (some power, rest) := by
  have hspan : (digitsOf power.natAbs ++ rest).span Char.isDigit = (digitsOf power.natAbs, rest) :=
    Number.span_append (fun _ => isDigit_of_mem_digitsOf) hrest
  have hdigits := digitsValue_digitsOf power.natAbs
  obtain ⟨d, ds, hds, -⟩ := digitsOf_eq_cons power.natAbs
  rw [hds] at hspan hdigits
  rcases Int.lt_or_le power 0 with hneg | hpos
  · rw [if_neg (by omega), integerDigits, if_pos hneg, hds]
    simp only [readPower?, List.nil_append, List.cons_append] at hspan ⊢
    rw [if_pos (by decide), hspan]
    simp only [hdigits, if_true]
    exact congrArg (fun n => some (some n, rest)) (by omega)
  · rw [if_pos hpos, integerDigits, if_neg (by omega), hds]
    simp only [readPower?, List.nil_append, List.cons_append] at hspan ⊢
    rw [if_pos (by decide), hspan]
    simp only [hdigits, Bool.false_eq_true, if_false]
    exact congrArg (fun n => some (some n, rest)) (by omega)

/-- Scientific notation, if the power can be applied to as many digits as are read. -/
theorem readable_power {d : Char} {ds : List Char} (hds : ∀ c ∈ d :: ds, c.isDigit = true)
    (power : Int)
    (hscaled : ∀ m ignored, significand 0 (d :: ds) = (m, ignored) →
      (scaled (Float.ofNat m) (power + ignored - ds.length)).isSome = true) :
    Readable (d :: (if ds = [] then [] else '.' :: ds) ++
      'e' :: (if 0 ≤ power then ['+'] else []) ++ integerDigits power) := by
  intro negative
  have hdigit := digit_lt (hds d List.mem_cons_self)
  have hfirst : significand 0 [d] = (d.toNat - '0'.toNat, 0) := by
    rw [significand, if_pos (by rw [unsignedLimit]; omega)]
    simp [significand]
  obtain ⟨m, ignored, hm⟩ : ∃ m ignored, significand 0 (d :: ds) = (m, ignored) := ⟨_, _, rfl⟩
  obtain ⟨x, hx⟩ := Option.isSome_iff_exists.1 (hscaled m ignored hm)
  rw [significand, if_pos (by rw [unsignedLimit]; omega), Nat.mul_zero, Nat.zero_add] at hm
  refine ⟨.float (if negative then -x else x), fun rest hrest => ?_⟩
  have hpower := readPower?_integerDigits power hrest.not_digit
  have hone : ∀ c ∈ [d], c.isDigit = true := List.forall_mem_singleton.2 (hds d List.mem_cons_self)
  generalize hback :
    (if 0 ≤ power then ['+'] else []) ++ integerDigits power ++ rest = back at hpower
  -- a single digit has no point behind it
  by_cases hnil : ds = []
  · subst hnil
    have htext : d :: (if ([] : List Char) = [] then [] else '.' :: []) ++
        'e' :: (if 0 ≤ power then ['+'] else []) ++ integerDigits power ++ rest =
          [d] ++ 'e' :: back := by
      rw [if_pos rfl, ← hback]
      simp only [List.append_assoc, List.cons_append]
    have hread : readWhole? ([d] ++ 'e' :: back) = some ([d], 'e' :: back) :=
      readWhole?_append hone (fun _ => rfl) (by rintro c ⟨⟩; rfl)
    rw [htext, readMagnitude?_parts hread hfirst rfl hpower (.inr (Option.some_ne_none _)) hm,
      floatOf?]
    dsimp only [Option.getD]
    rw [hx]
    rfl
  · have htext : d :: (if ds = [] then [] else '.' :: ds) ++
        'e' :: (if 0 ≤ power then ['+'] else []) ++ integerDigits power ++ rest =
          [d] ++ '.' :: (ds ++ 'e' :: back) := by
      rw [if_neg hnil, ← hback]
      simp only [List.append_assoc, List.cons_append, List.nil_append]
    have hread : readWhole? ([d] ++ '.' :: (ds ++ 'e' :: back)) =
        some ([d], '.' :: (ds ++ 'e' :: back)) :=
      readWhole?_append hone (fun _ => rfl) (by rintro c ⟨⟩; rfl)
    have hpoint : readFraction? ('.' :: (ds ++ 'e' :: back)) = some (some ds, 'e' :: back) :=
      readFraction?_point (fun c hc => hds c (List.mem_cons_of_mem _ hc)) hnil (by rintro c ⟨⟩; rfl)
    rw [htext, readMagnitude?_parts hread hfirst hpoint hpower (.inl (Option.some_ne_none _)) hm,
      floatOf?]
    dsimp only [Option.getD]
    rw [hx]
    rfl

/-! ## Printed floats -/

/-- **Printed digits** are read, if those that are not ignored can be scaled. -/
theorem readable_digits {c : Nat} {j : Int} (hc : 0 < c)
    (hscaled : ∀ m ignored, 0 < m → significand 0 (digitsOf c) = (m, ignored) →
      (scaled (Float.ofNat m) (j + ignored)).isSome = true) :
    Readable (layout.digits ⟨c, j⟩) := by
  have hwrites := layout.writes_digits c j
  generalize layout.digits ⟨c, j⟩ = text at hwrites
  -- up to sixteen digits before the point are read as a whole
  have hsixteen : ∀ {ds : List Char}, (∀ x ∈ ds, x.isDigit = true) → ds.length ≤ 16 →
      Nat.ofDigitChars 10 ds 0 < 10 ^ 16 := by
    intro ds hds hlength
    refine (ofDigitChars_lt hds).trans_le ?_
    rw [Nat.zero_add, Nat.one_mul]
    exact Nat.pow_le_pow_right (by decide) hlength
  cases hwrites with
  | @whole d ds k hds _ hshort =>
    have hall : ∀ x ∈ d :: (ds ++ List.replicate k '0'), x.isDigit = true :=
      List.forall_mem_append.2
        ⟨fun _ hx => isDigit_of_mem_digitsOf (n := c) (by rw [hds]; exact hx), isDigit_replicate⟩
    have hlength : (d :: (ds ++ List.replicate k '0')).length ≤ 16 := by
      rw [List.length_cons, List.length_append, List.length_replicate]
      have hshort : ((ds.length + 1 : Nat) + k : Int) ≤ 16 := hshort
      omega
    exact readable_point hall (fun h => absurd h (ne_zero_of_digitsOf hc hds))
      (hsixteen hall hlength) (List.forall_mem_singleton.2 rfl) (List.cons_ne_nil _ _)
  | @point d ds fraction hdigits hzero hshort hne _ _ =>
    have hfront : ∀ x ∈ d :: ds, x.isDigit = true := fun x hx =>
      hdigits x (List.mem_append_left _ hx)
    have hlength : (d :: ds).length ≤ 16 := by
      rcases hshort with rfl | hshort
      · exact show 1 ≤ 16 by decide
      · have hshort : ((d :: ds).length : Int) ≤ 16 := hshort
        exact_mod_cast hshort
    exact readable_point hfront hzero (hsixteen hfront hlength)
      (fun x hx => hdigits x (List.mem_append_right _ hx)) hne
  | @scientific d ds hds =>
    have hdigits : ∀ x ∈ d :: ds, x.isDigit = true := by
      rw [← hds]
      exact fun _ => isDigit_of_mem_digitsOf
    have hpower : ∀ m ignored, significand 0 (d :: ds) = (m, ignored) →
        (scaled (Float.ofNat m) (j + ds.length + ignored - ds.length)).isSome = true := by
      intro m ignored hm
      rw [show j + (ds.length : Int) + ignored - ds.length = j + ignored by omega]
      refine hscaled m ignored ?_ (hds ▸ hm)
      exact significand_pos (hdigits d List.mem_cons_self) (ne_zero_of_digitsOf hc hds) hm
    have hread := readable_power hdigits _ hpower
    simpa [layout] using hread

/-- The three largest floats. -/
theorem search_largest : ∀ narrow : Bool, ∀ k : Fin 3,
    (Binary.mk (2 ^ 53 - 3 + k) 971 narrow).search 20 309 =
      ⟨[17976931348623153, 17976931348623155, 17976931348623157][k], 292⟩ ∧
    (scaled (Float.ofNat [17976931348623153, 17976931348623155, 17976931348623157][k]) 292).isSome =
      true := by
  decide +kernel

/-- The interval around a float ends below what is read for certain, but for the three largest. -/
theorem interval_le {m : Nat} {e : Int} (hm : m < 2 ^ 53) (he : e ≤ 971)
    (hsmall : m < 2 ^ 53 - 3 ∨ e ≠ 971) : ((4 * m + 2) * 2 ^ (e - 2) : ℚ) ≤ certain := by
  rcases Int.lt_or_le e 971 with hlt | hge
  · calc ((4 * m + 2) * 2 ^ (e - 2) : ℚ) ≤ (4 * 2 ^ 53 + 2) * 2 ^ (968 : ℤ) := by
          have hm : (m : ℚ) ≤ 2 ^ 53 := by exact_mod_cast hm.le
          gcongr
          · norm_num
          · omega
      _ ≤ (2 ^ 54 - 7) * 4 * 2 ^ (968 : ℤ) := by
        gcongr
        norm_num
      _ = certain := by
        rw [certain, mul_assoc, show (4 : ℚ) = 2 ^ (2 : ℤ) by norm_num, ← zpow_add₀ (by norm_num)]
        rfl
  · obtain rfl : e = 971 := by omega
    have hm : (m : ℚ) + 4 ≤ 2 ^ 53 := by exact_mod_cast (show m + 4 ≤ 2 ^ 53 by omega)
    calc ((4 * m + 2) * 2 ^ ((971 : ℤ) - 2) : ℚ) ≤ (2 ^ 54 - 7) * 2 * 2 ^ ((971 : ℤ) - 2) := by
          gcongr
          linarith
      _ = certain := by
        rw [certain, mul_assoc, ← zpow_one_add₀ (by norm_num)]
        rfl

/-- The digits of a decimal that is not too large can be scaled. -/
theorem isSome_scaled_significand {c m ignored : Nat} {j : Int} (hle : (c * 10 ^ j : ℚ) ≤ certain)
    (hm : 0 < m) (h : significand 0 (digitsOf c) = (m, ignored)) :
    (scaled (Float.ofNat m) (j + ignored)).isSome = true := by
  rcases Int.lt_or_le (j + ignored) 0 with hneg | hpos
  · exact isSome_scaled_of_neg hneg _
  · obtain ⟨power, hpower⟩ := Int.eq_ofNat_of_zero_le hpos
    have hvalue : m * 10 ^ ignored ≤ c := by
      rw [← digitsValue_digitsOf c]
      exact (significand_le h).2.1
    rw [hpower]
    refine isSome_scaled hm (significand_lt (by decide) h) ?_
    calc ((m * 10 ^ power : Nat) : ℚ) = (m * 10 ^ ignored : Nat) * 10 ^ j := by
          push_cast
          rw [mul_assoc, ← zpow_natCast, ← zpow_natCast, ← zpow_add₀ (by norm_num), ← hpower,
            Int.add_comm]
      _ ≤ c * 10 ^ j := by
        have hvalue : ((m * 10 ^ ignored : Nat) : ℚ) ≤ c := by exact_mod_cast hvalue
        gcongr
      _ ≤ certain := hle

/-- **The shortest decimal** of a finite float is read. -/
theorem readable_shortest {x : Float} (hx : x.isFinite = true) (hzero : (x == 0) = false) :
    Readable (layout.digits (shortest x)) := by
  have hdecoded := isDecoded_ofFloat hx
  have hpos := (mantissa_pos_iff hx).2 hzero
  obtain ⟨c, j, hsearch, hgrid⟩ :=
    exists_onGrid hdecoded.mantissa_lt hdecoded.le_exponent hdecoded.exponent_le
  have hshortest : shortest x = ⟨c, j⟩ := hsearch
  obtain ⟨hc, hle⟩ := digits_le hpos hgrid
  rw [hshortest]
  refine readable_digits hc fun m ignored hm h => ?_
  by_cases hsmall : (Binary.ofFloat x).mantissa < 2 ^ 53 - 3 ∨ (Binary.ofFloat x).exponent ≠ 971
  · exact isSome_scaled_significand
      (hle.trans (interval_le hdecoded.mantissa_lt hdecoded.exponent_le hsmall)) hm h
  · -- the three largest floats are looked at one by one
    obtain ⟨hlarge, hexponent⟩ := not_or.1 hsmall
    have hlt := hdecoded.mantissa_lt
    generalize Binary.ofFloat x = b at *
    obtain ⟨mantissa, exponent, narrow⟩ := b
    obtain rfl := not_not.1 hexponent
    obtain ⟨k, rfl⟩ : ∃ k : Fin 3, mantissa = 2 ^ 53 - 3 + k :=
      ⟨⟨mantissa - (2 ^ 53 - 3), by dsimp only at *; omega⟩, by dsimp only at *; omega⟩
    have hlog : ∀ k : Fin 3, (2 ^ 53 - 3 + k.val).log2 = 52 := by decide +kernel
    obtain ⟨hlast, hscaled⟩ := search_largest narrow k
    dsimp only at hsearch
    rw [hlog k] at hsearch
    obtain ⟨rfl, rfl⟩ := Digits.mk.inj (hsearch.symm.trans hlast)
    have hfits : ∀ k : Fin 3, [17976931348623153, 17976931348623155, 17976931348623157][k] <
        unsignedLimit := by decide
    have hvalue := digitsValue_digitsOf [17976931348623153, 17976931348623155, 17976931348623157][k]
    rw [significand_eq (lt_of_eq_of_lt hvalue (hfits k))] at h
    obtain ⟨rfl, rfl⟩ := Prod.mk.inj h
    rw [show Nat.ofDigitChars 10 _ 0 = _ from hvalue]
    exact hscaled

/-! ## Signs -/

variable {x : Float} {rest : List Char}

/-- A sign in front of a number that can be read. -/
theorem Readable.signed {text : List Char} (h : Readable text) (negative : Bool) :
    ∃ n, ∀ rest, Stops rest →
      readNumeral? ((if negative then ['-'] else []) ++ text ++ rest) = some (n, rest) := by
  obtain ⟨n, hread⟩ := h negative
  refine ⟨n, fun rest hrest => ?_⟩
  have hread := hread rest hrest
  cases negative with
  | true => exact hread
  | false =>
    have hminus : ∀ cs, text ++ rest ≠ '-' :: cs := by
      intro cs heq
      rw [heq] at hread
      cases hread
    exact (readNumeral?.eq_2 _ hminus).trans hread

theorem readable_zero : Readable ['0', '.', '0'] :=
  readable_point (d := '0') (List.forall_mem_singleton.2 rfl) (fun _ => rfl) (by decide)
    (List.forall_mem_singleton.2 rfl) (List.cons_ne_nil _ _)

/-- **A printed float** is read as a number, wherever it stands. -/
theorem exists_readNumeral?_float (hx : x.isFinite = true) :
    ∃ n, ∀ rest, Stops rest →
      readNumeral? ((Numeral.float x).chars ++ rest) = some (n, rest) := by
  rw [Numeral.chars, Layout.write]
  split
  · exact readable_zero.signed (signBit x)
  · next hzero => exact (readable_shortest hx (eq_false_of_ne_true hzero)).signed (signBit x)

theorem isFinite_of_floatOf? {negative : Bool} {n : Nat} {power : Int}
    (hn : n < unsignedLimit) (h : floatOf? negative n power = some (.float x)) :
    x.isFinite = true := by
  obtain ⟨y, hy, heq⟩ := Option.map_eq_some_iff.1 h
  cases heq
  have hfinite := isFinite_scaled hy (isFinite_ofNat hn)
  split
  · exact isFinite_neg hfinite
  · exact hfinite

theorem isFinite_of_integerOf {negative : Bool} {n : Nat} (hn : n < unsignedLimit)
    (h : integerOf negative n = .float x) : x.isFinite = true := by
  rw [integerOf] at h
  split at h
  · split at h <;> cases h
    exact isFinite_neg (isFinite_ofNat hn)
  · cases h

theorem isFinite_of_readMagnitude? {negative : Bool} {cs rest : List Char}
    (h : readMagnitude? negative cs = some (.float x, rest)) : x.isFinite = true := by
  obtain ⟨⟨whole, cs₁⟩, -, h⟩ := Option.bind_eq_some_iff.1 h
  obtain ⟨⟨fraction, cs₂⟩, -, h⟩ := Option.bind_eq_some_iff.1 h
  obtain ⟨⟨power, cs₃⟩, -, h⟩ := Option.bind_eq_some_iff.1 h
  have hwhole : (significand 0 whole).1 < unsignedLimit := significand_lt (by decide) rfl
  dsimp only at h
  split at h
  · split at h
    · exact isFinite_of_integerOf hwhole (Prod.mk.inj (Option.some.inj h)).1
    · obtain ⟨n, hn, h⟩ := Option.bind_eq_some_iff.1 h
      cases h
      exact isFinite_of_floatOf? hwhole hn
  · obtain ⟨n, hn, h⟩ := Option.bind_eq_some_iff.1 h
    cases h
    exact isFinite_of_floatOf? (significand_lt hwhole rfl) hn

/-- **Every float that is read** is finite. -/
theorem isFinite_of_readNumeral? {cs rest : List Char}
    (h : readNumeral? cs = some (.float x, rest)) : x.isFinite = true := by
  rw [readNumeral?.eq_def] at h
  split at h <;> exact isFinite_of_readMagnitude? h

end HclOverlay.Json
