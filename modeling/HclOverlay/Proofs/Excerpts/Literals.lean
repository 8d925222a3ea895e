import HclOverlay.Proofs.Excerpts.Tokens
import HclOverlay.Proofs.Reading.Literal

/-!
# Literals in excerpts

Literal text ends at a marker, at the end of its kind or at a bad escape, and a number where no digit,
fraction or power goes on. Both are found within an excerpt if what follows it is told apart from
them: literal text by the piece that is read next, a number by a text that goes on with neither.

* `closesText` — where literal text ends; `spanLiteral_cases` — one step of reading it.
* `spanLiteral_alone`, `alone_literal` — **literal text**, by induction on the steps.
* `Calm` — a text that goes on with no name, number, step or operator.
* `readUnsigned?_calm`, `alone_numberLiteral`, `alone_negativeLiteral` — **numbers**.
-/

namespace HclOverlay.Hcl.Reader

open Quoted

variable {y cs mid rest : List Char} {k : Nat} {kind : TextKind}

/-! ## Literal text -/

/-- Whether literal text ends here, apart from bad escapes. -/
def closesText (kind : TextKind) (cs : List Char) : Bool := TextKind.ends kind cs || startsMarker cs

theorem spanLiteral_closed (h : closesText kind cs = true) (n : Nat) :
    spanLiteral kind n cs = ([], cs) := by
  rcases Bool.or_eq_true_iff.1 h with h | h
  · exact spanLiteral_ends h n
  · cases n with
    | zero => rfl
    | succ n =>
      unfold startsMarker at h
      split at h
      · unfold spanLiteral
        split <;> rfl
      · unfold spanLiteral
        split <;> rfl
      · cases h

/-- A bad escape ends literal text and is dropped. -/
theorem spanLiteral_dropped {n : Nat} (hends : TextKind.ends kind ('\\' :: cs) = false)
    (hk : TextKind.hasEscapes kind = true) (he : escape? cs = none) :
    spanLiteral kind (n + 1) ('\\' :: cs) = ([], cs.drop 1) := by
  unfold spanLiteral
  rw [if_neg (by simp [hends])]
  simp only [hk, if_true, he]
  rfl

/-- One step through literal text. -/
theorem spanLiteral_cases (kind : TextKind) (n : Nat) (c : Char) (cs : List Char) :
    closesText kind (c :: cs) = true ∨
      closesText kind (c :: cs) = false ∧
        ((∃ tail, cs = c :: '{' :: tail ∧ startsDoubled (c :: cs) = true ∧
            spanLiteral kind (n + 1) (c :: cs) =
              (c :: '{' :: (spanLiteral kind n tail).1, (spanLiteral kind n tail).2)) ∨
          (c = '\\' ∧ TextKind.hasEscapes kind = true ∧
            ((∃ e taken, escape? cs = some (e, taken) ∧ spanLiteral kind (n + 1) (c :: cs) =
                (e :: (spanLiteral kind n (cs.drop taken)).1,
                  (spanLiteral kind n (cs.drop taken)).2)) ∨
              (escape? cs = none ∧ spanLiteral kind (n + 1) (c :: cs) = ([], cs.drop 1)))) ∨
          (startsDoubled (c :: cs) = false ∧ (c = '\\' → TextKind.hasEscapes kind = false) ∧
            spanLiteral kind (n + 1) (c :: cs) =
              (c :: (spanLiteral kind n cs).1, (spanLiteral kind n cs).2))) := by
  cases hclosed : closesText kind (c :: cs) with
  | true => exact .inl rfl
  | false =>
    refine .inr ⟨rfl, ?_⟩
    obtain ⟨hends, hmarker⟩ := Bool.or_eq_false_iff.1 hclosed
    cases hdoubled : startsDoubled (c :: cs) with
    | true =>
      have hd := hdoubled
      unfold startsDoubled at hd
      split at hd
      · next heq =>
        cases heq
        exact .inl ⟨_, rfl, rfl, spanLiteral_doubled (.inl rfl) hends rfl⟩
      · next heq =>
        cases heq
        exact .inl ⟨_, rfl, rfl, spanLiteral_doubled (.inr rfl) hends rfl⟩
      · cases hd
    | false =>
      by_cases hescape : c = '\\' ∧ TextKind.hasEscapes kind = true
      · obtain ⟨rfl, hk⟩ := hescape
        refine .inr (.inl ⟨rfl, hk, ?_⟩)
        cases he : escape? cs with
        | some found =>
          obtain ⟨e, taken⟩ := found
          exact .inl ⟨e, taken, rfl, spanLiteral_escaped hends hk he rfl⟩
        | none =>
          exact .inr ⟨rfl, spanLiteral_dropped hends hk he⟩
      · have hplain : c = '\\' → TextKind.hasEscapes kind = false := fun hc => by
          simpa [hc] using hescape
        exact .inr (.inr ⟨rfl, hplain, spanLiteral_plain hends hmarker hdoubled hplain rfl⟩)

/-- The text of a heredoc ends at a line end with the delimiter behind it. -/
theorem ends_heredoc_iff {delimiter : List Char} :
    TextKind.ends (.heredoc delimiter) cs = true ↔
      ∃ eol tail, (eol = ['\n'] ∨ eol = ['\r', '\n']) ∧ cs = eol ++ tail ∧
        startsDelimiter delimiter tail = true := by
  constructor
  · intro h
    simp only [TextKind.ends] at h
    split at h
    · exact ⟨_, _, .inl rfl, rfl, h⟩
    · exact ⟨_, _, .inr rfl, rfl, h⟩
    · cases h
  · rintro ⟨eol, tail, rfl | rfl, rfl, h⟩
    · exact h
    · exact h

theorem startsDelimiter_append {delimiter : List Char} (h : startsDelimiter delimiter cs = true)
    (y : List Char) : startsDelimiter delimiter (cs ++ y) = true := by
  simp only [startsDelimiter, List.isPrefixOf_iff_prefix] at h ⊢
  rw [List.dropWhile_append]
  split
  · next hempty =>
    rw [List.isEmpty_iff.1 hempty] at h
    exact (List.prefix_nil.1 h) ▸ List.nil_prefix
  · exact h.trans (List.prefix_append _ y)

/-- What closes literal text in an excerpt closes it in front of more text. -/
theorem closesText_append (h : closesText kind cs = true) (y : List Char) :
    closesText kind (cs ++ y) = true := by
  rcases Bool.or_eq_true_iff.1 h with h | h
  · refine Bool.or_eq_true_iff.2 (.inl ?_)
    cases kind with
    | quoted =>
      cases cs with
      | nil => cases h
      | cons c tail => exact h
    | nested => cases h
    | heredoc delimiter =>
      obtain ⟨eol, tail, heol, rfl, hdelimiter⟩ := ends_heredoc_iff.1 h
      exact ends_heredoc_iff.2 ⟨eol, tail ++ y, heol, List.append_assoc _ _ _,
        startsDelimiter_append hdelimiter y⟩
  · refine Bool.or_eq_true_iff.2 (.inr ?_)
    unfold startsMarker at h
    split at h <;> first | rfl | cases h

theorem startsDoubled_append (h : startsDoubled cs = true) (y : List Char) :
    startsDoubled (cs ++ y) = true := by
  unfold startsDoubled at h
  split at h <;> first | rfl | cases h

theorem codePoint?_append {count : Nat} {c : Char} (h : codePoint? count cs = some c)
    (y : List Char) : count ≤ cs.length ∧ codePoint? count (cs ++ y) = some c := by
  have hlen : count ≤ cs.length := by
    by_contra hlt
    rw [codePoint?, if_pos (by simp; omega)] at h
    cases h
  refine ⟨hlen, ?_⟩
  rw [codePoint?, List.take_append_of_le_length hlen]
  exact h

/-- An escape is resolved from its own characters. -/
theorem escape?_append {e : Char} {taken : Nat} (h : escape? cs = some (e, taken))
    (y : List Char) : escape? (cs ++ y) = some (e, taken) := by
  unfold escape? at h
  split at h
  · obtain ⟨c, hc, heq⟩ := Option.map_eq_some_iff.1 h
    change (codePoint? 4 (_ ++ y)).map (·, 5) = _
    rw [(codePoint?_append hc y).2]
    exact congrArg some heq
  · obtain ⟨c, hc, heq⟩ := Option.map_eq_some_iff.1 h
    change (codePoint? 8 (_ ++ y)).map (·, 9) = _
    rw [(codePoint?_append hc y).2]
    exact congrArg some heq
  · next c tail hu hU =>
    rw [List.cons_append, escape?.eq_3 _ _ (fun hc => hu hc) fun hc => hU hc]
    exact h
  · cases h

/-- An escape takes characters that are there. -/
theorem escape?_taken {e : Char} {taken : Nat} (h : escape? cs = some (e, taken)) :
    1 ≤ taken ∧ taken ≤ cs.length := by
  unfold escape? at h
  split at h
  · obtain ⟨c, hc, heq⟩ := Option.map_eq_some_iff.1 h
    cases heq
    exact ⟨by decide, Nat.succ_le_succ (codePoint?_append hc []).1⟩
  · obtain ⟨c, hc, heq⟩ := Option.map_eq_some_iff.1 h
    cases heq
    exact ⟨by decide, Nat.succ_le_succ (codePoint?_append hc []).1⟩
  · obtain ⟨c, -, heq⟩ := Option.map_eq_some_iff.1 h
    cases heq
    exact ⟨by decide, by simp⟩
  · cases h

/-- An escape within an excerpt is resolved from the excerpt. -/
theorem escape?_excerpt {e : Char} {taken : Nat} (h : escape? (cs ++ y) = some (e, taken))
    (htaken : taken ≤ cs.length) : escape? cs = some (e, taken) := by
  have hcode : ∀ {count : Nat} {tail : List Char}, count ≤ tail.length →
      codePoint? count tail = codePoint? count (tail ++ y) := by
    intro count tail hlen
    rw [codePoint?, codePoint?, List.take_append_of_le_length hlen]
  have hpos := (escape?_taken h).1
  cases cs with
  | nil =>
    rw [List.length_nil] at htaken
    omega
  | cons c tail =>
    rw [List.cons_append] at h
    simp only [List.length_cons] at htaken
    unfold escape? at h
    split at h
    · next heq =>
      cases heq
      obtain ⟨d, hd, heq⟩ := Option.map_eq_some_iff.1 h
      cases heq
      change (codePoint? 4 tail).map (·, 5) = _
      rw [hcode (by omega), hd]
      rfl
    · next heq =>
      cases heq
      obtain ⟨d, hd, heq⟩ := Option.map_eq_some_iff.1 h
      cases heq
      change (codePoint? 8 tail).map (·, 9) = _
      rw [hcode (by omega), hd]
      rfl
    · next hu hU heq =>
      cases heq
      rw [escape?.eq_3 _ _ (fun hc => hu hc) fun hc => hU hc]
      exact h
    · next heq => cases heq

/-- Behind a backslash that escapes nothing, an excerpt escapes nothing. -/
theorem escape?_eq_none (h : escape? (cs ++ y) = none) : escape? cs = none := by
  by_contra hsome
  obtain ⟨⟨e, taken⟩, hfound⟩ := Option.ne_none_iff_exists'.1 hsome
  rw [escape?_append hfound y] at h
  cases h

/-- The signs that are doubled to stand for themselves. -/
theorem startsDoubled_cons {c : Char} (h : startsDoubled (c :: cs) = true) : c = '$' ∨ c = '%' := by
  unfold startsDoubled at h
  split at h
  · next heq => exact .inl (List.cons.inj heq).1
  · next heq => exact .inr (List.cons.inj heq).1
  · cases h

/-- Literal text that takes nothing is empty. -/
theorem spanLiteral_nothing {n : Nat} {text : List Char}
    (h : spanLiteral kind n cs = (text, rest)) (hlen : cs.length ≤ rest.length) : text = [] := by
  have hshorter : ∀ n tail, (spanLiteral kind n tail).2.length ≤ tail.length :=
    fun n tail => (suffix_spanLiteral kind n tail).length_le
  cases n with
  | zero => exact (Prod.mk.inj h).1.symm
  | succ n =>
    cases cs with
    | nil => exact (Prod.mk.inj h).1.symm
    | cons c tail =>
      rcases spanLiteral_cases kind n c tail with hclosed | ⟨-, ⟨tail, rfl, -, hstep⟩ |
        ⟨-, -, ⟨e, taken, -, hstep⟩ | ⟨-, hstep⟩⟩ | ⟨-, -, hstep⟩⟩
      · rw [spanLiteral_closed hclosed] at h
        exact (Prod.mk.inj h).1.symm
      all_goals
        rw [hstep] at h
        obtain ⟨-, rfl⟩ := Prod.mk.inj h
      · have := hshorter n tail
        simp only [List.length_cons] at hlen
        omega
      · have := hshorter n (tail.drop taken)
        simp only [List.length_cons, List.length_drop] at hlen this
        omega
      · simp only [List.length_cons, List.length_drop] at hlen
        omega
      · have := hshorter n tail
        simp only [List.length_cons] at hlen
        omega

/-- **Literal text is read alone** if what closes it is there. -/
theorem spanLiteral_alone {n n' : Nat} {text : List Char} (hn : (cs ++ y).length ≤ n)
    (hn' : cs.length ≤ n') (h : spanLiteral kind n (cs ++ y) = (text, rest ++ y))
    (hrest : closesText kind (rest ++ y) = true → closesText kind rest = true ∨ rest = []) :
    spanLiteral kind n' cs = (text, rest) := by
  induction n generalizing n' cs text with
  | zero =>
    obtain ⟨rfl, rfl⟩ := List.append_eq_nil_iff.1 (List.length_eq_zero_iff.1 (Nat.le_zero.1 hn))
    obtain ⟨rfl, hnil⟩ := Prod.mk.inj h
    obtain rfl : [] = rest := List.append_nil rest ▸ hnil
    cases n' <;> rfl
  | succ n ih =>
    -- what is left on the way still ends in `y`, as the rest does
    have hwithin : ∀ {tail more}, more <:+ tail ++ y → (spanLiteral kind n more).2 = rest ++ y →
        ∃ left, more = left ++ y ∧ left <:+ tail := by
      intro tail more hmore heq
      exact suffix_between hmore (heq ▸ suffix_spanLiteral kind n more)
    cases cs with
    | nil =>
      have hlen := (suffix_spanLiteral kind (n + 1) ([] ++ y)).length_le
      rw [h, List.length_append, List.nil_append] at hlen
      obtain rfl : rest = [] := List.length_eq_zero_iff.1 (by omega)
      rw [spanLiteral_nothing h (by simp)]
      cases n' <;> rfl
    | cons c tail =>
      obtain ⟨n', rfl⟩ := Nat.exists_eq_add_of_le' (show 1 ≤ n' by simp at hn'; omega)
      simp only [List.length_cons, List.cons_append, List.length_append] at hn hn'
      rcases spanLiteral_cases kind n c (tail ++ y) with hclosed | ⟨hopen, hstep⟩
      · -- the text ends right here
        rw [List.cons_append, spanLiteral_closed hclosed] at h
        obtain ⟨rfl, heq⟩ := Prod.mk.inj h
        obtain rfl : c :: tail = rest := List.append_cancel_right heq
        exact spanLiteral_closed ((hrest hclosed).resolve_right (List.cons_ne_nil c tail)) _
      have hopen' : closesText kind (c :: tail) = false := by
        rw [Bool.eq_false_iff] at hopen ⊢
        exact fun hclosed => hopen (closesText_append hclosed y)
      obtain ⟨hends, hmarker⟩ := Bool.or_eq_false_iff.1 hopen'
      rcases hstep with ⟨more, heq, hdoubled, hstep⟩ |
        ⟨rfl, hk, ⟨e, taken, hescape, hstep⟩ | ⟨hescape, hstep⟩⟩ | ⟨hdoubled, hplain, hstep⟩
      all_goals
        rw [List.cons_append, hstep] at h
        obtain ⟨rfl, hread⟩ := Prod.mk.inj h
      · -- a doubled marker lies within the excerpt
        obtain ⟨left, rfl, -⟩ := hwithin (by rw [heq]; exact List.suffix_append [c, '{'] more)
          hread
        obtain rfl := excerpt_eq [c, '{'] heq
        refine spanLiteral_doubled (startsDoubled_cons hdoubled) hends
          (ih ?_ ?_ (Prod.ext rfl hread))
        all_goals simp at hn hn' ⊢; omega
      · -- and so does an escape
        obtain ⟨left, hleft, hsuffix⟩ := hwithin (List.drop_suffix taken _) hread
        have hlen := congrArg List.length hleft
        have htaken := (escape?_taken hescape).2
        simp only [List.length_drop, List.length_append] at hlen htaken
        replace htaken : taken ≤ tail.length := by omega
        rw [List.drop_append_of_le_length htaken] at hleft hread ⊢
        obtain rfl := List.append_cancel_right hleft
        refine spanLiteral_escaped hends hk (escape?_excerpt hescape htaken)
          (ih ?_ ?_ (Prod.ext rfl hread))
        all_goals simp at hn hn' ⊢; omega
      · -- a bad escape is dropped
        have hdrop : tail.drop 1 = rest := by
          cases tail with
          | nil =>
            have hlen := congrArg List.length hread
            simp only [List.length_drop, List.length_append, List.nil_append] at hlen
            exact (List.length_eq_zero_iff.1 (by omega)).symm
          | cons d tail => exact List.append_cancel_right hread
        rw [spanLiteral_dropped hends hk (escape?_eq_none hescape), hdrop]
      · have hdoubled' : startsDoubled (c :: tail) = false := by
          rw [Bool.eq_false_iff] at hdoubled ⊢
          exact fun h => hdoubled (startsDoubled_append h y)
        exact spanLiteral_plain hends hmarker hdoubled' hplain
          (ih (by simp at hn ⊢; omega) (by omega) (Prod.ext rfl hread))

theorem literal_eq_ok {text : List Char} (h : literal kind cs = .ok (text, rest)) :
    text ≠ [] ∧ spanLiteral kind cs.length cs = (text, rest) := by
  rw [literal] at h
  split at h
  · cases h
  · split at h
    · cases h
    · next hne hspan =>
      cases h
      exact ⟨hne, hspan⟩

/-- Text that starts with a bad escape holds none. -/
theorem literal_ok {text : List Char} (hne : text ≠ [])
    (h : spanLiteral kind cs.length cs = (text, rest)) : literal kind cs = .ok (text, rest) := by
  have hgood : ¬ (TextKind.hasEscapes kind && startsBadEscape cs) = true := by
    intro hbad
    obtain ⟨hk, hbad⟩ := Bool.and_eq_true_iff.1 hbad
    unfold startsBadEscape at hbad
    split at hbad
    · next tail _ =>
      have hnothing : spanLiteral kind ('\\' :: tail).length ('\\' :: tail) =
          ([], if TextKind.ends kind ('\\' :: tail) then '\\' :: tail else tail.drop 1) := by
        split
        · next hends => exact spanLiteral_ends hends _
        · next hends =>
          exact spanLiteral_dropped (by simpa using hends) hk (Option.isNone_iff_eq_none.1 hbad)
      rw [hnothing] at h
      exact hne (Prod.mk.inj h).1.symm
    · cases hbad
  rw [literal, if_neg hgood, h]
  split
  · next heq => exact absurd (Prod.mk.inj heq).1 hne
  · next heq =>
    cases heq
    rfl

/-- Where literal text is closed, there is none. -/
theorem literal_closed (h : closesText kind cs = true) : literal kind cs = .error .absent := by
  rw [literal, spanLiteral_closed h]
  split <;> rfl

/-- What follows literal text settles where it ends. -/
def TextSettled (y : List Char) (kind : TextKind) (rest : List Char) : Prop :=
  closesText kind (rest ++ y) = true → closesText kind rest = true ∨ rest = []

theorem alone_literal (kind : TextKind) :
    Alone y k (TextSettled y kind) (literal kind) (literal kind) := by
  intro cs rest text _ _ h hrest
  obtain ⟨hne, hspan⟩ := literal_eq_ok h
  exact literal_ok hne (spanLiteral_alone (Nat.le_refl _) (Nat.le_refl _) hspan hrest)

/-! ## Numbers -/

open Number Decimal

/-- A text that goes on with no name and no number. -/
structure Calm (y : List Char) : Prop where
  name : EndsName y
  plus : y.head? ≠ some '+'
  point : ∀ tail, y = '.' :: tail → tail.head? = some '.'

theorem Calm.nil : Calm [] := ⟨nofun, nofun, nofun⟩

theorem Calm.not_digit (hy : Calm y) : ∀ c ∈ y.head?, c.isDigit = false := by
  intro c hc
  have hname := hy.name c hc
  simp only [Text.isIdentifierContinue, Bool.or_eq_false_iff] at hname
  exact hname.1.1.2

/-! In front of a calm text, each part of a number is what it is at the end of the text. -/

section Calm

variable (hy : Calm y) (cs : List Char)

include hy

theorem spanDigits_calm : spanDigits (cs ++ y) = ((spanDigits cs).1, (spanDigits cs).2 ++ y) :=
  spanDigits_extend rfl hy.not_digit

theorem spanSign_calm : spanSign (cs ++ y) = ((spanSign cs).1, (spanSign cs).2 ++ y) := by
  cases cs with
  | nil =>
    have hplus : ∀ r, y = '+' :: r → False := fun r hr => hy.plus (by rw [hr]; rfl)
    have hminus : ∀ r, y = '-' :: r → False := fun r hr =>
      absurd (hy.name '-' (by rw [hr]; rfl)) (by decide)
    rw [List.nil_append, spanSign.eq_3 y hplus hminus]
    rfl
  | cons c tail => exact spanSign_append (List.cons_ne_nil c tail) y

theorem readPower?_calm :
    readPower? (cs ++ y) = (readPower? cs).map fun (p, rest) => (p, rest ++ y) := by
  cases cs with
  | nil =>
    refine readPower?.eq_7 _ (fun tail heq => ?_) (fun tail heq => ?_)
    · exact absurd (hy.name 'e' (by rw [← List.nil_append y, heq]; rfl)) (by decide)
    · exact absurd (hy.name 'E' (by rw [← List.nil_append y, heq]; rfl)) (by decide)
  | cons c tail =>
    by_cases hc : c = 'e' ∨ c = 'E'
    · rw [List.cons_append, readPower?_eq hc, readPower?_eq hc, spanSign_calm hy,
        spanDigits_calm hy]
      rcases spanDigits (spanSign tail).2 with ⟨_ | ⟨d, ds⟩, more⟩ <;> rfl
    · have hnone : ∀ r, readPower? (c :: r) = none := fun r =>
        readPower?.eq_7 _ (fun _ hr => hc (.inl (List.cons.inj hr).1))
          fun _ hr => hc (.inr (List.cons.inj hr).1)
      rw [List.cons_append, hnone, hnone]
      rfl

theorem spanPower_calm : spanPower (cs ++ y) = ((spanPower cs).1, (spanPower cs).2 ++ y) := by
  rw [spanPower, spanPower, readPower?_calm hy]
  cases readPower? cs <;> rfl

theorem readUnsigned?_calm :
    readUnsigned? (cs ++ y) = (readUnsigned? cs).map fun (n, rest) => (n, rest ++ y) := by
  rw [readUnsigned?_eq, readUnsigned?_eq, spanDigits_calm hy]
  rcases spanDigits cs with ⟨_ | ⟨d, ds⟩, after⟩
  · rfl
  · dsimp only
    rw [spanFraction_append after hy.not_digit hy.point, spanPower_calm hy]
    dsimp only
    cases ofDecimal? (d :: ds) (spanFraction after).1 (spanPower (spanFraction after).2).1 with
    | some n => rfl
    | none => cases ofDecimal? (d :: ds) none none <;> rfl

/-- **A number is read alone** in front of a text that goes on with none. -/
theorem readUnsigned?_alone {n : Number} {left : List Char}
    (h : readUnsigned? (cs ++ y) = some (n, left)) :
    ∃ rest, left = rest ++ y ∧ readUnsigned? cs = some (n, rest) := by
  rw [readUnsigned?_calm hy] at h
  obtain ⟨⟨m, rest⟩, hread, hshift⟩ := Option.map_eq_some_iff.1 h
  cases hshift
  exact ⟨rest, rfl, hread⟩

end Calm

theorem consumed_excerpt : consumed (cs ++ y) (rest ++ y) = consumed cs rest := by
  rw [consumed, consumed, List.length_append, List.length_append, Nat.add_sub_add_right,
    List.take_append_of_le_length (Nat.sub_le _ _)]

theorem alone_numberLiteral (hy : Calm y) : Alone y k Anywhere numberLiteral numberLiteral := by
  intro cs rest e _ _ h _
  obtain ⟨⟨n, left⟩, hread, heq⟩ := Option.map_eq_some_iff.1 (ofOption_eq_ok h)
  obtain ⟨more, rfl, halone⟩ := readUnsigned?_alone hy cs hread
  obtain ⟨rfl, hrest⟩ := Prod.mk.inj heq
  obtain rfl := List.append_cancel_right hrest
  rw [consumed_excerpt, numberLiteral, ofOption, halone]
  rfl

theorem alone_negativeLiteral (hy : Calm y) :
    Alone y k Anywhere negativeLiteral negativeLiteral := by
  intro cs rest e _ hfilled h _
  obtain ⟨_, _, hahead, h⟩ := bind_eq_ok h
  cases hahead
  obtain ⟨_, c₁, hchar, h⟩ := bind_eq_ok h
  obtain ⟨t, c₂, hblank, h⟩ := bind_eq_ok h
  obtain ⟨⟨n, _⟩, c₃, hnumber, h⟩ := bind_eq_ok h
  obtain ⟨rfl, rfl⟩ := pure_eq_ok h
  obtain ⟨⟨m, left⟩, hread, heq⟩ := Option.map_eq_some_iff.1 (ofOption_eq_ok hnumber)
  cases heq
  have hleft : rest ++ y <:+ c₂ := suffix_readUnsigned? c₂ _ hread
  obtain ⟨digits, rfl, hdigits⟩ := suffix_between (Consumes.blank.leaves hblank |>.trans
    ((Consumes.char '-').leaves hchar)) hleft
  obtain ⟨more, hmore, hread⟩ := readUnsigned?_alone hy digits hread
  obtain rfl := List.append_cancel_right hmore
  obtain ⟨d, ds, rfl, hd⟩ := readUnsigned?_start hread
  obtain ⟨minus, rfl, hminus⟩ := suffix_between ((Consumes.char '-').leaves hchar)
    (Consumes.blank.leaves hblank)
  have hends : Ends false (d :: ds) := ends_of_startsToken (startsToken_of_isDigit hd) false ds
  have hblank := alone_blank (Nat.lt_succ_self _) (hfilled.suffix hminus) hblank hends
  have hchar := alone_char '-' (Nat.lt_succ_self _) hfilled hchar trivial
  rw [negativeLiteral, bind_ok (a := cs) rfl, bind_ok hchar, bind_ok hblank, bind_apply,
    ofOption, hread, Option.map_some]
  simp only [pure_apply, consumed_excerpt]

/-- Where a minus sign is no part of a number, it is none alone. -/
theorem negativeLiteral_absent (hy : Calm y) {t : Trivia}
    (hblank : blank (cs ++ y) = .ok (t, mid ++ y)) (hends : Ends false mid)
    (h : negativeLiteral ('-' :: (cs ++ y)) = .error .absent) :
    negativeLiteral ('-' :: cs) = .error .absent := by
  obtain ⟨hcs, -, hskips⟩ := blank_eq_ok hblank
  have hunread : readUnsigned? mid = none := by
    cases hread : readUnsigned? mid with
    | none => rfl
    | some found =>
      have hlong := readUnsigned?_calm hy mid
      rw [hread] at hlong
      rw [negativeLiteral, bind_ok (a := '-' :: (cs ++ y)) rfl, bind_ok (char_self _ _),
        bind_ok hblank, bind_apply, ofOption, hlong] at h
      cases h
  rw [excerpt_eq _ hcs, negativeLiteral, bind_ok (a := '-' :: (t ++ mid)) rfl,
    bind_ok (char_self _ _), bind_ok (hskips.blank hends), bind_apply, ofOption, hunread]
  rfl

end HclOverlay.Hcl.Reader
