import HclOverlay.Hcl.Quoted
import HclOverlay.Proofs.Reading.Trivia

/-!
# Reading escaped text again

What an escape does to literal text, the reader undoes. Escaping works on the characters one after
the other, but whether a `$` or `%` is doubled depends on the character after it, and the reader
looks at up to three characters; the lemmas here say that what is looked at agrees.

* `spanLiteral_plain` and its companions — one step of the reader on each kind of text.
* `spanLiteral_escape`, `quotedText_quote` — rendered strings are read back.
-/

namespace HclOverlay.Hcl.Reader

open Quoted

/-! ## Steps of the reader -/

/-- Whether the text starts with a doubled marker. -/
def startsDoubled : List Char → Bool
  | '$' :: '$' :: '{' :: _ | '%' :: '%' :: '{' :: _ => true
  | _ => false

variable {kind : TextKind} {rest : List Char}

theorem spanLiteral_ends (h : TextKind.ends kind rest = true) (n : Nat) :
    spanLiteral kind n rest = ([], rest) := by
  cases n with
  | zero => rfl
  | succ n =>
    cases rest with
    | nil => rfl
    | cons c rest =>
      unfold spanLiteral
      rw [if_pos h]

theorem spanLiteral_plain {c : Char} {n : Nat} {more left : List Char}
    (hends : TextKind.ends kind (c :: rest) = false) (hm : startsMarker (c :: rest) = false)
    (hd : startsDoubled (c :: rest) = false) (hb : c = '\\' → TextKind.hasEscapes kind = false)
    (h : spanLiteral kind n rest = (more, left)) :
    spanLiteral kind (n + 1) (c :: rest) = (c :: more, left) := by
  unfold spanLiteral
  rw [if_neg (by simp [hends])]
  split
  · simp [startsMarker] at hm
  · simp [startsMarker] at hm
  · simp [startsDoubled] at hd
  · simp [startsDoubled] at hd
  · rw [if_neg (by simp [hb rfl]), h]
  · rw [h]

theorem spanLiteral_doubled {s : Char} {n : Nat} {more left : List Char} (hs : s = '$' ∨ s = '%')
    (hends : TextKind.ends kind (s :: s :: '{' :: rest) = false)
    (h : spanLiteral kind n rest = (more, left)) :
    spanLiteral kind (n + 1) (s :: s :: '{' :: rest) = (s :: '{' :: more, left) := by
  unfold spanLiteral
  rw [if_neg (by simp [hends])]
  rcases hs with rfl | rfl <;> simp only [h]

theorem spanLiteral_escaped {e : Char} {taken n : Nat} {more left : List Char}
    (hends : TextKind.ends kind ('\\' :: rest) = false) (hk : TextKind.hasEscapes kind = true)
    (he : escape? rest = some (e, taken))
    (h : spanLiteral kind n (rest.drop taken) = (more, left)) :
    spanLiteral kind (n + 1) ('\\' :: rest) = (e :: more, left) := by
  unfold spanLiteral
  rw [if_neg (by simp [hends])]
  simp only [hk, if_true, he, h]

/-! ## Rendered strings -/

/-- The escape of a character is a backslash with what stands for it, or the character itself. -/
theorem escapeChar_cases (c : Char) :
    (∃ e, escapeChar c = ['\\', e] ∧ ∀ rest, escape? (e :: rest) = some (c, 1)) ∨
      (escapeChar c = [c] ∧ c ≠ '\\' ∧ c ≠ '"') := by
  unfold escapeChar
  split
  · exact .inl ⟨_, rfl, fun _ => rfl⟩
  · exact .inl ⟨_, rfl, fun _ => rfl⟩
  · exact .inl ⟨_, rfl, fun _ => rfl⟩
  · exact .inl ⟨_, rfl, fun _ => rfl⟩
  · exact .inl ⟨_, rfl, fun _ => rfl⟩
  · next hslash hquote _ _ _ => exact .inr ⟨rfl, hslash, hquote⟩

/-- Escaped text starts with a brace only if the text does. -/
theorem escape_brace {cs tail more : List Char}
    (h : escape cs ++ '"' :: tail = '{' :: more) : ∃ rest, cs = '{' :: rest := by
  fun_cases escape cs with
  | case1 => simp [escape] at h
  | case2 rest => simp [escape] at h
  | case3 rest => simp [escape] at h
  | case4 c rest h₁ h₂ =>
    rw [escape.eq_4 c rest h₁ h₂] at h
    rcases escapeChar_cases c with ⟨e, he, -⟩ | ⟨he, -, -⟩ <;> rw [he] at h
    · simp at h
    · exact ⟨rest, by rw [(List.cons.inj h).1]⟩

/-- Escaped text does not start with a marker. -/
theorem startsMarker_escape (cs tail : List Char) :
    startsMarker (escape cs ++ '"' :: tail) = false := by
  fun_cases escape cs with
  | case1 => rfl
  | case2 rest => rfl
  | case3 rest => rfl
  | case4 c rest h₁ h₂ =>
    rcases escapeChar_cases c with ⟨e, he, -⟩ | ⟨he, -, -⟩ <;> rw [he]
    · rfl
    · rw [Bool.eq_false_iff]
      intro h
      unfold startsMarker at h
      split at h
      · next more heq =>
        obtain ⟨r, hr⟩ := escape_brace (List.cons.inj heq).2
        exact h₁ r (List.cons.inj heq).1 hr
      · next more heq =>
        obtain ⟨r, hr⟩ := escape_brace (List.cons.inj heq).2
        exact h₂ r (List.cons.inj heq).1 hr
      · cases h

/-- A doubled marker holds a marker behind its first character. -/
theorem startsDoubled_of_not_startsMarker {c : Char} (h : startsMarker rest = false) :
    startsDoubled (c :: rest) = false := by
  rw [Bool.eq_false_iff] at h ⊢
  intro hd
  refine h ?_
  unfold startsDoubled at hd
  split at hd
  · next heq =>
    rw [(List.cons.inj heq).2]
    rfl
  · next heq =>
    rw [(List.cons.inj heq).2]
    rfl
  · cases hd

/-- **A rendered string is read back** up to its closing quote. -/
theorem spanLiteral_escape (cs tail : List Char) {n : Nat}
    (h : (escape cs ++ '"' :: tail).length ≤ n) :
    spanLiteral .quoted n (escape cs ++ '"' :: tail) = (cs, '"' :: tail) := by
  fun_induction escape cs generalizing n with
  | case1 => exact spanLiteral_ends rfl n
  | case2 rest ih =>
    obtain ⟨n, rfl⟩ := Nat.exists_eq_add_of_le' (show 1 ≤ n by simp at h; omega)
    exact spanLiteral_doubled (.inl rfl) rfl (ih (by simp at h ⊢; omega))
  | case3 rest ih =>
    obtain ⟨n, rfl⟩ := Nat.exists_eq_add_of_le' (show 1 ≤ n by simp at h; omega)
    exact spanLiteral_doubled (.inr rfl) rfl (ih (by simp at h ⊢; omega))
  | case4 c rest h₁ h₂ ih =>
    have hmark := startsMarker_escape (c :: rest) tail
    rw [escape.eq_4 c rest h₁ h₂] at hmark
    rcases escapeChar_cases c with ⟨e, he, hback⟩ | ⟨he, hslash, hquote⟩ <;> rw [he] at h hmark ⊢
    all_goals obtain ⟨n, rfl⟩ := Nat.exists_eq_add_of_le' (show 1 ≤ n by simp at h; omega)
    · exact spanLiteral_escaped rfl rfl (hback _) (ih (by simp at h ⊢; omega))
    · exact spanLiteral_plain (by simpa [TextKind.ends] using hquote) hmark
        (startsDoubled_of_not_startsMarker (startsMarker_escape rest tail))
        (fun hc => absurd hc hslash) (ih (by simp at h ⊢; omega))

theorem startsBadEscape_of_ne {c : Char} (h : c ≠ '\\') : startsBadEscape (c :: rest) = false := by
  unfold startsBadEscape
  split
  · next heq => exact absurd (List.cons.inj heq).1 h
  · rfl

theorem startsBadEscape_escape (cs tail : List Char) :
    startsBadEscape (escape cs ++ '"' :: tail) = false := by
  fun_cases escape cs with
  | case1 => rfl
  | case2 rest => rfl
  | case3 rest => rfl
  | case4 c rest h₁ h₂ =>
    rcases escapeChar_cases c with ⟨e, he, hback⟩ | ⟨he, hslash, -⟩ <;> rw [he]
    · exact congrArg Option.isNone (hback (escape rest ++ '"' :: tail))
    · exact startsBadEscape_of_ne hslash

/-- A rendered string is read back. -/
theorem quotedText_quote (cs rest : List Char) :
    quotedText (quote cs ++ rest) = .ok (String.ofList cs, rest) := by
  have hopt : opt (literal .quoted) (escape cs ++ '"' :: rest) =
      .ok (if cs = [] then none else some cs, '"' :: rest) := by
    rw [opt, literal, startsBadEscape_escape, Bool.and_false, if_neg Bool.false_ne_true,
      spanLiteral_escape cs rest (Nat.le_refl _)]
    cases cs with
    | nil => rfl
    | cons c cs => rfl
  have htext : quote cs ++ rest = '"' :: (escape cs ++ '"' :: rest) := by simp [quote]
  rw [htext, quotedText, bind_ok (char_self _ _), bind_ok hopt, bind_ok (char_self _ _)]
  cases cs <;> rfl

end HclOverlay.Hcl.Reader
