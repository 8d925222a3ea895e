import HclOverlay.Module.File
import HclOverlay.Proofs.Reading.Trivia

/-!
# Line ends

The text of a file whose lines all ended in carriage return and line feed gets these line ends back
when it is printed. What matters for reading it again is only that the change goes on piece by piece
and leaves alone everything but line ends, so that trivia stays trivia.

* `ChangesEnds` — such a change of a text.
* `changesEnds_id`, `changesEnds_restoreReturns` — the two that printing makes.
-/

namespace HclOverlay.Hcl

open Reader

/-- A change of a text that touches nothing but its line ends. -/
structure ChangesEnds (conv : List Char → List Char) : Prop where
  nil : conv [] = []
  /-- pieces are changed on their own, unless a line end is cut in two -/
  append : ∀ x y, (x.getLast? = some '\r' → y.head? ≠ some '\n') → conv (x ++ y) = conv x ++ conv y
  same : ∀ x, '\n' ∉ x → conv x = x
  line : ∀ y, conv ('\n' :: y) = '\n' :: conv y ∨ conv ('\n' :: y) = '\r' :: '\n' :: conv y
  length_le : ∀ c y, (conv y).length ≤ (conv (c :: y)).length
  skips : ∀ {newlines t}, Skips newlines t → Skips newlines (conv t)

/-! ## Pieces of a text -/

/-- An inline comment ends in a slash. -/
theorem closeComment?_getLast? {cs body rest : List Char}
    (h : closeComment? cs = some (body, rest)) : body.getLast? = some '/' := by
  fun_induction closeComment? cs generalizing body with
  | case1 => cases h
  | case2 =>
    cases h
    rfl
  | case3 c tail hne ih =>
    obtain ⟨⟨inner, left⟩, hin, hb⟩ := Option.map_eq_some_iff.1 h
    cases hb
    rw [List.getLast?_cons, ih hin]
    rfl

theorem inlineComment?_getLast? {cs body rest : List Char}
    (h : inlineComment? cs = some (body, rest)) : body.getLast? = some '/' := by
  unfold inlineComment? at h
  split at h
  · obtain ⟨⟨inner, left⟩, hin, hb⟩ := Option.map_eq_some_iff.1 h
    cases hb
    rw [List.getLast?_cons, List.getLast?_cons, closeComment?_getLast? hin]
    rfl
  · cases h

theorem Reader.Skips.getLast?_ne {t : Trivia} (h : Skips false t) : t.getLast? ≠ some '\r' := by
  induction h with
  | nil => nofun
  | @skip c t hc _ ih =>
    cases t with
    | nil =>
      intro hlast
      obtain rfl : c = '\r' := Option.some.inj hlast
      cases hc
    | cons d t => rwa [List.getLast?_cons_cons]
  | @comment body t hbody _ ih =>
    rw [List.getLast?_append]
    cases hlast : t.getLast? with
    | none => simp [inlineComment?_getLast? hbody]
    | some c => simpa [hlast] using ih
  | line hnewlines => cases hnewlines

namespace ChangesEnds

variable {conv : List Char → List Char}

theorem cons (h : ChangesEnds conv) {c : Char} (hn : c ≠ '\n') (hr : c ≠ '\r') (y : List Char) :
    conv (c :: y) = c :: conv y := by
  have happend := h.append [c] y (by simp [hr])
  rwa [h.same [c] (by simpa using Ne.symm hn)] at happend

/-- Text without line ends stays as it is. -/
theorem token (h : ChangesEnds conv) {x : List Char} (hn : '\n' ∉ x) (hr : '\r' ∉ x)
    (y : List Char) : conv (x ++ y) = x ++ conv y := by
  rw [h.append x y fun hlast => absurd (List.mem_of_getLast? hlast) hr, h.same x hn]

theorem blanks (h : ChangesEnds conv) {t : Trivia} (ht : Skips false t) (y : List Char) :
    conv (t ++ y) = conv t ++ conv y :=
  h.append t y fun hlast => absurd hlast ht.getLast?_ne

theorem white (h : ChangesEnds conv) (t : Trivia) {y : List Char} (hy : y.head? ≠ some '\n') :
    conv (t ++ y) = conv t ++ conv y :=
  h.append t y fun _ => hy

theorem comment (h : ChangesEnds conv) (t : Trivia) {body : Trivia}
    (hbody : lineComment? body = some (body, [])) : conv (t ++ body) = conv t ++ body := by
  obtain ⟨hn, -⟩ := lineComment?_chars hbody
  rw [h.white t fun hhead => hn (List.mem_of_mem_head? hhead), h.same body hn]

theorem tails (h : ChangesEnds conv) {newlines : Bool} {t : Trivia} (ht : Tails newlines t) :
    Tails newlines (conv t) := by
  cases ht with
  | trivia ht => exact .trivia (h.skips ht)
  | @comment t body ht hbody =>
    rw [h.comment t hbody]
    exact .comment (h.skips ht) hbody

/-- The end of a line is a piece of its own. -/
theorem tail_append (h : ChangesEnds conv) {t : Trivia} (ht : Tails false t) (y : List Char) :
    conv (t ++ y) = conv t ++ conv y := by
  cases ht with
  | trivia ht => exact h.blanks ht y
  | @comment t body ht hbody =>
    obtain ⟨hn, hr⟩ := lineComment?_chars hbody
    have hhead : (body ++ y).head? ≠ some '\n' := by
      cases body with
      | nil => cases hbody
      | cons c body =>
        intro hc
        exact hn (Option.some.inj hc ▸ List.mem_cons_self)
    rw [List.append_assoc, h.white t hhead, h.token hn hr, h.comment t hbody, List.append_assoc]

theorem lineEnd (h : ChangesEnds conv) (y : List Char) :
    ∃ eol, lineEnd (conv ('\n' :: y)) = .ok (eol, conv y) := by
  rcases h.line y with heq | heq <;> rw [heq] <;> exact ⟨_, rfl⟩

theorem startsLine (h : ChangesEnds conv) (y : List Char) :
    startsLine (conv ('\n' :: y)) = true := by
  rcases h.line y with heq | heq <;> rw [heq] <;> rfl

theorem length_append_le (h : ChangesEnds conv) (x y : List Char) :
    (conv y).length ≤ (conv (x ++ y)).length := by
  induction x with
  | nil => exact Nat.le_refl _
  | cons c x ih => exact Nat.le_trans ih (h.length_le c (x ++ y))

theorem length_line_lt (h : ChangesEnds conv) (y : List Char) :
    (conv y).length < (conv ('\n' :: y)).length := by
  rcases h.line y with heq | heq <;> rw [heq, List.length_cons]
  · exact Nat.lt_succ_self _
  · rw [List.length_cons]
    omega

/-- The first character stays unless it belongs to a line end. -/
theorem head? (h : ChangesEnds conv) {y : List Char} {c : Char} (hc : y.head? = some c)
    (hn : c ≠ '\n') (hr : c ≠ '\r') : (conv y).head? = some c := by
  cases y with
  | nil => cases hc
  | cons d y =>
    obtain rfl := Option.some.inj hc
    rw [h.cons hn hr]
    rfl

end ChangesEnds

/-! ## The text as it is -/

theorem changesEnds_id : ChangesEnds id where
  nil := rfl
  append _ _ _ := rfl
  same _ _ := rfl
  line _ := .inl rfl
  length_le _ y := Nat.le_succ y.length
  skips h := h

/-! ## Restoring carriage returns -/

/-- Puts a carriage return before every line feed that has none. -/
def restoreReturns (cs : List Char) : List Char :=
  ModuleFile.addCarriageReturns (ModuleFile.dropCarriageReturns cs)

theorem restoreReturns_line (y : List Char) :
    restoreReturns ('\n' :: y) = '\r' :: '\n' :: restoreReturns y := rfl

theorem restoreReturns_return_line (y : List Char) :
    restoreReturns ('\r' :: '\n' :: y) = '\r' :: '\n' :: restoreReturns y := rfl

theorem restoreReturns_cons {c : Char} {y : List Char} (hc : c ≠ '\n')
    (hy : c = '\r' → y.head? ≠ some '\n') :
    restoreReturns (c :: y) = c :: restoreReturns y := by
  have hdrop : ModuleFile.dropCarriageReturns (c :: y) = c :: ModuleFile.dropCarriageReturns y := by
    refine ModuleFile.dropCarriageReturns.eq_3 c y fun rest hreturn hline => ?_
    exact hy hreturn (by rw [hline]; rfl)
  rw [restoreReturns, hdrop, ModuleFile.addCarriageReturns, List.flatMap_cons,
    if_neg (by simpa using hc)]
  rfl

/-- What becomes of the first character: it starts a line end, it is dropped to be put back, or it
stays. -/
theorem restoreReturns_cases (c : Char) (y : List Char) :
    (c = '\n' ∧ restoreReturns (c :: y) = '\r' :: '\n' :: restoreReturns y) ∨
      (c = '\r' ∧ y.head? = some '\n' ∧ restoreReturns (c :: y) = restoreReturns y) ∨
      (c ≠ '\n' ∧ restoreReturns (c :: y) = c :: restoreReturns y) := by
  by_cases hline : c = '\n'
  · subst hline
    exact .inl ⟨rfl, restoreReturns_line y⟩
  · by_cases hreturn : c = '\r' ∧ y.head? = some '\n'
    · obtain ⟨rfl, hd⟩ := hreturn
      cases y with
      | nil => cases hd
      | cons d y =>
        obtain rfl := Option.some.inj hd
        exact .inr (.inl ⟨rfl, rfl, rfl⟩)
    · exact .inr (.inr ⟨hline, restoreReturns_cons hline fun hr hd => hreturn ⟨hr, hd⟩⟩)

theorem restoreReturns_append (x y : List Char)
    (h : x.getLast? = some '\r' → y.head? ≠ some '\n') :
    restoreReturns (x ++ y) = restoreReturns x ++ restoreReturns y := by
  fun_induction ModuleFile.dropCarriageReturns x with
  | case1 => rfl
  | case2 rest ih =>
    have hrest := ih fun hlast => h (by simp [List.getLast?_cons, hlast])
    rw [List.cons_append, List.cons_append, restoreReturns_return_line, hrest,
      restoreReturns_return_line, List.cons_append, List.cons_append]
  | case3 c rest hc ih =>
    have hrest := ih fun hlast => h (by simp [List.getLast?_cons, hlast])
    by_cases hline : c = '\n'
    · subst hline
      rw [List.cons_append, restoreReturns_line, hrest, restoreReturns_line, List.cons_append,
        List.cons_append]
    · have hhead : c = '\r' → (rest ++ y).head? ≠ some '\n' := by
        rintro rfl
        cases rest with
        | nil => exact h rfl
        | cons d rest =>
          intro hd
          exact hc rest rfl (by rw [Option.some.inj hd])
      have hhead' : c = '\r' → rest.head? ≠ some '\n' := by
        rintro rfl hd
        cases rest with
        | nil => cases hd
        | cons d rest => exact hc rest rfl (by rw [Option.some.inj hd])
      rw [List.cons_append, restoreReturns_cons hline hhead, hrest,
        restoreReturns_cons hline hhead', List.cons_append]

theorem restoreReturns_same (x : List Char) (h : '\n' ∉ x) : restoreReturns x = x := by
  induction x with
  | nil => rfl
  | cons c x ih =>
    rw [List.mem_cons, not_or] at h
    rw [restoreReturns_cons (Ne.symm h.1), ih h.2]
    intro _ hd
    exact h.2 (List.mem_of_mem_head? hd)

/-- The first character stays as it is unless it belongs to a line end. -/
theorem head?_restoreReturns {y : List Char} {c : Char} (h : (restoreReturns y).head? = some c)
    (hc : c ≠ '\r') : y.head? = some c := by
  cases y with
  | nil => cases h
  | cons d y =>
    rcases restoreReturns_cases d y with ⟨-, heq⟩ | ⟨-, hd, heq⟩ | ⟨-, heq⟩
    · rw [heq] at h
      exact absurd (Option.some.inj h).symm hc
    · cases y with
      | nil => cases hd
      | cons e y =>
        obtain rfl := Option.some.inj hd
        rw [heq, restoreReturns_line] at h
        exact absurd (Option.some.inj h).symm hc
    · rw [heq] at h
      exact h

theorem closeComment?_cons {c : Char} (hc : c ≠ '*') (rest : List Char) :
    closeComment? (c :: rest) = (closeComment? rest).map fun (body, rest) => (c :: body, rest) :=
  closeComment?.eq_3 c rest fun _ h _ => hc h

theorem closeComment?_restoreReturns {cs body rest : List Char}
    (h : closeComment? cs = some (body, rest)) :
    closeComment? (restoreReturns body) = some (restoreReturns body, []) := by
  fun_induction closeComment? cs generalizing body with
  | case1 => cases h
  | case2 =>
    cases h
    rfl
  | case3 c tail hne ih =>
    obtain ⟨⟨inner, left⟩, hin, hb⟩ := Option.map_eq_some_iff.1 h
    cases hb
    have hinner := ih hin
    rcases restoreReturns_cases c inner with ⟨rfl, heq⟩ | ⟨-, -, heq⟩ | ⟨-, heq⟩
    · have hline : closeComment? ('\n' :: restoreReturns inner) =
          some ('\n' :: restoreReturns inner, []) := by
        rw [closeComment?_cons (by decide), hinner, Option.map_some]
      rw [heq, closeComment?_cons (by decide), hline, Option.map_some]
    · rw [heq]
      exact hinner
    · rw [heq, closeComment?.eq_3, hinner, Option.map_some]
      -- no comment ends at the first character, since none did before
      intro more hstar hmore
      have htail := (closeComment?_eq_some hin).1
      have hhead : inner.head? = some '/' :=
        head?_restoreReturns (by rw [hmore]; rfl) (by decide)
      cases inner with
      | nil => cases hhead
      | cons e inner =>
        obtain rfl := Option.some.inj hhead
        exact hne (inner ++ rest) hstar (by rw [htail]; rfl)

theorem inlineComment?_restoreReturns {body : List Char}
    (h : inlineComment? body = some (body, [])) :
    inlineComment? (restoreReturns body) = some (restoreReturns body, []) := by
  unfold inlineComment? at h
  split at h
  · obtain ⟨⟨inner, left⟩, hin, hb⟩ := Option.map_eq_some_iff.1 h
    cases hb
    rw [restoreReturns_cons (by decide) fun h => absurd h (by decide),
      restoreReturns_cons (by decide) fun h => absurd h (by decide), inlineComment?,
      closeComment?_restoreReturns hin, Option.map_some]
  · cases h

theorem startsLine_restoreReturns {t : List Char} (h : startsLine t = true) :
    startsLine (restoreReturns t) = true := by
  rcases startsLine_cases h with ⟨rest, rfl⟩ | ⟨rest, rfl⟩ <;> rfl

/-- Trivia stays trivia: a carriage return is added only where line ends are skipped, or inside a
comment. -/
theorem Skips.restoreReturns {newlines : Bool} {t : Trivia} (h : Skips newlines t) :
    Skips newlines (restoreReturns t) := by
  induction h with
  | nil => exact .nil
  | @skip c t hc _ ih =>
    rcases restoreReturns_cases c t with ⟨rfl, heq⟩ | ⟨-, -, heq⟩ | ⟨-, heq⟩ <;> rw [heq]
    · have hreturn : gapSkips newlines '\r' = true := by
        cases newlines with
        | true => rfl
        | false => exact hc
      exact .skip hreturn (.skip hc ih)
    · exact ih
    · exact .skip hc ih
  | @comment body t hbody _ ih =>
    rw [restoreReturns_append body t (by simp [inlineComment?_getLast? hbody])]
    exact .comment (inlineComment?_restoreReturns hbody) ih
  | @line body t hnewlines hbody hline _ ih =>
    obtain ⟨hn, hr⟩ := lineComment?_chars hbody
    rw [restoreReturns_append body t fun hlast => absurd (List.mem_of_getLast? hlast) hr,
      restoreReturns_same body hn]
    exact .line hnewlines hbody (startsLine_restoreReturns hline) ih

theorem length_restoreReturns_le (c : Char) (y : List Char) :
    (restoreReturns y).length ≤ (restoreReturns (c :: y)).length := by
  rcases restoreReturns_cases c y with ⟨-, heq⟩ | ⟨-, -, heq⟩ | ⟨-, heq⟩ <;> rw [heq] <;> simp
  omega

theorem changesEnds_restoreReturns : ChangesEnds restoreReturns where
  nil := rfl
  append := restoreReturns_append
  same := restoreReturns_same
  line y := .inr (restoreReturns_line y)
  length_le := length_restoreReturns_le
  skips h := Skips.restoreReturns h

end HclOverlay.Hcl
