import HclOverlay.Proofs.Reading.Basic

/-!
# Reading trivia again

Trivia is kept as it was read, and what is kept is read again as the same trivia in front of any
text that does not go on with trivia. The one exception is a line comment at the end of the text,
which would run on into what is put behind it.

* `Ends` — a text that does not start with trivia.
* `Skips` — complete trivia, by what it is made of; `Skips.gapSpan_append` — it is read again.
* `gap_eq_ok` — what `blank` and `white` read is trivia, and they stop where none follows.
* `Tails` — trivia that may end in a comment, as behind the last token of a line.
-/

namespace HclOverlay.Hcl.Reader

/-! ## Comments -/

/-- Whether a line end comes first. -/
def startsLine : List Char → Bool
  | '\n' :: _ | '\r' :: '\n' :: _ => true
  | _ => false

/-- A text that starts with a line end is one of two. -/
theorem startsLine_cases {cs : List Char} (h : startsLine cs = true) :
    (∃ rest, cs = '\n' :: rest) ∨ ∃ rest, cs = '\r' :: '\n' :: rest := by
  unfold startsLine at h
  split at h
  · exact .inl ⟨_, rfl⟩
  · exact .inr ⟨_, rfl⟩
  · cases h

theorem startsLine_append {cs : List Char} (h : startsLine cs = true) (rest : List Char) :
    startsLine (cs ++ rest) = true := by
  rcases startsLine_cases h with ⟨tail, rfl⟩ | ⟨tail, rfl⟩ <;> rfl

/-- A text at the end of a line. -/
def AtLineEnd (cs : List Char) : Prop := cs = [] ∨ startsLine cs = true

theorem atLineEnd_nil : AtLineEnd [] := .inl rfl

theorem closeComment?_eq_some {cs body rest : List Char}
    (h : closeComment? cs = some (body, rest)) :
    cs = body ++ rest ∧ ∀ other, closeComment? (body ++ other) = some (body, other) := by
  fun_induction closeComment? cs generalizing body with
  | case1 => cases h
  | case2 tail =>
    cases h
    exact ⟨rfl, fun _ => rfl⟩
  | case3 c tail hne ih =>
    obtain ⟨⟨inner, left⟩, hin, hb⟩ := Option.map_eq_some_iff.1 h
    cases hb
    obtain ⟨rfl, hother⟩ := ih hin
    refine ⟨rfl, fun other => ?_⟩
    rw [List.cons_append, closeComment?.eq_3, hother, Option.map_some]
    -- what comes behind the first character of the comment is as before
    intro r hc hr
    cases inner with
    | nil => exact absurd (hother []) (by simp [closeComment?])
    | cons d inner => exact hne (inner ++ rest) hc (by rw [(List.cons.inj hr).1, List.cons_append])

theorem AtLineEnd.tillLineEnd? {cs : List Char} (h : AtLineEnd cs) :
    tillLineEnd? cs = some ([], cs) := by
  rcases h with rfl | h
  · rfl
  · rcases startsLine_cases h with ⟨rest, rfl⟩ | ⟨rest, rfl⟩ <;> rfl

theorem tillLineEnd?_cons {c : Char} (hn : c ≠ '\n') (hr : c ≠ '\r') (rest : List Char) :
    tillLineEnd? (c :: rest) = (tillLineEnd? rest).map fun (body, rest) => (c :: body, rest) :=
  tillLineEnd?.eq_5 c rest hn (fun _ h _ => hr h) hr

theorem tillLineEnd?_eq_some {cs body rest : List Char}
    (h : tillLineEnd? cs = some (body, rest)) :
    cs = body ++ rest ∧ AtLineEnd rest ∧
      ∀ other, AtLineEnd other → tillLineEnd? (body ++ other) = some (body, other) := by
  fun_induction tillLineEnd? cs generalizing body with
  | case1 =>
    cases h
    exact ⟨rfl, .inl rfl, fun _ => AtLineEnd.tillLineEnd?⟩
  | case2 tail =>
    cases h
    exact ⟨rfl, .inr rfl, fun _ => AtLineEnd.tillLineEnd?⟩
  | case3 tail =>
    cases h
    exact ⟨rfl, .inr rfl, fun _ => AtLineEnd.tillLineEnd?⟩
  | case4 tail hne => cases h
  | case5 c tail hn _ hr ih =>
    obtain ⟨⟨inner, left⟩, hin, hb⟩ := Option.map_eq_some_iff.1 h
    cases hb
    obtain ⟨rfl, hrest, hother⟩ := ih hin
    refine ⟨rfl, hrest, fun other ho => ?_⟩
    rw [List.cons_append, tillLineEnd?_cons hn hr, hother other ho, Option.map_some]

/-- What comes before a line end holds none. -/
theorem tillLineEnd?_chars {cs body rest : List Char} (h : tillLineEnd? cs = some (body, rest)) :
    '\n' ∉ body ∧ '\r' ∉ body := by
  fun_induction tillLineEnd? cs generalizing body with
  | case1 | case2 | case3 =>
    cases h
    simp
  | case4 => cases h
  | case5 c tail hn _ hr ih =>
    obtain ⟨⟨inner, left⟩, hin, hb⟩ := Option.map_eq_some_iff.1 h
    cases hb
    simp [ih hin, Ne.symm (show c ≠ '\n' from hn), Ne.symm (show c ≠ '\r' from hr)]

theorem inlineComment?_eq_some {cs body rest : List Char}
    (h : inlineComment? cs = some (body, rest)) :
    cs = body ++ rest ∧ body ≠ [] ∧
      ∀ other, inlineComment? (body ++ other) = some (body, other) := by
  unfold inlineComment? at h
  split at h
  · obtain ⟨⟨inner, left⟩, hin, hb⟩ := Option.map_eq_some_iff.1 h
    cases hb
    obtain ⟨rfl, hother⟩ := closeComment?_eq_some hin
    refine ⟨rfl, by simp, fun other => ?_⟩
    rw [List.cons_append, List.cons_append, inlineComment?, hother, Option.map_some]
  · cases h

theorem lineComment?_eq_some {cs body rest : List Char}
    (h : lineComment? cs = some (body, rest)) :
    cs = body ++ rest ∧ body ≠ [] ∧ AtLineEnd rest ∧
      ∀ other, AtLineEnd other → lineComment? (body ++ other) = some (body, other) := by
  unfold lineComment? at h
  split at h
  · obtain ⟨⟨inner, left⟩, hin, hb⟩ := Option.map_eq_some_iff.1 h
    cases hb
    obtain ⟨rfl, hrest, hother⟩ := tillLineEnd?_eq_some hin
    refine ⟨rfl, by simp, hrest, fun other ho => ?_⟩
    rw [List.cons_append, lineComment?, hother other ho, Option.map_some]
  · obtain ⟨⟨inner, left⟩, hin, hb⟩ := Option.map_eq_some_iff.1 h
    cases hb
    obtain ⟨rfl, hrest, hother⟩ := tillLineEnd?_eq_some hin
    refine ⟨rfl, by simp, hrest, fun other ho => ?_⟩
    rw [List.cons_append, List.cons_append, lineComment?, hother other ho, Option.map_some]
  · cases h

/-- A comment to the end of a line holds no line end. -/
theorem lineComment?_chars {cs body rest : List Char} (h : lineComment? cs = some (body, rest)) :
    '\n' ∉ body ∧ '\r' ∉ body := by
  unfold lineComment? at h
  split at h
  · obtain ⟨⟨inner, left⟩, hin, hb⟩ := Option.map_eq_some_iff.1 h
    cases hb
    simp [tillLineEnd?_chars hin]
  · obtain ⟨⟨inner, left⟩, hin, hb⟩ := Option.map_eq_some_iff.1 h
    cases hb
    simp [tillLineEnd?_chars hin]
  · cases h

/-- An inline comment is not a line comment. -/
theorem lineComment?_of_inlineComment? {cs : List Char} {r : List Char × List Char}
    (h : inlineComment? cs = some r) : lineComment? cs = none := by
  unfold inlineComment? at h
  split at h
  · rfl
  · cases h

/-! ## Runs of trivia -/

section Runs

variable {skip : Char → Bool} {comment : List Char → Option (List Char × List Char)}

/-- Whether a run of trivia does not go on here. -/
def stops (skip : Char → Bool) (comment : List Char → Option (List Char × List Char)) :
    List Char → Bool
  | [] => true
  | c :: rest => !skip c && (comment (c :: rest)).isNone

theorem spanTrivia_of_stops {rest : List Char} (h : stops skip comment rest = true) (n : Nat) :
    spanTrivia skip comment n rest = ([], rest) := by
  cases n with
  | zero => rfl
  | succ n =>
    cases rest with
    | nil => rfl
    | cons c tail =>
      simp only [stops, Bool.and_eq_true, Bool.not_eq_true', Option.isNone_iff_eq_none] at h
      rw [spanTrivia, if_neg (by simp [h.1]), h.2]

theorem spanTrivia_skip {c : Char} (h : skip c = true) (n : Nat) (tail : List Char) :
    spanTrivia skip comment (n + 1) (c :: tail) =
      (c :: (spanTrivia skip comment n tail).1, (spanTrivia skip comment n tail).2) := by
  rw [spanTrivia, if_pos h]

theorem spanTrivia_comment {c : Char} {tail body rest : List Char} (h : skip c = false)
    (hc : comment (c :: tail) = some (body, rest)) (n : Nat) :
    spanTrivia skip comment (n + 1) (c :: tail) =
      (body ++ (spanTrivia skip comment n rest).1, (spanTrivia skip comment n rest).2) := by
  rw [spanTrivia, if_neg (by simp [h]), hc]

/-- Where line ends are skipped, a run from a line end starts with this line end. -/
theorem startsLine_spanTrivia (hn : skip '\n' = true) (hr : skip '\r' = true) {n : Nat}
    {cs : List Char} (h : startsLine cs = true) (hlen : cs.length ≤ n) :
    startsLine (spanTrivia skip comment n cs).1 = true := by
  rcases startsLine_cases h with ⟨rest, rfl⟩ | ⟨rest, rfl⟩
  · obtain ⟨n, rfl⟩ := Nat.exists_eq_add_of_le' (show 1 ≤ n by simp at hlen; omega)
    rw [spanTrivia_skip hn]
    rfl
  · obtain ⟨n, rfl⟩ := Nat.exists_eq_add_of_le' (show 2 ≤ n by simp at hlen; omega)
    rw [spanTrivia_skip hr, spanTrivia_skip hn]
    rfl

/-- The steps do not matter if there are enough of them. -/
theorem spanTrivia_steps
    (hc : ∀ {cs body rest}, comment cs = some (body, rest) → rest.length < cs.length) {n m : Nat}
    {cs : List Char} (hn : cs.length ≤ n) (hm : cs.length ≤ m) :
    spanTrivia skip comment n cs = spanTrivia skip comment m cs := by
  induction n generalizing m cs with
  | zero =>
    obtain rfl := List.length_eq_zero_iff.1 (Nat.le_zero.1 hn)
    cases m <;> rfl
  | succ n ih =>
    cases cs with
    | nil => cases m <;> rfl
    | cons c tail =>
      obtain ⟨m, rfl⟩ := Nat.exists_eq_add_of_le' (show 1 ≤ m by simp at hm; omega)
      cases hs : skip c with
      | true =>
        have htail := ih (Nat.le_of_succ_le_succ hn) (Nat.le_of_succ_le_succ hm)
        rw [spanTrivia_skip hs, spanTrivia_skip hs, htail]
      | false =>
        cases hb : comment (c :: tail) with
        | none =>
          have hstops : stops skip comment (c :: tail) = true := by simp [stops, hs, hb]
          rw [spanTrivia_of_stops hstops, spanTrivia_of_stops hstops]
        | some r =>
          obtain ⟨body, rest⟩ := r
          have hlen := hc hb
          simp only [List.length_cons] at hlen hn hm
          rw [spanTrivia_comment hs hb, spanTrivia_comment hs hb,
            ih (show rest.length ≤ n by omega) (show rest.length ≤ m by omega)]

end Runs

/-! ## Gaps -/

/-- The characters that a gap skips. -/
def gapSkips (newlines : Bool) : Char → Bool := if newlines then isWhiteChar else isBlankChar

/-- The comments that a gap skips. -/
def gapComment? (newlines : Bool) : List Char → Option (List Char × List Char) :=
  if newlines then comment? else inlineComment?

/-- White space includes blanks. -/
theorem gapSkips_of_isBlankChar {c : Char} (h : isBlankChar c = true) (newlines : Bool) :
    gapSkips newlines c = true := by
  cases newlines with
  | true => simp [gapSkips, isWhiteChar, h]
  | false => exact h

/-- A comment in a gap is an inline comment, or one to the end of a line where line ends are
skipped. -/
theorem gapComment?_eq_some {newlines : Bool} {cs body rest : List Char}
    (h : gapComment? newlines cs = some (body, rest)) :
    inlineComment? cs = some (body, rest) ∨
      (newlines = true ∧ lineComment? cs = some (body, rest)) := by
  cases newlines with
  | false => exact .inl h
  | true =>
    change comment? cs = some (body, rest) at h
    unfold comment? at h
    split at h
    · next hline =>
      cases h
      exact .inr ⟨rfl, hline⟩
    · exact .inl h

theorem gapComment?_of_inline {cs : List Char} {r : List Char × List Char}
    (h : inlineComment? cs = some r) (newlines : Bool) : gapComment? newlines cs = some r := by
  cases newlines with
  | false => exact h
  | true =>
    change comment? cs = some r
    rw [comment?, lineComment?_of_inlineComment? h, h]

theorem gapComment?_of_line {cs : List Char} {r : List Char × List Char}
    (h : lineComment? cs = some r) : gapComment? true cs = some r := by
  change comment? cs = some r
  rw [comment?, h]

theorem gapComment?_length {newlines : Bool} {cs body rest : List Char}
    (h : gapComment? newlines cs = some (body, rest)) : rest.length < cs.length := by
  have hsplit : cs = body ++ rest ∧ body ≠ [] := by
    rcases gapComment?_eq_some h with h | ⟨-, h⟩
    · exact ⟨(inlineComment?_eq_some h).1, (inlineComment?_eq_some h).2.1⟩
    · exact ⟨(lineComment?_eq_some h).1, (lineComment?_eq_some h).2.1⟩
  have hpos := List.length_pos_iff.2 hsplit.2
  rw [hsplit.1, List.length_append]
  omega

/-- No comment starts with a character that is skipped. -/
theorem gapSkips_of_comment {newlines : Bool} {c : Char} {tail : List Char}
    {r : List Char × List Char} (h : comment? (c :: tail) = some r) :
    gapSkips newlines c = false := by
  have hc : c = '/' ∨ c = '#' := by
    unfold comment? lineComment? inlineComment? at h
    split at h
    · next heq =>
      split at heq
      · next hcs => exact .inr (List.cons.inj hcs).1
      · next hcs => exact .inl (List.cons.inj hcs).1
      · cases heq
    · split at h
      · next hcs => exact .inl (List.cons.inj hcs).1
      · cases h
  rcases hc with rfl | rfl <;> cases newlines <;> rfl

/-- What a gap reads from a text, and what it leaves. -/
def gapSpan (newlines : Bool) (cs : List Char) : Trivia × List Char :=
  spanTrivia (gapSkips newlines) (gapComment? newlines) cs.length cs

theorem gap_apply (newlines : Bool) (cs : List Char) :
    gap newlines cs = .ok (gapSpan newlines cs) := by
  cases newlines <;> rfl

theorem gapSpan_eq {newlines : Bool} {n : Nat} {cs : List Char} (h : cs.length ≤ n) :
    spanTrivia (gapSkips newlines) (gapComment? newlines) n cs = gapSpan newlines cs :=
  spanTrivia_steps gapComment?_length h (Nat.le_refl _)

theorem gapSpan_skip {newlines : Bool} {c : Char} (h : gapSkips newlines c = true)
    (tail : List Char) :
    gapSpan newlines (c :: tail) = (c :: (gapSpan newlines tail).1, (gapSpan newlines tail).2) :=
  spanTrivia_skip h _ tail

theorem gapSpan_comment {newlines : Bool} {body rest : List Char} (hbody : body ≠ [])
    (h : gapComment? newlines (body ++ rest) = some (body, rest)) :
    gapSpan newlines (body ++ rest) =
      (body ++ (gapSpan newlines rest).1, (gapSpan newlines rest).2) := by
  cases body with
  | nil => exact absurd rfl hbody
  | cons c body =>
    have hc : comment? (c :: (body ++ rest)) = some (c :: body, rest) := by
      rcases gapComment?_eq_some h with h | ⟨-, h⟩
      · exact gapComment?_of_inline h true
      · exact gapComment?_of_line h
    have hskip : gapSkips newlines c = false := gapSkips_of_comment hc
    have hspan := spanTrivia_comment hskip h (body ++ rest).length
    rwa [gapSpan_eq (show rest.length ≤ (body ++ rest).length by simp)] at hspan

/-- A text that does not start with trivia. -/
def Ends (newlines : Bool) (rest : List Char) : Prop :=
  stops (gapSkips newlines) (gapComment? newlines) rest = true

instance (newlines : Bool) (rest : List Char) : Decidable (Ends newlines rest) :=
  inferInstanceAs (Decidable (_ = true))

theorem Ends.gapSpan {newlines : Bool} {rest : List Char} (h : Ends newlines rest) :
    gapSpan newlines rest = ([], rest) :=
  spanTrivia_of_stops h _

theorem Ends.gap {newlines : Bool} {rest : List Char} (h : Ends newlines rest) :
    gap newlines rest = .ok ([], rest) := by
  rw [gap_apply, h.gapSpan]

theorem ends_nil (newlines : Bool) : Ends newlines [] := by
  cases newlines <;> rfl

/-! ## Trivia in front of a token -/

/-- Trivia that is complete: a comment to the end of a line has this line end behind it. -/
inductive Skips (newlines : Bool) : Trivia → Prop
  | nil : Skips newlines []
  | skip {c : Char} {t : Trivia} (hc : gapSkips newlines c = true) (ht : Skips newlines t) :
      Skips newlines (c :: t)
  | comment {body t : Trivia} (hbody : inlineComment? body = some (body, []))
      (ht : Skips newlines t) : Skips newlines (body ++ t)
  | line {body t : Trivia} (hnewlines : newlines = true)
      (hbody : lineComment? body = some (body, [])) (hline : startsLine t = true)
      (ht : Skips newlines t) : Skips newlines (body ++ t)

/-- Trivia that may end in a comment to the end of the line. Without line ends, this is what may stand
between the last token of a line and its end. -/
inductive Tails (newlines : Bool) : Trivia → Prop
  | trivia {t : Trivia} (ht : Skips newlines t) : Tails newlines t
  | comment {t body : Trivia} (ht : Skips newlines t)
      (hbody : lineComment? body = some (body, [])) : Tails newlines (t ++ body)

/-- **Trivia is read again** as what it is, and reading goes on behind it. -/
theorem Skips.gapSpan_append {newlines : Bool} {t : Trivia} (h : Skips newlines t)
    (rest : List Char) :
    gapSpan newlines (t ++ rest) = (t ++ (gapSpan newlines rest).1, (gapSpan newlines rest).2) := by
  induction h with
  | nil => rfl
  | skip hc _ ih => rw [List.cons_append, gapSpan_skip hc, ih, List.cons_append]
  | @comment body t hbody _ ih =>
    obtain ⟨-, hne, hagain⟩ := inlineComment?_eq_some hbody
    rw [List.append_assoc, gapSpan_comment hne (gapComment?_of_inline (hagain _) newlines), ih,
      List.append_assoc]
  | @line body t hnewlines hbody hline _ ih =>
    subst hnewlines
    obtain ⟨-, hne, -, hagain⟩ := lineComment?_eq_some hbody
    have hcomment := gapComment?_of_line (hagain (t ++ rest) (.inr (startsLine_append hline rest)))
    rw [List.append_assoc, gapSpan_comment hne hcomment, ih, List.append_assoc]

theorem Skips.gap {newlines : Bool} {t rest : List Char} (h : Skips newlines t)
    (ho : Ends newlines rest) : gap newlines (t ++ rest) = .ok (t, rest) := by
  rw [gap_apply, h.gapSpan_append, ho.gapSpan, List.append_nil]

theorem Tails.cons {newlines : Bool} {c : Char} {t : Trivia} (h : Tails newlines t)
    (hc : gapSkips newlines c = true) : Tails newlines (c :: t) := by
  cases h with
  | trivia ht => exact .trivia (.skip hc ht)
  | comment ht hbody => exact .comment (.skip hc ht) hbody

theorem Tails.inline {newlines : Bool} {body t : Trivia} (h : Tails newlines t)
    (hbody : inlineComment? body = some (body, [])) : Tails newlines (body ++ t) := by
  cases h with
  | trivia ht => exact .trivia (.comment hbody ht)
  | comment ht hline =>
    rw [← List.append_assoc]
    exact .comment (.comment hbody ht) hline

/-- What starts with a line end does so without a comment at its end. -/
theorem startsLine_of_append {t body : List Char} (hbody : lineComment? body = some (body, []))
    (h : startsLine (t ++ body) = true) : startsLine t = true := by
  obtain ⟨hn, hr⟩ := lineComment?_chars hbody
  rcases startsLine_cases h with ⟨rest, heq⟩ | ⟨rest, heq⟩
  · cases t with
    | nil => exact absurd (List.mem_of_mem_head? (congrArg List.head? heq)) hn
    | cons c t =>
      rw [(List.cons.inj heq).1]
      rfl
  · cases t with
    | nil => exact absurd (List.mem_of_mem_head? (congrArg List.head? heq)) hr
    | cons c t =>
      obtain ⟨rfl, htail⟩ := List.cons.inj heq
      cases t with
      | nil => exact absurd (List.mem_of_mem_head? (congrArg List.head? htail)) hn
      | cons d t =>
        rw [(List.cons.inj htail).1]
        rfl

theorem Tails.line {body t : Trivia} (h : Tails true t)
    (hbody : lineComment? body = some (body, [])) (hstart : startsLine t = true) :
    Tails true (body ++ t) := by
  cases h with
  | trivia ht => exact .trivia (.line rfl hbody hstart ht)
  | comment ht hline =>
    rw [← List.append_assoc]
    exact .comment (.line rfl hbody (startsLine_of_append hline hstart) ht) hline

/-- What a gap reads is trivia, and nothing after it is. Only at the end of the text it may end in
a comment that a line end would have to close. -/
theorem spanTrivia_spec {newlines : Bool} {n : Nat} {cs t rest : List Char} (hlen : cs.length ≤ n)
    (h : spanTrivia (gapSkips newlines) (gapComment? newlines) n cs = (t, rest)) :
    cs = t ++ rest ∧ Ends newlines rest ∧ Tails newlines t ∧
      (rest ≠ [] ∨ newlines = false → Skips newlines t) := by
  induction n generalizing cs t rest with
  | zero =>
    obtain rfl := List.length_eq_zero_iff.1 (Nat.le_zero.1 hlen)
    cases h
    exact ⟨rfl, ends_nil newlines, .trivia .nil, fun _ => .nil⟩
  | succ n ih =>
    cases cs with
    | nil =>
      cases h
      exact ⟨rfl, ends_nil newlines, .trivia .nil, fun _ => .nil⟩
    | cons c tail =>
      -- by what stands in front: a blank, no comment, or one of two kinds of comment
      cases hs : gapSkips newlines c with
      | true =>
        rw [spanTrivia_skip hs] at h
        cases h
        obtain ⟨heq, hends, htails, hskips⟩ := ih (Nat.le_of_succ_le_succ hlen) rfl
        exact ⟨by rw [List.cons_append, ← heq], hends, htails.cons hs,
          fun hne => .skip hs (hskips hne)⟩
      | false =>
        cases hb : gapComment? newlines (c :: tail) with
        | none =>
          have hends : Ends newlines (c :: tail) := by simp [Ends, stops, hs, hb]
          rw [spanTrivia_of_stops hends] at h
          cases h
          exact ⟨rfl, hends, .trivia .nil, fun _ => .nil⟩
        | some r =>
          obtain ⟨body, mid⟩ := r
          have hmid : mid.length ≤ n := by
            have := gapComment?_length hb
            simp only [List.length_cons] at this hlen
            omega
          rw [spanTrivia_comment hs hb] at h
          cases h
          obtain ⟨heq, hends, htails, hskips⟩ := ih hmid rfl
          rcases gapComment?_eq_some hb with hinline | ⟨rfl, hline⟩
          · obtain ⟨hsplit, -, hagain⟩ := inlineComment?_eq_some hinline
            have hbody := hagain []
            rw [List.append_nil] at hbody
            exact ⟨by rw [hsplit, List.append_assoc, ← heq], hends, htails.inline hbody,
              fun hne => .comment hbody (hskips hne)⟩
          · obtain ⟨hsplit, -, hend, hagain⟩ := lineComment?_eq_some hline
            have hbody := hagain [] atLineEnd_nil
            rw [List.append_nil] at hbody
            refine ⟨by rw [hsplit, List.append_assoc, ← heq], hends, ?_⟩
            rcases hend with rfl | hend
            · -- a comment at the end of the text leaves nothing
              have hnil : spanTrivia (gapSkips true) (gapComment? true) n [] = ([], []) := by
                cases n <;> rfl
              rw [hnil, List.append_nil]
              exact ⟨.comment .nil hbody, fun hne => by simp at hne⟩
            · have hstart : startsLine (spanTrivia (gapSkips true) (gapComment? true) n mid).1 =
                  true := startsLine_spanTrivia rfl rfl hend hmid
              exact ⟨htails.line hbody hstart, fun hne => .line rfl hbody hstart (hskips hne)⟩

theorem gap_eq_ok {newlines : Bool} {cs t rest : List Char} (h : gap newlines cs = .ok (t, rest)) :
    cs = t ++ rest ∧ Ends newlines rest ∧ Tails newlines t ∧
      (rest ≠ [] ∨ newlines = false → Skips newlines t) := by
  rw [gap_apply] at h
  exact spanTrivia_spec (Nat.le_refl _) (Except.ok.inj h)

/-- What `blank` reads is trivia even at the end of the text. -/
theorem blank_eq_ok {cs t rest : List Char} (h : blank cs = .ok (t, rest)) :
    cs = t ++ rest ∧ Ends false rest ∧ Skips false t := by
  obtain ⟨hsplit, hends, -, hskips⟩ := gap_eq_ok (show gap false cs = _ from h)
  exact ⟨hsplit, hends, hskips (.inr rfl)⟩

theorem white_eq_ok {cs t rest : List Char} (h : white cs = .ok (t, rest)) :
    cs = t ++ rest ∧ Ends true rest ∧ Tails true t ∧ (rest ≠ [] → Skips true t) := by
  obtain ⟨hsplit, hends, htails, hskips⟩ := gap_eq_ok (show gap true cs = _ from h)
  exact ⟨hsplit, hends, htails, fun hne => hskips (.inl hne)⟩

/-- Skipped characters are trivia. -/
theorem skips_of_all {newlines : Bool} {t : Trivia} (h : ∀ c ∈ t, gapSkips newlines c = true) :
    Skips newlines t := by
  induction t with
  | nil => exact .nil
  | cons c t ih =>
    exact .skip (h c List.mem_cons_self) (ih fun d hd => h d (List.mem_cons_of_mem c hd))

/-- Trivia behind trivia is trivia. -/
theorem Skips.append {newlines : Bool} {t u : Trivia} (ht : Skips newlines t)
    (hu : Skips newlines u) : Skips newlines (t ++ u) := by
  induction ht with
  | nil => exact hu
  | skip hc _ ih => exact .skip hc ih
  | comment hbody _ ih =>
    rw [List.append_assoc]
    exact .comment hbody ih
  | line hnewlines hbody hline _ ih =>
    rw [List.append_assoc]
    exact .line hnewlines hbody (startsLine_append hline u) ih

/-- Blanks are white space. -/
theorem Skips.to_true {newlines : Bool} {t : Trivia} (h : Skips newlines t) : Skips true t := by
  cases newlines with
  | true => exact h
  | false =>
    induction h with
    | nil => exact .nil
    | skip hc _ ih => exact .skip (gapSkips_of_isBlankChar hc true) ih
    | comment hbody _ ih => exact .comment hbody ih
    | line hnewlines => cases hnewlines

theorem Ends.blank {rest : List Char} (h : Ends false rest) : blank rest = .ok ([], rest) := h.gap

theorem Ends.white {rest : List Char} (h : Ends true rest) : white rest = .ok ([], rest) := h.gap

theorem Skips.blank {t rest : List Char} (h : Skips false t) (ho : Ends false rest) :
    blank (t ++ rest) = .ok (t, rest) := h.gap ho

theorem Skips.white {t rest : List Char} (h : Skips true t) (ho : Ends true rest) :
    white (t ++ rest) = .ok (t, rest) := h.gap ho

/-- White space is read as one with the white space behind it. -/
theorem Skips.white_append {t w cs rest : List Char} (h : Skips true t)
    (hcs : Reader.white cs = .ok (w, rest)) : Reader.white (t ++ cs) = .ok (t ++ w, rest) := by
  have hspan := h.gapSpan_append cs
  have heq : gapSpan true cs = (w, rest) := Except.ok.inj hcs
  rw [heq] at hspan
  exact congrArg Except.ok hspan

/-- Whether a character neither is skipped nor starts a comment: it is the first of a token. -/
def startsToken (c : Char) : Bool := !(isWhiteChar c || c == '#' || c == '/')

theorem inlineComment?_of_ne {c : Char} (h : c ≠ '/') (rest : List Char) :
    inlineComment? (c :: rest) = none :=
  inlineComment?.eq_2 _ fun _ heq => h (List.cons.inj heq).1

theorem lineComment?_of_ne {c : Char} (h : c ≠ '/') (h' : c ≠ '#') (rest : List Char) :
    lineComment? (c :: rest) = none :=
  lineComment?.eq_3 _ (fun _ heq => h' (List.cons.inj heq).1) fun _ heq => h (List.cons.inj heq).1

theorem ends_of_startsToken {c : Char} (h : startsToken c = true) (newlines : Bool)
    (rest : List Char) : Ends newlines (c :: rest) := by
  simp only [startsToken, isWhiteChar, Bool.not_eq_true', Bool.or_eq_false_iff, beq_eq_false_iff_ne,
    ne_eq] at h
  obtain ⟨⟨⟨⟨hblank, hn⟩, hr⟩, hhash⟩, hslash⟩ := h
  cases newlines with
  | true =>
    simp [Ends, stops, gapSkips, gapComment?, isWhiteChar, comment?, hblank, hn, hr,
      lineComment?_of_ne hslash hhash, inlineComment?_of_ne hslash]
  | false => simp [Ends, stops, gapSkips, gapComment?, hblank, inlineComment?_of_ne hslash]

/-- A line end and what follows it are not blanks. -/
theorem ends_line {cs : List Char} (h : startsLine cs = true) : Ends false cs := by
  rcases startsLine_cases h with ⟨rest, rfl⟩ | ⟨rest, rfl⟩ <;> rfl

/-! ## The end of a line -/

theorem ends_of_lineComment? {cs : List Char} {r : List Char × List Char}
    (h : lineComment? cs = some r) : Ends false cs := by
  unfold lineComment? at h
  split at h
  · rfl
  · rfl
  · cases h

theorem AtLineEnd.ends {rest : List Char} (h : AtLineEnd rest) : Ends false rest := by
  rcases h with rfl | h
  · exact ends_nil false
  · exact ends_line h

theorem AtLineEnd.lineComment? {rest : List Char} (h : AtLineEnd rest) :
    lineComment? rest = none := by
  rcases h with rfl | h
  · rfl
  · rcases startsLine_cases h with ⟨tail, rfl⟩ | ⟨tail, rfl⟩ <;> rfl

theorem ofOption_lineComment? {body rest : List Char} (h : lineComment? body = some (body, []))
    (ho : AtLineEnd rest) : ofOption lineComment? (body ++ rest) = .ok (body, rest) := by
  rw [ofOption, (lineComment?_eq_some h).2.2.2 rest ho]

theorem ends_comment {body rest : List Char} (h : lineComment? body = some (body, []))
    (ho : AtLineEnd rest) : Ends false (body ++ rest) :=
  ends_of_lineComment? ((lineComment?_eq_some h).2.2.2 rest ho)

/-- The end of a line is read again. -/
theorem Tails.lineTail {t rest : List Char} (h : Tails false t) (ho : AtLineEnd rest) :
    lineTail (t ++ rest) = .ok (t, rest) := by
  cases h with
  | trivia ht =>
    rw [Reader.lineTail, bind_ok (ht.blank ho.ends),
      bind_ok (opt_absent (by rw [ofOption, ho.lineComment?]))]
    simp
  | comment ht hbody =>
    rw [List.append_assoc, Reader.lineTail, bind_ok (ht.blank (ends_comment hbody ho)),
      bind_ok (opt_ok (ofOption_lineComment? hbody ho))]
    rfl

/-- What is read up to the end of a line is of this kind. -/
theorem lineTail_eq_ok {cs t rest : List Char} (h : lineTail cs = .ok (t, rest)) :
    cs = t ++ rest ∧ Tails false t := by
  obtain ⟨b, mid, hblank, h⟩ := bind_eq_ok h
  obtain ⟨o, left, hcomment, h⟩ := bind_eq_ok h
  obtain ⟨rfl, rfl⟩ := pure_eq_ok h
  obtain ⟨rfl, -, hskips⟩ := blank_eq_ok hblank
  rcases opt_eq_ok hcomment with ⟨c, rfl, hc⟩ | ⟨rfl, -, rfl⟩
  · obtain ⟨rfl, -, -, hagain⟩ := lineComment?_eq_some (ofOption_eq_ok hc)
    have hbody := hagain [] atLineEnd_nil
    rw [List.append_nil] at hbody
    exact ⟨by simp, .comment hskips hbody⟩
  · exact ⟨by simp, by simpa using Tails.trivia hskips⟩

/-- White space is read on behind the end of a line. -/
theorem Tails.white {newlines : Bool} {t w cs rest : List Char} (h : Tails newlines t)
    (ho : AtLineEnd cs) (hcs : white cs = .ok (w, rest)) :
    white (t ++ cs) = .ok (t ++ w, rest) := by
  cases h with
  | trivia ht => exact ht.to_true.white_append hcs
  | @comment t body ht hbody =>
    have hcomment := gapComment?_of_line ((lineComment?_eq_some hbody).2.2.2 cs ho)
    have hspan := gapSpan_comment (lineComment?_eq_some hbody).2.1 hcomment
    have heq : gapSpan true cs = (w, rest) := Except.ok.inj hcs
    rw [heq] at hspan
    rw [List.append_assoc, ht.to_true.white_append (congrArg Except.ok hspan), List.append_assoc]

end HclOverlay.Hcl.Reader
