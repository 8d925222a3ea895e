import HclOverlay.Proofs.Excerpts.Lists

/-!
# Objects and loops in excerpts

An entry of an object stays on its line, but its value may be followed by the key of the next entry
behind any white space.

* `Follows` — something firm follows behind white space.
* `itemEnd_excerpt` — what stands at the end of an entry.
* `alone_item`, `alone_entries`, `alone_object` — **objects**, by induction on the bound on their
  entries.
* `alone_forList`, `alone_forObject` — `for` expressions.
-/

namespace HclOverlay.Hcl.Reader

variable {β : Type} {y cs mid rest : List Char} {k : Nat}
variable {expr expr' : Reader Expr} {self self' : Mode → Reader Expr} {m : Mode}

/-! ## Objects -/

/-- Something firm follows behind trivia. -/
def Follows (y rest : List Char) : Prop :=
  ∃ t z, white (rest ++ y) = .ok (t, z ++ y) ∧ Firm z

theorem Follows.ne_nil (h : Follows y rest) : rest ≠ [] := by
  rintro rfl
  obtain ⟨t, z, hwhite, hz⟩ := h
  have hlen := (Consumes.white.leaves hwhite).length_le
  simp only [List.length_append, List.nil_append] at hlen
  obtain rfl : z = [] := List.length_eq_zero_iff.1 (by omega)
  cases hz

theorem lineEnd_excerpt {eol : List Char} (h : lineEnd (cs ++ y) = .ok (eol, rest ++ y)) :
    cs = eol ++ rest ∧ startsLine eol = true ∧ Skips true eol := by
  obtain ⟨hcs, heol⟩ := lineEnd_eq_ok h
  obtain rfl := excerpt_eq _ hcs
  refine ⟨rfl, ?_⟩
  rcases heol with rfl | rfl
  · exact ⟨rfl, skips_of_all (by simp [gapSkips, isWhiteChar])⟩
  · exact ⟨rfl, skips_of_all (by simp [gapSkips, isWhiteChar])⟩

theorem alone_lineComment : Alone y k (fun rest => startsLine rest = true)
    (ofOption lineComment?) (ofOption lineComment?) := by
  intro cs rest body _ _ h hrest
  obtain ⟨hcs, -, -, hagain⟩ := lineComment?_eq_some (ofOption_eq_ok h)
  rw [excerpt_eq _ hcs, ofOption, hagain rest (.inr hrest)]

theorem itemEnd_eq : itemEnd = onHead fun next => if next == some '}' then pure ([], .none) else do
    if ← flag ',' then return ([], .comma)
    let comment ← opt (ofOption lineComment?)
    let _ ← commit lineEnd
    return (comment.getD [], .newline) := rfl

instance : Consumes (ofOption lineComment?) :=
  Consumes.ofOption fun h => (lineComment?_eq_some h).1 ▸ List.suffix_append _ _

theorem alone_itemEnd : Alone y k (fun rest => rest ≠ []) itemEnd itemEnd := by
  rw [itemEnd_eq]
  refine .onHead (fun next => .ite _ (.pure _) (.weaken (Q := Anywhere) (.andThen (alone_flag ',')
    fun comma => .ite _ (.pure _) (.bind (.opt alone_lineComment ?_)
      (fun comment => .andThen alone_lineEnd.commit fun _ => .pure _) ?_)) fun _ _ => trivial)) ?_
  · intro cs _ _ _ hline
    rw [ofOption, AtLineEnd.lineComment? (.inr hline)]
  · intro comment mid b rest _ h _
    obtain ⟨eol, c₁, heol, h⟩ := bind_eq_ok h
    obtain ⟨-, rfl⟩ := pure_eq_ok h
    obtain ⟨rfl, hline, -⟩ := lineEnd_excerpt (commit_eq_ok heol)
    exact startsLine_append hline rest
  · exact fun h hrest => Consumes.ne_nil h hrest

/-- Behind a colon, an expression starts with no further colon. -/
theorem Readable.after_colon (h : Readable y k expr expr') (newlines : Bool)
    {f : Trivia → Expr → Reader β} [hf : ∀ t e, Consumes (f t e)] {b : β}
    (hread : (do let t ← gap newlines; let e ← expr; f t e : Reader β) (cs ++ y) =
      .ok (b, rest ++ y)) : Firm (':' :: cs) := by
  have hc := h.consumes
  have ho := h.opens
  obtain ⟨t, left, hgap, -, hmore⟩ := bind_excerpt hread
  have hleft := Takes.ne_nil hmore
  obtain ⟨e, c₂, he, -⟩ := bind_eq_ok hmore
  cases cs with
  | nil => exact absurd rfl (Consumes.ne_nil hgap hleft)
  | cons d tail =>
    refine firm_token rfl fun _ hd => ?_
    have hnone : gap newlines (d :: tail ++ y) = .ok ([], d :: tail ++ y) :=
      hd ▸ (ends_of_startsToken (c := ':') rfl newlines (tail ++ y)).gap
    rw [hnone] at hgap
    rw [← (Prod.mk.inj (Except.ok.inj hgap)).2] at he
    exact h.colon he (congrArg some hd)

/-- Between a key and its value stands a colon or an equals sign. -/
theorem separator_excerpt {f : Bool → Unit → Reader β} [∀ colon u, Consumes (f colon u)] {b : β}
    (h : (do
      let colon ← flag ':'
      if (!colon) = true then commit (char '=') >>= f colon else f colon ()) (cs ++ y) =
        .ok (b, rest ++ y)) :
    ∃ colon c left, cs = c :: left ∧ (c = ':' ∨ c = '=') ∧
      f colon () (left ++ y) = .ok (b, rest ++ y) := by
  rcases flag_excerpt h with ⟨tail, hcs, hvalue⟩ | hvalue
  · exact ⟨true, ':', tail, hcs, .inl rfl, hvalue⟩
  · obtain ⟨tail, hcs, hvalue⟩ := commit_char_excerpt hvalue
    exact ⟨false, '=', tail, hcs, .inr rfl, hvalue⟩

/-- What stands at the end of an entry: its closing brace, a comma, or a line end with a comment in
front of it or none. -/
theorem itemEnd_excerpt {comment : Trivia} {ending : ItemEnd}
    (h : itemEnd (cs ++ y) = .ok ((comment, ending), rest ++ y)) (hrest : rest ≠ []) :
    (cs = rest ∧ rest.head? = some '}') ∨ cs = ',' :: rest ∨
      ∃ eol, cs = comment ++ (eol ++ rest) ∧ startsLine eol = true ∧ Skips true eol ∧
        (comment = [] ∨ lineComment? comment = some (comment, [])) := by
  rw [itemEnd_eq, onHead] at h
  split at h
  · next hclosing =>
    obtain ⟨-, hcs⟩ := pure_eq_ok h
    obtain rfl := List.append_cancel_right hcs
    obtain ⟨c, tail, rfl⟩ := List.exists_cons_of_ne_nil hrest
    exact .inl ⟨rfl, by simpa using hclosing⟩
  · rcases flag_excerpt h with ⟨tail, rfl, hend⟩ | hend
    · rw [List.append_cancel_right (pure_eq_ok hend).2]
      exact .inr (.inl rfl)
    · obtain ⟨found, left, hfound, -, hend⟩ := bind_excerpt hend
      obtain ⟨eol, c₁, heol, hend⟩ := bind_eq_ok hend
      obtain ⟨heq, rfl⟩ := pure_eq_ok hend
      obtain ⟨rfl, hline, hskips⟩ := lineEnd_excerpt (commit_eq_ok heol)
      obtain ⟨rfl, -⟩ := Prod.mk.inj heq
      rcases opt_eq_ok hfound with ⟨body, rfl, hbody⟩ | ⟨rfl, -, hcs⟩
      · obtain ⟨hcs, -, -, hagain⟩ := lineComment?_eq_some (ofOption_eq_ok hbody)
        have hbody := hagain [] atLineEnd_nil
        rw [List.append_nil] at hbody
        exact .inr (.inr ⟨eol, excerpt_eq _ hcs, hline, hskips, .inr hbody⟩)
      · exact .inr (.inr ⟨eol, (List.append_cancel_right hcs).symm, hline, hskips, .inl rfl⟩)

/-- Reads the value of an entry and how the entry ends. -/
def itemValue (expr : Reader Expr)
    (make : Trivia → Expr → Trivia → Trivia × ItemEnd → Item) : Reader Item := do
  let beforeValue ← blank
  let value ← expr
  let afterValue ← blank
  let ending ← itemEnd
  return make beforeValue value afterValue ending

theorem item_eq (expr : Reader Expr) (before : Trivia) :
    item expr before = (do
      let key ← expr
      let afterKey ← blank
      let colon ← flag ':'
      if !colon then commit (char '=')
      itemValue expr fun beforeValue value afterValue ending =>
        ⟨⟨before, keyOf key, afterKey⟩, colon, ⟨beforeValue, value, afterValue ++ ending.1⟩,
          ending.2⟩) := rfl

theorem alone_itemValue (hexpr : Readable y k expr expr')
    (make : Trivia → Expr → Trivia → Trivia × ItemEnd → Item) :
    Alone y k (Follows y) (itemValue expr make) (itemValue expr' make) := by
  have hc := hexpr.consumes
  have ho := hexpr.opens
  -- part by part; what may stand behind a part depends on how the entry ends
  refine .blankBefore fun beforeValue => .bind hexpr.alone (fun value => .bind alone_blank
    (fun afterValue => alone_itemEnd.bind (fun ending => .pure _) ?_) ?_) ?_
  · intro ending mid entry rest _ h hrest
    rw [← List.append_cancel_right (pure_eq_ok h).2]
    exact hrest.ne_nil
  · intro afterValue mid entry rest _ h hrest
    obtain ⟨⟨comment, ending⟩, c₁, hending, h⟩ := bind_eq_ok h
    obtain ⟨-, rfl⟩ := pure_eq_ok h
    rcases itemEnd_excerpt hending hrest.ne_nil with ⟨rfl, hclosing⟩ | rfl |
      ⟨eol, rfl, hline, -, hcomment⟩
    · obtain ⟨tail, rfl⟩ := List.head?_eq_some_iff.1 hclosing
      exact ends_of_startsToken rfl false tail
    · exact ends_of_startsToken rfl false rest
    · have hline := startsLine_append hline rest
      rcases hcomment with rfl | hcomment
      · exact ends_line hline
      · exact ends_comment hcomment (.inr hline)
  · intro value mid entry rest _ h hrest
    obtain ⟨afterValue, left, hblank, -, h⟩ := bind_excerpt h
    obtain ⟨⟨comment, ending⟩, c₁, hending, h⟩ := bind_eq_ok h
    obtain ⟨-, rfl⟩ := pure_eq_ok h
    rcases itemEnd_excerpt hending hrest.ne_nil with ⟨rfl, hclosing⟩ | rfl |
      ⟨eol, rfl, hline, hskips, hcomment⟩
    · obtain ⟨tail, rfl⟩ := List.head?_eq_some_iff.1 hclosing
      exact .of_blank hblank (firm_closing (.inr (.inr rfl)) tail)
    · exact .of_blank hblank (firm_comma hrest.ne_nil)
    · -- the white space behind the value goes on behind the end of its line
      obtain ⟨t, z, hwhite, hz⟩ := hrest
      obtain ⟨hmid, -, hblanks⟩ := blank_eq_ok hblank
      have hend : Skips true (comment ++ eol) := by
        rcases hcomment with rfl | hcomment
        · exact hskips
        · exact .line rfl hcomment hline hskips
      have hread := (hblanks.to_true.append hend).white_append hwhite
      refine .of_white (t := afterValue ++ (comment ++ eol) ++ t) ?_ hz
      rw [hmid, ← hread]
      simp

section Value

variable [Consumes expr] (make : Trivia → Expr → Trivia → Trivia × ItemEnd → Item)

instance : Consumes (itemValue expr make) := by
  unfold itemValue
  infer_instance

instance [Opens expr] : Takes (itemValue expr make) := Takes.andThen fun _ => inferInstance

end Value

instance [Consumes expr] [Opens expr] (before : Trivia) : Opens (item expr before) := by
  rw [item_eq]
  infer_instance

theorem alone_item (hexpr : Readable y k expr expr') (before : Trivia) :
    Alone y k (Follows y) (item expr before) (item expr' before) := by
  have hc := hexpr.consumes
  have ho := hexpr.opens
  rw [item_eq, item_eq]
  refine .bind hexpr.alone (fun key => .bind alone_blank (fun afterKey =>
    .andThen (alone_flag ':') fun colon => .ite _ (.andThen (alone_char '=').commit fun _ =>
      alone_itemValue hexpr _) (alone_itemValue hexpr _)) ?_) ?_
  · intro afterKey mid b rest _ h _
    obtain ⟨colon, c, left, rfl, hsep, -⟩ := separator_excerpt h
    rcases hsep with rfl | rfl <;> exact ends_of_startsToken rfl false left
  · intro key mid b rest _ h _
    obtain ⟨afterKey, left, hblank, -, h⟩ := bind_excerpt h
    obtain ⟨colon, c, tail, rfl, hsep, hvalue⟩ := separator_excerpt h
    refine .of_blank hblank ?_
    rcases hsep with rfl | rfl
    · exact hexpr.after_colon false hvalue
    · have hne := Takes.ne_nil hvalue
      cases tail with
      | nil => contradiction
      | cons d tail => exact firm_token rfl nofun

/-- An entry has a key and something behind it. -/
theorem firm_of_item (hexpr : Readable y k expr expr') {before : Trivia} {entry : Item}
    (h : item expr before (cs ++ y) = .ok (entry, rest ++ y)) : Firm cs := by
  have hc := hexpr.consumes
  have ho := hexpr.opens
  obtain ⟨c, tail, rfl, hc', -⟩ := Opens.excerpt _ h
  obtain ⟨key, left, hkey, -, h⟩ := bind_excerpt h
  obtain ⟨afterKey, last, hblank, -, h⟩ := bind_excerpt h
  obtain ⟨colon, sep, more, rfl, -⟩ := separator_excerpt h
  have hleft := List.length_pos_of_ne_nil (Consumes.ne_nil hblank (List.cons_ne_nil sep more))
  have hshorter := Takes.shorter hkey
  simp only [List.length_append, List.length_cons] at hshorter
  obtain ⟨d, tail, rfl⟩ := List.exists_cons_of_ne_nil (List.ne_nil_of_length_pos (l := tail) (by omega))
  exact firm_token hc' fun hcolon => absurd (congrArg some hcolon) (hexpr.colon hkey)

theorem entries_eq (expr : Reader Expr) (n : Nat) :
    entries expr (n + 1) = (do
      let before ← white
      onHead fun next => if next == some '}' then pure ([], before) else do
        let first ← item expr before
        let more ← entries expr n
        return (first :: more.1, more.2)) := rfl

theorem entries_front (hexpr : Readable y k expr expr') {n : Nat} {before : Trivia}
    {found : List Item × Trivia} (hrest : ∃ tail, rest = '}' :: tail)
    (h : onHead (fun next => if next == some '}' then pure ([], before) else do
        let first ← item expr before
        let more ← entries expr n
        return (first :: more.1, more.2)) (cs ++ y) = .ok (found, rest ++ y)) : Firm cs := by
  have hc := hexpr.consumes
  rw [onHead] at h
  split at h
  · obtain ⟨tail, rfl⟩ := hrest
    rw [← List.append_cancel_right (pure_eq_ok h).2]
    exact firm_closing (.inr (.inr rfl)) tail
  · obtain ⟨first, left, hfirst, -, h⟩ := bind_excerpt h
    exact firm_of_item hexpr hfirst

/-- **Entries are read alone.** The induction is on the bound on their number. -/
theorem alone_entries (hexpr : Readable y k expr expr') {n n' : Nat} (hn : n' ≤ k) :
    Alone y n' (fun rest => ∃ tail, rest = '}' :: tail) (entries expr n) (entries expr' n') := by
  have hc := hexpr.consumes
  have ho := hexpr.opens
  induction n generalizing n' with
  | zero => nofun
  | succ n ih =>
    cases n' with
    | zero => exact fun _ _ _ hlen => absurd hlen (Nat.not_lt_zero _)
    | succ n' =>
      rw [entries_eq, entries_eq]
      refine .bind alone_white (fun before => .onHead (fun next => .ite _ (.pure _)
        (.bindTakes ((alone_item hexpr before).le hn) (fun first => (ih (by omega)).map _) ?_)) ?_) ?_
      · intro first mid found rest _ h hrest
        obtain ⟨more, c₁, hmore, h⟩ := bind_eq_ok h
        obtain ⟨-, rfl⟩ := pure_eq_ok h
        cases n with
        | zero => cases hmore
        | succ n =>
          rw [entries_eq] at hmore
          obtain ⟨before, left, hwhite, -, hmore⟩ := bind_excerpt hmore
          exact ⟨before, left, hwhite, entries_front hexpr hrest hmore⟩
      · rintro next cs rest found h ⟨tail, rfl⟩
        exact Consumes.ne_nil h (List.cons_ne_nil _ _)
      · exact fun _ h hrest => (entries_front hexpr hrest h).ends true

theorem alone_object (hexpr : Readable y k expr expr') :
    Alone y (k + 1) Anywhere (object expr) (object expr') := by
  have hc := hexpr.consumes
  refine .bindTakes (alone_char '{') (fun _ => .bind (.bounded fun n n' hn =>
    alone_entries hexpr hn) (fun found => .andThen (alone_char '}') fun _ => .pure _) ?_)
      fun _ _ _ => trivial
  intro found mid e rest _ h _
  obtain ⟨tail, hmid, -⟩ := char_excerpt h
  exact ⟨tail, hmid⟩

/-! ## For expressions -/

/-- What closes something comes next. -/
def Closing (rest : List Char) : Prop :=
  ∃ c tail, rest = c :: tail ∧ (c = ']' ∨ c = ')' ∨ c = '}')

theorem Closing.firm (h : Closing rest) : Firm rest := by
  obtain ⟨c, tail, rfl, hc⟩ := h
  exact firm_closing hc tail

theorem Closing.head?_ne (h : Closing rest) {c : Char} (hc : c ∉ [']', ')', '}']) :
    rest.head? ≠ some c := by
  obtain ⟨d, tail, rfl, hd⟩ := h
  rintro ⟨⟩
  exact hc (by simpa using hd)

theorem text_of_ne {c : Char} {more : List Char} (h : cs.head? ≠ some c) :
    text (c :: more) cs = .error .absent := by
  cases cs with
  | nil => rfl
  | cons d tail =>
    rw [text, ofOption, stripText, if_neg fun hd => h (congrArg some hd.symm)]
    rfl

theorem alone_forCondition (hexpr : Readable y k expr expr') :
    Alone y k Closing (forCondition expr) (forCondition expr') := by
  have hc := hexpr.consumes
  refine .opt (.andThen (alone_text _) fun _ => hexpr.padded.weaken fun _ hrest => hrest.firm) ?_
  exact fun _ _ _ hrest => bind_error (text_of_ne (hrest.head?_ne (by simp))) _

/-- A condition or, without one, what closes the expression. -/
theorem forCondition_front [Consumes expr] {condition : Option (Padded Expr)} 
    (h : forCondition expr (cs ++ y) = .ok (condition, rest ++ y)) (hrest : Closing rest) :
    Firm cs ∧ cs.head? ≠ some '.' := by
  rcases opt_eq_ok h with ⟨found, -, hfound⟩ | ⟨-, -, hcs⟩
  · obtain ⟨tail, rfl, -⟩ := text_excerpt hfound
    exact ⟨firm_token rfl nofun, by simp⟩
  · rw [← List.append_cancel_right hcs]
    exact ⟨hrest.firm, hrest.head?_ne (by simp)⟩

theorem closing_of_commit {c : Char} (hc : c = ']' ∨ c = ')' ∨ c = '}') {f : Unit → Reader β}
    [hf : ∀ u, Consumes (f u)] {b : β}
    (h : (commit (char c) >>= f) (cs ++ y) = .ok (b, rest ++ y)) : Closing cs := by
  obtain ⟨tail, hcs, -⟩ := commit_char_excerpt h
  exact ⟨c, tail, hcs, hc⟩

theorem Readable.padded_after_colon (h : Readable y k expr expr') {found : Padded Expr}
    (hread : Reader.padded expr (cs ++ y) = .ok (found, rest ++ y)) : Firm (':' :: cs) :=
  h.after_colon true hread

theorem alone_forGrouping : Alone y k (Ends true) forGrouping forGrouping :=
  .andThen (alone_text _) fun _ => alone_white

section Loops

variable (hself : ∀ m, Readable y k (self m) (self' m))

include hself

theorem alone_forHead :
    Alone y k (fun rest => Firm (':' :: rest)) (forHead self) (forHead self') := by
  have hc := fun m => (hself m).consumes
  have hfor : Opens (text ['f', 'o', 'r']) := .text rfl _
  have hin : Opens (text ['i', 'n']) := .text rfl _
  refine .whiteBefore fun opening => .andThen (alone_text _) fun _ => alone_binding.bind
    (fun names => .andThen (alone_text _).commit fun _ => (hself .line).padded.bind (fun source =>
      .andThen (alone_char ':').commit fun _ => .pure _) ?_) ?_
  · intro source mid found rest _ h hrest
    obtain ⟨tail, rfl, hend⟩ := commit_char_excerpt h
    rwa [← List.append_cancel_right (pure_eq_ok hend).2]
  · exact fun _ h _ => Opens.ends _ h true

theorem alone_forList : Alone y (k + 1) Anywhere (forList self m) (forList self' m) := by
  have hc := fun m => (hself m).consumes
  refine .bindTakes (alone_char '[') (fun _ => (alone_forHead hself).bind
    (fun found => (hself _).padded.bind (fun value => (alone_forCondition (hself _)).bind
      (fun condition => .andThen (alone_char ']').commit fun _ => .pure _) ?_) ?_) ?_)
        fun _ _ _ => trivial
  · exact fun _ h _ => closing_of_commit (.inl rfl) h
  · intro value mid e rest _ h _
    obtain ⟨condition, left, hcondition, -, h⟩ := bind_excerpt h
    exact (forCondition_front hcondition (closing_of_commit (.inl rfl) h)).1
  · intro found mid e rest _ h _
    obtain ⟨value, left, hvalue, -, h⟩ := bind_excerpt h
    exact (hself _).padded_after_colon hvalue

end Loops

/-- Reads a `for` in braces behind its head. -/
def forObjectBody (self : Mode → Reader Expr) (m : Mode) (head : Trivia × Binding × Padded Expr) :
    Reader Expr := do
  let key ← padded (self .line)
  commit (text ['=', '>'])
  let value ← padded (self .line)
  let grouping ← opt forGrouping
  let condition ← forCondition (self m.spread)
  commit (char '}')
  let kept := if condition.isSome then grouping else grouping.map fun _ => []
  return .forObject head.1 head.2.1 head.2.2 key value kept condition

theorem forObject_eq (self : Mode → Reader Expr) (m : Mode) :
    forObject self m = (do char '{'; let head ← forHead self; forObjectBody self m head) := rfl

instance [∀ m, Consumes (self m)] (head : Trivia × Binding × Padded Expr) :
    Consumes (forObjectBody self m head) := by
  unfold forObjectBody
  infer_instance

section Loops

variable (hself : ∀ m, Readable y k (self m) (self' m))

include hself

theorem alone_forObjectBody (head : Trivia × Binding × Padded Expr) :
    Alone y k Anywhere (forObjectBody self m head) (forObjectBody self' m head) := by
  have hc := fun m => (hself m).consumes
  have hclose : '}' = ']' ∨ '}' = ')' ∨ '}' = '}' := .inr (.inr rfl)
  refine (hself _).padded.bind (fun key => .andThen (alone_text _).commit fun _ =>
    (hself _).padded.bind (fun value => .bind (Q := fun mid => Ends true mid ∧ mid.head? ≠ some '.')
      (.opt (alone_forGrouping.weaken fun _ => And.left) ?_)
      (fun grouping => (alone_forCondition (hself _)).bind
        (fun condition => .andThen (alone_char '}').commit fun _ => .pure _) ?_) ?_) ?_) ?_
  · exact fun _ _ _ hmid => bind_error (text_of_ne hmid.2) _
  · exact fun _ h _ => closing_of_commit hclose h
  · intro grouping mid e rest _ h _
    obtain ⟨condition, left, hcondition, -, h⟩ := bind_excerpt h
    obtain ⟨hfirm, hpoint⟩ := forCondition_front hcondition (closing_of_commit hclose h)
    exact ⟨hfirm.ends true, hpoint⟩
  · intro value mid e rest _ h _
    rcases opt_excerpt h with ⟨grouping, left, hgrouping, -, -⟩ | ⟨-, hmore⟩
    · obtain ⟨tail, rfl, -⟩ := text_excerpt hgrouping
      exact firm_token rfl nofun
    · obtain ⟨condition, last, hcondition, -, hend⟩ := bind_excerpt hmore
      exact (forCondition_front hcondition (closing_of_commit hclose hend)).1
  · intro key mid e rest _ h _
    obtain ⟨tail, rfl, -⟩ := commit_text_excerpt h
    exact firm_token rfl nofun

theorem alone_forObject : Alone y (k + 1) Anywhere (forObject self m) (forObject self' m) := by
  have hc := fun m => (hself m).consumes
  rw [forObject_eq, forObject_eq]
  refine .bindTakes (alone_char '{') (fun _ => (alone_forHead hself).bind
    (alone_forObjectBody hself) ?_) fun _ _ _ => trivial
  intro found mid e rest _ h _
  obtain ⟨value, left, hvalue, -, h⟩ := bind_excerpt h
  exact (hself _).padded_after_colon hvalue

end Loops

end HclOverlay.Hcl.Reader
