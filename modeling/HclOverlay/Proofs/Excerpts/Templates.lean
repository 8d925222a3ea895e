import HclOverlay.Proofs.Excerpts.Literals

/-!
# Templates in excerpts

The pieces of a template are read up to something that starts none: a quote, the line of a delimiter,
or a marker that goes on with a directive or ends it. What is there tells which of the ways to read a
piece fail, and so they fail alone as well.

* `Readable` — a reader of expressions that reads alone.
* `TagHead`, `Stops` — where the pieces of a template end.
* `alone_part`, `alone_partsUpTo` — **pieces**, by induction on the bound on their number.
* `alone_quotedTemplate`, `alone_heredoc` — the two expressions made of pieces.
-/

namespace HclOverlay.Hcl.Reader

open Quoted

variable {y cs mid rest : List Char} {k : Nat} {kind : TextKind}

/-! ## Expressions in markers -/

/-- A reader of expressions that reads alone up to where an expression ends. -/
structure Readable (y : List Char) (k : Nat) (r r' : Reader Expr) : Prop where
  alone : Alone y k (Settled y) r r'
  consumes : Consumes r
  opens : Opens r
  /-- no expression starts with a colon -/
  colon {cs rest : List Char} {e : Expr} : r cs = .ok (e, rest) → cs.head? ≠ some ':'

theorem Readable.le {n : Nat} {r r' : Reader Expr} (h : Readable y k r r') (hn : n ≤ k) :
    Readable y n r r' := { h with alone := h.alone.le hn }

/-- A text with something firm at its front. -/
def Firm (rest : List Char) : Prop := firm rest = true

theorem Firm.ends (h : Firm rest) (newlines : Bool) : Ends newlines rest :=
  List.append_nil rest ▸ firm_ends h newlines []

section Padded

variable {α β : Type} {P Q : List Char → Prop} {r r' : Reader α}

theorem Alone.padded [Consumes r] [Opens r] (hr : Alone y k Q r r')
    (hQ : ∀ {mid rest t}, white (mid ++ y) = .ok (t, rest ++ y) → P rest → Q mid)
    (hP : ∀ {rest}, P rest → Ends true rest) : Alone y k P (padded r) (padded r') := by
  refine .whiteBefore fun before => .bind hr (fun item => alone_white.bind (fun after => .pure _) ?_) ?_
  · intro after mid b rest _ h hP'
    obtain ⟨-, hrest⟩ := pure_eq_ok h
    rw [List.append_cancel_right hrest] at hP'
    exact hP hP'
  · intro item mid b rest _ h hP'
    obtain ⟨after, left, hwhite, h⟩ := bind_eq_ok h
    obtain ⟨-, rfl⟩ := pure_eq_ok h
    exact hQ hwhite hP'

/-- Expressions between white space, in front of something firm. -/
theorem Readable.padded {r r' : Reader Expr} (h : Readable y k r r') :
    Alone y k Firm (padded r) (padded r') :=
  have := h.consumes
  have := h.opens
  h.alone.padded (fun hwhite hfirm => .of_white hwhite hfirm) fun hfirm => hfirm.ends true

theorem alone_paddedName :
    Alone y k (Ends true) (padded (commit identifier)) (padded (commit identifier)) :=
  alone_identifier.commit.padded (fun _ _ => trivial) id

end Padded

/-! ## Markers -/

theorem openMarker_eq_ok {sign : Char} {strip : Bool} (h : openMarker sign cs = .ok (strip, rest)) :
    ∃ tail, cs = sign :: '{' :: tail ∧ rest <:+ tail := by
  obtain ⟨_, c₁, hsign, h⟩ := bind_eq_ok h
  obtain ⟨_, c₂, hbrace, h⟩ := bind_eq_ok h
  refine ⟨c₂, ?_, (Consumes.flag '~').leaves h⟩
  rw [char_eq_ok hsign, char_eq_ok hbrace]

instance (sign : Char) : Takes (openMarker sign) where
  shorter h := by
    obtain ⟨tail, rfl, hsuffix⟩ := openMarker_eq_ok h
    have := hsuffix.length_le
    simp
    omega

theorem alone_openMarker (sign : Char) :
    Alone y k Anywhere (openMarker sign) (openMarker sign) :=
  .andThen (alone_char sign) fun _ => .andThen (alone_char '{') fun _ => alone_flag '~'

theorem alone_closeMarker : Alone y k Anywhere closeMarker closeMarker :=
  .andThen (alone_flag '~') fun _ => .andThen (alone_char '}').commit fun _ => .pure _

/-- What ends a marker is firm. -/
theorem firm_of_closeMarker {β : Type} {f : Bool → Reader β} [∀ strip, Consumes (f strip)] {b : β}
    (h : (closeMarker >>= f) (mid ++ y) = .ok (b, rest ++ y)) : Firm mid := by
  obtain ⟨strip, left, hclose, -, -⟩ := bind_excerpt h
  rcases flag_excerpt hclose with ⟨tail, rfl, hclose⟩ | hclose
  · obtain ⟨last, rfl, -⟩ := commit_char_excerpt hclose
    rfl
  · obtain ⟨last, rfl, -⟩ := commit_char_excerpt hclose
    exact firm_closing (.inr (.inr rfl)) last

instance : Opens closeMarker where
  first h := by
    obtain ⟨b, c₁, hflag, h⟩ := bind_eq_ok h
    obtain ⟨_, c₂, hbrace, h⟩ := bind_eq_ok h
    obtain ⟨-, rfl⟩ := pure_eq_ok h
    rw [char_eq_ok (commit_eq_ok hbrace)] at hflag
    rcases flag_eq_ok hflag with ⟨-, rfl⟩ | ⟨-, rfl, -⟩
    · exact ⟨'~', _, rfl, rfl, List.suffix_cons _ _⟩
    · exact ⟨'}', _, rfl, rfl, List.suffix_rfl⟩

/-- Reads the front of a marker with a keyword. -/
def tagHead (keyword : List Char) : Reader Unit := do
  let _ ← openMarker '%'
  let _ ← white
  text keyword

/-- A marker with a keyword starts here. -/
def TagHead (keyword cs : List Char) : Prop := ∃ rest, tagHead keyword cs = .ok ((), rest)

/-- The first characters of keywords are no trivia. -/
def Keyword (keyword : List Char) : Prop := ∃ c more, keyword = c :: more ∧ startsToken c = true

theorem Keyword.opens {keyword : List Char} (h : Keyword keyword) : Opens (text keyword) := by
  obtain ⟨c, more, rfl, hc⟩ := h
  exact .text hc more

theorem alone_tagHead {keyword : List Char} (h : Keyword keyword) :
    Alone y k Anywhere (tagHead keyword) (tagHead keyword) :=
  have := h.opens
  .andThen (alone_openMarker '%') fun _ => .whiteBefore fun _ => alone_text keyword

theorem alone_tag {keyword : List Char} (h : Keyword keyword) :
    Alone y k Anywhere (tag keyword) (tag keyword) :=
  have := h.opens
  .andThen (alone_openMarker '%') fun _ => .whiteBefore fun _ =>
    .andThen (alone_text keyword) fun _ => .whiteBefore fun _ =>
      .andThen alone_closeMarker fun _ => .pure _

/-- Where a marker with a keyword is read, its front is part of the excerpt. -/
theorem tagHead_of_front {β : Type} {keyword : List Char} (hk : Keyword keyword)
    {f : Bool → Trivia → Reader β} [hf : ∀ strip before, Consumes (f strip before)] {b : β}
    (hfilled : Filled mid)
    (h : (do let left ← openMarker '%'; let before ← white; text keyword; f left before :
      Reader β) (mid ++ y) = .ok (b, rest ++ y)) : TagHead keyword mid := by
  obtain ⟨strip, c₁, hopen, h⟩ := bind_eq_ok h
  obtain ⟨before, c₂, hwhite, h⟩ := bind_eq_ok h
  obtain ⟨_, c₃, htext, h⟩ := bind_eq_ok h
  have hhead : tagHead keyword (mid ++ y) = .ok ((), c₃) := by
    rw [tagHead, bind_ok hopen, bind_ok hwhite, htext]
  have hc : Consumes (tagHead keyword) := by
    unfold tagHead
    infer_instance
  obtain ⟨left, rfl, -⟩ := suffix_between (hc.leaves hhead) ((hf strip before).leaves h)
  exact ⟨left, alone_tagHead hk (Nat.lt_succ_self _) hfilled hhead trivial⟩

/-- Where a marker with a keyword is read and something behind it, it starts within the excerpt. -/
theorem tagHead_of_tag {β : Type} {keyword : List Char} (hk : Keyword keyword)
    {f : Tag → Reader β} [hf : ∀ mark, Consumes (f mark)] {b : β} (hfilled : Filled mid)
    (h : (tag keyword >>= f) (mid ++ y) = .ok (b, rest ++ y)) : TagHead keyword mid := by
  obtain ⟨mark, left, htag, -, -⟩ := bind_excerpt h
  exact tagHead_of_front hk hfilled htag

/-- One keyword starts a marker, not two. -/
theorem tagHead_other {keyword other : List Char} (h : TagHead keyword cs)
    (hne : ∀ rest, stripText other (keyword ++ rest) = none) :
    tagHead other cs = .error .absent := by
  obtain ⟨rest, h⟩ := h
  obtain ⟨strip, c₁, hopen, h⟩ := bind_eq_ok h
  obtain ⟨before, c₂, hwhite, h⟩ := bind_eq_ok h
  rw [tagHead, bind_ok hopen, bind_ok hwhite, text_eq_ok h, text, ofOption, hne]
  rfl

/-! ## Where pieces end -/

section Pieces

variable {markers markers' : Inner} {body body' : Reader (List Part)}

theorem openMarker_absent {sign : Char} (h : cs.head? ≠ some sign) :
    openMarker sign cs = .error .absent := by
  rw [openMarker, bind_error (char_of_ne h)]

theorem tagHead_absent {keyword : List Char} (h : cs.head? ≠ some '%') :
    tagHead keyword cs = .error .absent := by
  rw [tagHead, bind_error (openMarker_absent h)]

theorem interpolation_absent (h : cs.head? ≠ some '$') :
    interpolation markers cs = .error .absent := by
  rw [interpolation, bind_error (openMarker_absent h)]

/-- What starts with the front of a marker is not there if that front is not. -/
theorem absent_of_tagHead {α : Type} {keyword : List Char} {f : Bool → Trivia → Reader α}
    (h : tagHead keyword cs = .error .absent) :
    (do let left ← openMarker '%'; let before ← white; text keyword; f left before : Reader α) cs =
      .error .absent := by
  cases hopen : openMarker '%' cs with
  | error m =>
    rw [tagHead, bind_error hopen] at h
    rw [bind_error hopen]
    cases h
    rfl
  | ok found =>
    obtain ⟨left, c₁⟩ := found
    cases hwhite : white c₁ with
    | error m => cases hwhite
    | ok found =>
      obtain ⟨before, c₂⟩ := found
      rw [tagHead, bind_ok hopen, bind_ok hwhite] at h
      rw [bind_ok hopen, bind_ok hwhite, bind_error h]

theorem tag_absent {keyword : List Char} (h : tagHead keyword cs = .error .absent) :
    tag keyword cs = .error .absent := absent_of_tagHead h

theorem choice_absent (h : tagHead ['i', 'f'] cs = .error .absent) :
    choice markers body cs = .error .absent := absent_of_tagHead h

theorem loop_absent (h : tagHead ['f', 'o', 'r'] cs = .error .absent) :
    loop markers body cs = .error .absent := absent_of_tagHead h

/-- No piece of a template starts here. -/
theorem part_absent (hliteral : literal kind cs = .error .absent) (hhead : cs.head? ≠ some '$')
    (hif : tagHead ['i', 'f'] cs = .error .absent)
    (hfor : tagHead ['f', 'o', 'r'] cs = .error .absent) :
    part markers kind body cs = .error .absent := by
  rw [part, orElse_absent (bind_error hliteral _), orElse_absent (interpolation_absent hhead),
    orElse_absent (choice_absent hif), loop_absent hfor]

/-- The keywords that go on with a directive or end it. -/
def closingKeywords : List (List Char) :=
  [['e', 'l', 's', 'e'], ['e', 'n', 'd', 'i', 'f'], ['e', 'n', 'd', 'f', 'o', 'r']]

theorem keyword_closing : ∀ keyword ∈ closingKeywords, Keyword keyword := by
  intro keyword h
  simp only [closingKeywords, List.mem_cons, List.not_mem_nil, or_false] at h
  rcases h with rfl | rfl | rfl <;> exact ⟨'e', _, rfl, rfl⟩

/-- The pieces of a template end here: at the end of its text, or at a keyword that is none of its
own. -/
def Stops (kind : TextKind) (rest : List Char) : Prop :=
  TextKind.ends kind rest = true ∨ ∃ keyword ∈ closingKeywords, TagHead keyword rest

theorem Stops.closesText (h : Stops kind rest) : closesText kind rest = true := by
  rcases h with h | ⟨keyword, -, left, h⟩
  · exact Bool.or_eq_true_iff.2 (.inl h)
  · refine Bool.or_eq_true_iff.2 (.inr ?_)
    obtain ⟨strip, c₁, hopen, -⟩ := bind_eq_ok h
    obtain ⟨tail, rfl, -⟩ := openMarker_eq_ok hopen
    rfl

theorem closesText_of_marker (h : startsMarker cs = true) : Reader.closesText kind cs = true :=
  Bool.or_eq_true_iff.2 (.inr h)

theorem ends_head (h : TextKind.ends kind rest = true) :
    rest.head? = some '"' ∨ rest.head? = some '\n' ∨ rest.head? = some '\r' := by
  cases kind with
  | quoted => exact .inl (by simpa [TextKind.ends] using h)
  | nested => cases h
  | heredoc delimiter =>
    obtain ⟨eol, tail, rfl | rfl, rfl, -⟩ := ends_heredoc_iff.1 h
    · exact .inr (.inl rfl)
    · exact .inr (.inr rfl)

/-- Where the pieces end, none of the ways to read one succeeds. -/
theorem Stops.part_absent (h : Stops kind rest) : part markers kind body rest = .error .absent := by
  have hliteral := literal_closed h.closesText
  rcases h with h | ⟨keyword, hk, h⟩
  · have hhead : rest.head? ≠ some '$' ∧ rest.head? ≠ some '%' := by
      rcases ends_head h with h | h | h <;> rw [h] <;> decide
    exact Reader.part_absent hliteral hhead.1 (tagHead_absent hhead.2) (tagHead_absent hhead.2)
  · have hhead : rest.head? ≠ some '$' := by
      obtain ⟨left, h⟩ := h
      obtain ⟨strip, c₁, hopen, -⟩ := bind_eq_ok h
      obtain ⟨tail, rfl, -⟩ := openMarker_eq_ok hopen
      simp
    simp only [closingKeywords, List.mem_cons, List.not_mem_nil, or_false] at hk
    refine Reader.part_absent hliteral hhead (tagHead_other h ?_) (tagHead_other h ?_) <;>
      rcases hk with rfl | rfl | rfl <;> intro rest <;> rfl

/-! ## Pieces -/

theorem alone_interpolation (h : Readable y k markers.free markers'.free) :
    Alone y (k + 1) Anywhere (interpolation markers) (interpolation markers') :=
  have := h.consumes
  .bindTakes (alone_openMarker '$') (fun _ => h.padded.bind
    (fun _ => .andThen alone_closeMarker fun _ => .pure _)
    fun _ hread _ => firm_of_closeMarker hread) fun _ _ _ => trivial

theorem alone_binding : Alone y k (Ends true) binding binding := by
  refine .bind alone_paddedName (fun first => .andThen (alone_flag ',') fun second => ?_) ?_
  · cases second with
    | true => exact alone_paddedName.map fun second => (⟨some first, second⟩ : Binding)
    | false => exact .pure _
  · intro first mid names rest _ hread hends
    rcases flag_excerpt hread with ⟨tail, rfl, -⟩ | hread
    · exact ends_of_startsToken rfl true tail
    · rwa [← List.append_cancel_right (pure_eq_ok hread).2]

section Directives

variable (h : Readable y k markers.line markers'.line) [hbody : Consumes body]
  (hpieces : Alone y k (Stops .nested) body body')

include h hpieces

theorem alone_choice :
    Alone y (k + 1) Anywhere (choice markers body) (choice markers' body') := by
  have hline := h.consumes
  have hif : Opens (text ['i', 'f']) := .text rfl _
  have helse : Keyword ['e', 'l', 's', 'e'] := keyword_closing _ (by simp [closingKeywords])
  have hendif : Keyword ['e', 'n', 'd', 'i', 'f'] := keyword_closing _ (by simp [closingKeywords])
  refine .bindTakes (alone_openMarker '%') (fun left => .whiteBefore fun before =>
    .andThen (alone_text _) fun _ => h.padded.bind (fun test => .andThen alone_closeMarker
      fun right => hpieces.bind (fun yes => .bind (Q := TagHead ['e', 'n', 'd', 'i', 'f']) (.opt ?_ ?_)
        (fun otherwise => .andThen (alone_tag hendif) fun closing => .pure _) ?_) ?_)
      fun _ hread _ => firm_of_closeMarker hread) fun _ _ _ => trivial
  · refine .andThen (alone_tag helse) fun mark => (hpieces.weaken ?_).map fun no => (mark, no)
    exact fun rest hrest => .inr ⟨_, by simp [closingKeywords], hrest⟩
  · exact fun _ _ _ hrest => bind_error (tag_absent (tagHead_other hrest fun rest => rfl)) _
  · exact fun hfilled hread _ => tagHead_of_tag hendif hfilled hread
  · intro yes mid b rest hfilled hread _
    obtain ⟨otherwise, left, hopt, -, hclosing⟩ := bind_excerpt hread
    rcases opt_eq_ok hopt with ⟨found, -, hfound⟩ | ⟨-, -, hleft⟩
    · exact .inr ⟨_, by simp [closingKeywords], tagHead_of_tag helse hfilled hfound⟩
    · obtain rfl := List.append_cancel_right hleft
      exact .inr ⟨_, by simp [closingKeywords], tagHead_of_tag hendif hfilled hclosing⟩

theorem alone_loop :
    Alone y (k + 1) Anywhere (loop markers body) (loop markers' body') := by
  have hline := h.consumes
  have hfor : Opens (text ['f', 'o', 'r']) := .text rfl _
  have hin : Opens (text ['i', 'n']) := .text rfl _
  have hendfor : Keyword ['e', 'n', 'd', 'f', 'o', 'r'] :=
    keyword_closing _ (by simp [closingKeywords])
  refine .bindTakes (alone_openMarker '%') (fun left => .whiteBefore fun before =>
    .andThen (alone_text _) fun _ => alone_binding.bind (fun names =>
      .andThen (alone_text _).commit fun _ => h.padded.bind (fun source =>
        .andThen alone_closeMarker fun right => hpieces.bind (fun pieces =>
          .andThen (alone_tag hendfor) fun closing => .pure _) ?_)
        fun _ hread _ => firm_of_closeMarker hread) ?_) fun _ _ _ => trivial
  · exact fun hfilled hread _ => .inr ⟨_, by simp [closingKeywords],
      tagHead_of_tag hendfor hfilled hread⟩
  · exact fun _ hread _ => Opens.ends _ hread true

end Directives

instance Takes.literal (kind : TextKind) : Takes (literal kind) where
  shorter {cs rest text} h := by
    obtain ⟨hne, hspan⟩ := literal_eq_ok h
    by_contra hlong
    exact hne (spanLiteral_nothing hspan (Nat.le_of_not_lt hlong))

instance Takes.part [Consumes markers.free] [Consumes markers.line] [Consumes body] :
    Takes (part markers kind body) where
  shorter h := by
    have hmarker : ∀ {sign : Char} {f : Bool → Reader Part} [∀ strip, Consumes (f strip)]
        {cs rest : List Char} {piece : Part}, (openMarker sign >>= f) cs = .ok (piece, rest) →
        rest.length < cs.length := fun h => Takes.shorter h
    rcases orElse_eq_ok h with h | ⟨-, h⟩
    · exact Takes.shorter h
    · rcases orElse_eq_ok h with h | ⟨-, h⟩
      · exact hmarker h
      · rcases orElse_eq_ok h with h | ⟨-, h⟩
        · exact hmarker h
        · exact hmarker h

/-- Where something behind the front of a marker is read, that front is part of the excerpt. -/
theorem openMarker_excerpt {β : Type} {sign : Char} {f : Bool → Reader β}
    [hf : ∀ strip, Consumes (f strip)] {b : β}
    (h : (openMarker sign >>= f) (cs ++ y) = .ok (b, rest ++ y)) :
    ∃ tail, cs = sign :: '{' :: tail := by
  obtain ⟨strip, left, hopen, -, -⟩ := bind_excerpt h
  obtain ⟨tail, rfl, hbrace⟩ := char_excerpt hopen
  obtain ⟨more, rfl, -⟩ := char_excerpt hbrace
  exact ⟨more, rfl⟩

section Part

variable (hfree : Readable y k markers.free markers'.free)
  (hline : Readable y k markers.line markers'.line) [hbody : Consumes body]

include hfree hline

/-- A piece that is no literal text starts with a marker of the excerpt. -/
theorem startsMarker_of_piece {piece : Part}
    (h : (interpolation markers <|> choice markers body <|> loop markers body) (cs ++ y) =
      .ok (piece, rest ++ y)) : startsMarker cs = true := by
  have hfree := hfree.consumes
  have hline := hline.consumes
  rcases orElse_eq_ok h with h | ⟨-, h⟩
  · obtain ⟨tail, rfl⟩ := openMarker_excerpt h
    rfl
  · rcases orElse_eq_ok h with h | ⟨-, h⟩
    · obtain ⟨tail, rfl⟩ := openMarker_excerpt h
      rfl
    · obtain ⟨tail, rfl⟩ := openMarker_excerpt h
      rfl

theorem alone_part (hpieces : Alone y k (Stops .nested) body body') :
    Alone y (k + 1) (TextSettled y kind) (part markers kind body) (part markers' kind body') := by
  have hfree' := hfree.consumes
  have hline' := hline.consumes
  refine .orElse ((alone_literal kind).map _) (.weaken (.orElse (alone_interpolation hfree)
    (.orElse (alone_choice hline hpieces) (alone_loop hline hpieces) ?_) ?_)
      fun _ _ => trivial) ?_
  · intro cs rest piece _ hfilled _ hread _
    have hfor : TagHead ['f', 'o', 'r'] cs := tagHead_of_front ⟨'f', _, rfl, rfl⟩ hfilled hread
    exact choice_absent (tagHead_other hfor fun rest => rfl)
  · intro cs rest piece _ _ _ hread _
    have hhead : cs.head? = some '%' := by
      rcases orElse_eq_ok hread with h | ⟨-, h⟩
      · obtain ⟨tail, rfl⟩ := openMarker_excerpt h
        rfl
      · obtain ⟨tail, rfl⟩ := openMarker_excerpt h
        rfl
    exact interpolation_absent (by rw [hhead]; decide)
  · exact fun _ _ _ hread _ => bind_error
      (literal_closed (closesText_of_marker (startsMarker_of_piece hfree hline hread))) _

/-- In front of pieces, literal text ends within the excerpt. -/
theorem textSettled_of_parts {n : Nat} {pieces : List Part}
    (h : partsUpTo markers n kind (cs ++ y) = .ok (pieces, rest ++ y)) (hrest : Stops kind rest) :
    TextSettled y kind cs := by
  have hfree' := hfree.consumes
  have hline' := hline.consumes
  intro hclosed
  cases n with
  | zero => cases h
  | succ n =>
    rcases opt_excerpt h with ⟨piece, left, hpiece, -, -⟩ | ⟨-, h⟩
    · rcases orElse_eq_ok hpiece with hpiece | ⟨-, hpiece⟩
      · rw [bind_error (literal_closed hclosed)] at hpiece
        cases hpiece
      · exact .inl (closesText_of_marker (startsMarker_of_piece hfree hline hpiece))
    · rw [← List.append_cancel_right (pure_eq_ok h).2]
      exact .inl hrest.closesText

end Part

/-- **Pieces are read alone.** The induction is on the bound on their number. -/
theorem alone_partsUpTo {n n' : Nat} (hn : n' ≤ k + 1)
    (hfree : Readable y k markers.free markers'.free)
    (hline : Readable y k markers.line markers'.line) :
    Alone y n' (Stops kind) (partsUpTo markers n kind) (partsUpTo markers' n' kind) := by
  have hfree' := hfree.consumes
  have hline' := hline.consumes
  induction n generalizing n' kind with
  | zero => nofun
  | succ n ih =>
    intro cs rest pieces hlen hfilled h hrest
    obtain ⟨n', rfl⟩ := Nat.exists_eq_add_of_le' (show 1 ≤ n' by omega)
    have hk : n' ≤ k := by omega
    rcases opt_excerpt h with ⟨piece, left, hpiece, hleft, h⟩ | ⟨-, h⟩
    · obtain ⟨more, c₂, hmore, h⟩ := bind_eq_ok h
      obtain ⟨rfl, rfl⟩ := pure_eq_ok h
      have halone := alone_part (hfree.le hk) (hline.le hk)
        (ih (by omega)) hlen hfilled hpiece
        (textSettled_of_parts hfree hline hmore hrest)
      have hshorter := Takes.shorter hpiece
      simp only [List.length_append] at hshorter
      rw [partsUpTo, bind_ok (opt_ok halone)]
      change (partsUpTo markers' n' kind >>= _) left = _
      rw [bind_ok (ih (by omega) (by omega) (hfilled.suffix hleft) hmore hrest)]
      rfl
    · obtain ⟨rfl, hcs⟩ := pure_eq_ok h
      obtain rfl := List.append_cancel_right hcs
      rw [partsUpTo, bind_ok (opt_absent hrest.part_absent)]
      rfl

theorem alone_parts (hfree : Readable y k markers.free markers'.free)
    (hline : Readable y k markers.line markers'.line) :
    Alone y (k + 1) (Stops kind) (parts markers kind) (parts markers' kind) :=
  .bounded fun _ _ hn => alone_partsUpTo hn hfree hline

end Pieces

/-! ## Quoted text -/

theorem stops_quote (cs : List Char) : Stops .quoted ('"' :: cs) := .inl rfl

/-- What is read fails before its value is made into another. -/
theorem return_eq_error {α β : Type} {r : Reader α} {f : α → β} {m : Miss}
    (h : (do return f (← r) : Reader β) cs = .error m) : r cs = .error m := by
  rw [bind_apply] at h
  split at h
  · cases h
  · next hread =>
    cases h
    exact hread

theorem alone_quotedText : Alone y k Anywhere quotedText quotedText := by
  refine .andThen (alone_char '"') fun _ => .bind (Q := fun mid => ∃ tail, mid = '"' :: tail)
    (.opt ((alone_literal .quoted).weaken ?_) ?_)
    (fun content => .andThen (alone_char '"') fun _ => .pure _) ?_
  · rintro _ ⟨tail, rfl⟩ -
    exact .inl rfl
  · rintro _ - - - ⟨tail, rfl⟩
    exact literal_closed rfl
  · intro content mid text rest _ h _
    obtain ⟨tail, rfl, -⟩ := char_excerpt h
    exact ⟨tail, rfl⟩

section Templates

variable {markers markers' : Inner}

/-- A text that is no quoted string in front of pieces is none alone. -/
theorem quotedText_absent (hfree : Readable y k markers.free markers'.free)
    (hline : Readable y k markers.line markers'.line) {pieces : List Part}
    (hlen : cs.length < k) (hfilled : Filled cs)
    (h : parts markers .quoted (cs ++ y) = .ok (pieces, '"' :: rest ++ y))
    (hno : quotedText ('"' :: cs ++ y) = .error .absent) :
    quotedText ('"' :: cs) = .error .absent := by
  have hfree' := hfree.consumes
  have hline' := hline.consumes
  rw [quotedText, List.cons_append, bind_ok (char_self _ _)] at hno
  rw [quotedText, bind_ok (char_self _ _)]
  rcases opt_excerpt h with ⟨piece, left, hpiece, -, h⟩ | ⟨-, h⟩
  · obtain ⟨more, c₂, hmore, h⟩ := bind_eq_ok h
    obtain ⟨rfl, rfl⟩ := pure_eq_ok h
    rcases orElse_eq_ok hpiece with hpiece | ⟨-, hpiece⟩
    · obtain ⟨text, c₃, hliteral, hpiece⟩ := bind_eq_ok hpiece
      obtain ⟨rfl, rfl⟩ := pure_eq_ok hpiece
      have halone := alone_literal (y := y) .quoted hlen hfilled hliteral
        (textSettled_of_parts hfree hline hmore (stops_quote rest))
      rw [bind_ok (opt_ok hliteral)] at hno
      rw [bind_ok (opt_ok halone)]
      by_cases hquote : left.head? = some '"'
      · obtain ⟨tail, rfl⟩ := List.head?_eq_some_iff.1 hquote
        rw [List.cons_append, bind_ok (char_self _ _)] at hno
        cases hno
      · exact bind_error (char_of_ne hquote) _
    · have hmarker := startsMarker_of_piece hfree hline hpiece
      rw [bind_ok (opt_absent (literal_closed (closesText_of_marker hmarker)))]
      refine bind_error (char_of_ne fun hquote => ?_) _
      obtain ⟨tail, rfl⟩ := List.head?_eq_some_iff.1 hquote
      cases hmarker
  · obtain ⟨-, hcs⟩ := pure_eq_ok h
    rw [← hcs] at hno
    have hliteral : literal .quoted ('"' :: rest ++ y) = .error .absent := literal_closed rfl
    rw [bind_ok (opt_absent hliteral), List.cons_append, bind_ok (char_self _ _)] at hno
    cases hno

theorem alone_quotedTemplate (hfree : Readable y k markers.free markers'.free)
    (hline : Readable y k markers.line markers'.line) :
    Alone y (k + 1) Anywhere (quotedTemplate markers) (quotedTemplate markers') := by
  have hfree' := hfree.consumes
  have hline' := hline.consumes
  refine .orElse (alone_quotedText.map Expr.string) ?_ ?_
  · refine .bindTakes (alone_char '"') (fun _ => .bind ((alone_parts hfree hline).le (Nat.le_succ k))
      (fun pieces => .andThen (alone_char '"') fun _ => .pure _) ?_) fun _ _ _ => trivial
    intro pieces mid e rest _ h _
    obtain ⟨tail, rfl, -⟩ := char_excerpt h
    exact stops_quote tail
  · intro cs rest e hlen hfilled hno h _
    obtain ⟨left, rfl, hread⟩ := char_excerpt h
    obtain ⟨pieces, last, hpieces, -, hread⟩ := bind_excerpt hread
    obtain ⟨tail, rfl, -⟩ := char_excerpt hread
    refine bind_error (quotedText_absent hfree hline ?_ (hfilled.suffix (List.suffix_cons '"' left))
      hpieces ?_) _
    · simpa using hlen
    · exact return_eq_error hno

end Templates

/-! ## Heredocs -/

/-- A text that starts with no blank. -/
def StartsUnblank (rest : List Char) : Prop := ∃ c tail, rest = c :: tail ∧ isBlankChar c = false

theorem alone_spanBlanks :
    Alone y k StartsUnblank (ofSplit (·.span isBlankChar)) (ofSplit (·.span isBlankChar)) := by
  rintro cs rest blanks _ _ h ⟨c, tail, rfl, hc⟩
  simp only [ofSplit, List.span_eq_takeWhile_dropWhile] at h ⊢
  obtain ⟨hblanks, hrest⟩ := Prod.mk.inj (Except.ok.inj h)
  have hcs : cs = blanks ++ c :: tail := by
    refine excerpt_eq (y := y) _ ?_
    rw [← hblanks, ← hrest, List.takeWhile_append_dropWhile]
  have hall : ∀ b ∈ blanks, isBlankChar b = true :=
    hblanks ▸ List.all_eq_true.1 List.all_takeWhile
  have hspan : (blanks ++ c :: tail).span isBlankChar = (blanks, c :: tail) :=
    Number.span_append hall (by simpa using hc)
  rw [List.span_eq_takeWhile_dropWhile] at hspan
  rw [hcs, hspan]

/-- Blanks and a delimiter behind them. -/
theorem alone_closingDelimiter {delimiter : List Char} (h : Keyword delimiter) :
    Alone y k Anywhere (closingDelimiter delimiter) (closingDelimiter delimiter) := by
  have hopens := h.opens
  refine .bind alone_spanBlanks (fun closing => .andThen (alone_text delimiter) fun _ => .pure _) ?_
  intro closing mid b rest _ hread _
  obtain ⟨c, tail, rfl, hc, -⟩ := Opens.excerpt _ hread
  refine ⟨c, tail, rfl, ?_⟩
  simp only [startsToken, isWhiteChar, Bool.not_eq_true', Bool.or_eq_false_iff] at hc
  exact hc.1.1.1.1

theorem startsDelimiter_of_ok {delimiter : List Char} {closing : Trivia}
    (h : closingDelimiter delimiter cs = .ok (closing, rest)) :
    startsDelimiter delimiter cs = true := by
  obtain ⟨blanks, mid, hblanks, h⟩ := bind_eq_ok h
  obtain ⟨_, c₁, htext, -⟩ := bind_eq_ok h
  simp only [ofSplit, List.span_eq_takeWhile_dropWhile] at hblanks
  rw [startsDelimiter, (Prod.mk.inj (Except.ok.inj hblanks)).2, text_eq_ok htext,
    List.isPrefixOf_iff_prefix]
  exact List.prefix_append _ _

/-- The delimiter of a heredoc is a name. -/
theorem keyword_of_identifier {name : String} (h : commit identifier cs = .ok (name, rest)) :
    Keyword name.toList := by
  have hname := (identifier_eq_ok (commit_eq_ok h)).2.1
  rw [Text.isIdentifier] at hname
  cases hchars : name.toList with
  | nil =>
    rw [hchars] at hname
    cases hname
  | cons c more =>
    rw [hchars, Text.isIdentifierChars, Bool.and_eq_true] at hname
    exact ⟨c, more, rfl, startsToken_of_isIdentifierStart hname.1⟩

instance Consumes.heredocEmpty (delimiter : List Char) : Consumes (heredocEmpty delimiter) := by
  unfold Reader.heredocEmpty
  infer_instance

theorem alone_emptyHeredoc : Alone y k Anywhere emptyHeredoc emptyHeredoc :=
  .andThen (alone_text _) fun _ => .andThen (alone_flag '-') fun _ =>
    .andThenOf alone_identifier (fun h => keyword_of_identifier (commit_ok h)) fun _ hdelimiter =>
      .andThen alone_lineEnd fun _ =>
        .andThen ((alone_closingDelimiter hdelimiter).map fun closing => ([], closing))
          fun _ => .pure ()

section Heredocs

variable {markers markers' : Inner}

instance Consumes.heredocBody [Consumes markers.free] [Consumes markers.line]
    (delimiter : List Char) : Consumes (heredocBody markers delimiter) := by
  unfold Reader.heredocBody
  infer_instance

theorem alone_heredocBody (hfree : Readable y k markers.free markers'.free)
    (hline : Readable y k markers.line markers'.line) {delimiter : List Char}
    (h : Keyword delimiter) :
    Alone y (k + 1) Anywhere (heredocBody markers delimiter) (heredocBody markers' delimiter) := by
  have hfree' := hfree.consumes
  have hline' := hline.consumes
  refine .bind (alone_parts hfree hline) (fun pieces => .andThen alone_lineEnd fun eol =>
    .andThen (alone_closingDelimiter h) fun closing => .pure _) ?_
  intro pieces mid b rest hfilled hread _
  obtain ⟨eol, left, heol, hleft, hread⟩ := bind_excerpt hread
  obtain ⟨closing, last, hclosing, -, -⟩ := bind_excerpt hread
  obtain ⟨hmid, hchars⟩ := lineEnd_eq_ok heol
  obtain rfl := excerpt_eq _ hmid
  have halone := alone_closingDelimiter h (Nat.lt_succ_self _) (hfilled.suffix hleft) hclosing trivial
  exact .inl (ends_heredoc_iff.2 ⟨eol, left, hchars, rfl, startsDelimiter_of_ok halone⟩)

/-- A heredoc, given a reader for its text and its closing delimiter. -/
def heredocOf (body : List Char → Reader (List Part × Trivia)) : Reader Expr := do
  text ['<', '<']
  let indented ← flag '-'
  let delimiter ← commit identifier
  let _ ← lineEnd
  let (pieces, closing) ← body delimiter.toList
  if indented then
    let (columns, stripped) := Heredoc.dedent pieces
    return .heredoc delimiter columns stripped closing
  else
    return .heredoc delimiter none pieces closing

/-- A heredoc has text, or its delimiter stands at the start of its first line. -/
theorem heredoc_cases {e : Expr} (h : heredoc markers cs = .ok (e, rest)) :
    heredocOf (heredocBody markers) cs = .ok (e, rest) ∨ emptyHeredoc cs = .ok ((), rest) := by
  obtain ⟨_, c₁, hopen, h⟩ := bind_eq_ok h
  obtain ⟨indented, c₂, hflag, h⟩ := bind_eq_ok h
  obtain ⟨delimiter, c₃, hname, h⟩ := bind_eq_ok h
  obtain ⟨eol, c₄, heol, h⟩ := bind_eq_ok h
  obtain ⟨⟨pieces, closing⟩, c₅, hbody, h⟩ := bind_eq_ok h
  rcases orElse_eq_ok hbody with hbody | ⟨-, hbody⟩
  · refine .inl ?_
    rw [heredocOf, bind_ok hopen, bind_ok hflag, bind_ok hname, bind_ok heol, bind_ok hbody]
    exact h
  · refine .inr ?_
    have hrest : c₅ = rest := by
      dsimp only at h
      split at h <;> exact (pure_eq_ok h).2.symm
    rw [emptyHeredoc, bind_ok hopen, bind_ok hflag, bind_ok (commit_eq_ok hname), bind_ok heol,
      bind_ok hbody, hrest]
    rfl

theorem heredoc_ok {e : Expr} (h : heredocOf (heredocBody markers) cs = .ok (e, rest)) :
    heredoc markers cs = .ok (e, rest) := by
  obtain ⟨_, c₁, hopen, h⟩ := bind_eq_ok h
  obtain ⟨indented, c₂, hflag, h⟩ := bind_eq_ok h
  obtain ⟨delimiter, c₃, hname, h⟩ := bind_eq_ok h
  obtain ⟨eol, c₄, heol, h⟩ := bind_eq_ok h
  obtain ⟨found, c₅, hbody, h⟩ := bind_eq_ok h
  rw [heredoc, bind_ok hopen, bind_ok hflag, bind_ok hname, bind_ok heol,
    bind_ok (orElse_ok hbody _)]
  exact h

theorem alone_heredoc (hfree : Readable y k markers.free markers'.free)
    (hline : Readable y k markers.line markers'.line) :
    Alone y (k + 1) Anywhere (heredoc markers) (heredoc markers') := by
  have hfree' := hfree.consumes
  have hline' := hline.consumes
  intro cs rest e hlen hfilled h hrest
  rcases heredoc_cases h with h | h
  · refine heredoc_ok ?_
    exact (Alone.andThen (alone_text _) fun _ => .andThen (alone_flag '-') fun indented =>
      .andThenOf alone_identifier.commit keyword_of_identifier fun delimiter hdelimiter =>
        .andThen alone_lineEnd fun eol => .andThen (alone_heredocBody hfree hline hdelimiter)
          fun _ => .ite _ (.pure _) (.pure _)) hlen hfilled h hrest
  · exact absurd (alone_emptyHeredoc hlen hfilled h trivial) hfilled.ne_ok

end Heredocs

end HclOverlay.Hcl.Reader
