import HclOverlay.Proofs.Documents.LineEnds

/-!
# Comments of expressions

Comments are kept in the trivia of a tree, and printing puts trivia where it was read. So the comments
that a tree holds stand in its text in the order of the tree.

* `Occurs` — texts that stand in a text one behind the other.
* `commentsOf` — the comments of trivia; `occurs_commentsOf`, `Occurs.conv`.
* `Expr.trivia` — the trivia that the tree of an expression holds; `Expr.occurs_trivia` by induction on
  the tree.
* `Expr.occurs_comments` — **the comments that a tree holds are printed**.
-/

namespace HclOverlay.Hcl

open Reader

/-! ## Texts in a text -/

/-- Texts stand in a text, one behind the other. -/
def Occurs : List (List Char) → List Char → Prop
  | [], _ => True
  | t :: ts, cs => ∃ front back, cs = front ++ (t ++ back) ∧ Occurs ts back

section

variable {ts us : List (List Char)} {t x y cs : List Char}

theorem Occurs.prepend (h : Occurs ts y) (x : List Char) : Occurs ts (x ++ y) := by
  cases ts with
  | nil => trivial
  | cons t ts =>
    obtain ⟨front, back, rfl, hmore⟩ := h
    exact ⟨x ++ front, back, by simp, hmore⟩

theorem Occurs.append (h : Occurs ts x) (h' : Occurs us y) : Occurs (ts ++ us) (x ++ y) := by
  induction ts generalizing x with
  | nil => exact h'.prepend x
  | cons t ts ih =>
    obtain ⟨front, back, rfl, hmore⟩ := h
    exact ⟨front, back ++ y, by simp, ih hmore⟩

theorem Occurs.extend (h : Occurs ts x) (y : List Char) : Occurs ts (x ++ y) := by
  have hnone : Occurs [] y := trivial
  have hmore := h.append hnone
  rwa [List.append_nil] at hmore

theorem Occurs.cons (h : Occurs ts y) : Occurs (t :: ts) (t ++ y) := ⟨[], y, rfl, h⟩

theorem occurs_singleton (t : List Char) : Occurs [t] t := ⟨[], [], by simp, trivial⟩

theorem Occurs.sublist (h : Occurs ts cs) (hsub : us.Sublist ts) : Occurs us cs := by
  induction hsub generalizing cs with
  | slnil => trivial
  | cons t _ ih =>
    obtain ⟨front, back, rfl, hmore⟩ := h
    exact ((ih hmore).prepend t).prepend front
  | cons_cons t _ ih =>
    obtain ⟨front, back, rfl, hmore⟩ := h
    exact ⟨front, back, rfl, ih hmore⟩

theorem Occurs.infix_of_mem (h : Occurs ts cs) (ht : t ∈ ts) : t <:+: cs := by
  induction ts generalizing cs with
  | nil => cases ht
  | cons u ts ih =>
    obtain ⟨front, back, rfl, hmore⟩ := h
    rcases List.mem_cons.1 ht with rfl | ht
    · exact ⟨front, back, by simp⟩
    · exact (ih hmore ht).trans ⟨front ++ u, [], by simp⟩

/-- Texts in each of the texts that stand in a text. -/
theorem Occurs.flatMap {α : Type} {ps : List α} {text : α → List Char}
    {inside : α → List (List Char)} (h : Occurs (ps.map text) cs)
    (hinside : ∀ p ∈ ps, Occurs (inside p) (text p)) : Occurs (ps.flatMap inside) cs := by
  induction ps generalizing cs with
  | nil => trivial
  | cons p ps ih =>
    obtain ⟨front, back, rfl, hmore⟩ := h
    rw [List.forall_mem_cons] at hinside
    exact (hinside.1.append (ih hmore hinside.2)).prepend front

end

/-! ## Comments of trivia -/

/-- The comments in a text that holds nothing but trivia, found in at most so many steps. -/
def commentsWithin : Nat → List Char → List (List Char)
  | 0, _ => []
  | _ + 1, [] => []
  | steps + 1, c :: rest =>
    match comment? (c :: rest) with
    | some (body, rest) => body :: commentsWithin steps rest
    | none => commentsWithin steps rest

/-- The comments of trivia, in order. -/
def commentsOf (t : Trivia) : List (List Char) := commentsWithin t.length t

/-- A text that is one comment. -/
def IsComment (c : List Char) : Prop := comment? c = some (c, [])

theorem comment?_eq_some {cs body rest : List Char} (h : comment? cs = some (body, rest)) :
    cs = body ++ rest ∧ IsComment body := by
  unfold comment? at h
  split at h
  · next r hline =>
    cases h
    obtain ⟨hsplit, -, -, hother⟩ := lineComment?_eq_some hline
    have hbody := hother [] atLineEnd_nil
    rw [List.append_nil] at hbody
    exact ⟨hsplit, by rw [IsComment, comment?, hbody]⟩
  · obtain ⟨hsplit, -, hother⟩ := inlineComment?_eq_some h
    have hbody := hother []
    rw [List.append_nil] at hbody
    rw [IsComment, ← gapComment?_of_inline hbody true]
    exact ⟨hsplit, rfl⟩

/-- A comment neither starts nor ends with a part of a line end. -/
theorem IsComment.ends {c : List Char} (h : IsComment c) :
    c.head? ≠ some '\n' ∧ c.getLast? ≠ some '\r' := by
  unfold IsComment comment? at h
  split at h
  · next r hline =>
    cases h
    obtain ⟨hn, hr⟩ := lineComment?_chars hline
    exact ⟨fun hhead => hn (List.mem_of_mem_head? hhead), fun hlast => hr (List.mem_of_getLast? hlast)⟩
  · refine ⟨?_, by rw [inlineComment?_getLast? h]; decide⟩
    unfold inlineComment? at h
    split at h
    · simp
    · cases h

theorem commentsWithin_spec (n : Nat) (t : Trivia) :
    Occurs (commentsWithin n t) t ∧ ∀ c ∈ commentsWithin n t, IsComment c := by
  fun_induction commentsWithin n t with
  | case1 => exact ⟨trivial, nofun⟩
  | case2 => exact ⟨trivial, nofun⟩
  | case3 steps c rest body more hcomment ih =>
    obtain ⟨hsplit, hbody⟩ := comment?_eq_some hcomment
    rw [hsplit]
    exact ⟨ih.1.cons, List.forall_mem_cons.2 ⟨hbody, ih.2⟩⟩
  | case4 steps c rest hnone ih => exact ⟨ih.1.prepend [c], ih.2⟩

/-- The comments of trivia stand in it. -/
theorem occurs_commentsOf (t : Trivia) : Occurs (commentsOf t) t := (commentsWithin_spec _ t).1

theorem isComment_of_mem {t : Trivia} {c : List Char} (h : c ∈ commentsOf t) : IsComment c :=
  (commentsWithin_spec _ t).2 c h

/-- Blanks are no comments. -/
theorem commentsOf_of_blank {t : Trivia} (h : ∀ c ∈ t, isBlankChar c = true) : commentsOf t = [] := by
  have hwithin : ∀ n, commentsWithin n t = [] := by
    induction t with
    | nil => intro n; cases n <;> rfl
    | cons c rest ih =>
      rw [List.forall_mem_cons] at h
      intro n
      cases n with
      | zero => rfl
      | succ n =>
        have hnone : comment? (c :: rest) = none := by
          have hc : c = ' ' ∨ c = '\t' := by simpa [isBlankChar] using h.1
          rcases hc with rfl | rfl <;> rfl
        rw [commentsWithin, hnone]
        exact ih h.2 n
  exact hwithin t.length

/-- Comments that keep their own line ends are not disturbed when the line ends around them change. -/
theorem Occurs.conv {conv : List Char → List Char} (hconv : ChangesEnds conv)
    {ts : List (List Char)} {cs : List Char} (h : Occurs ts cs)
    (hts : ∀ c ∈ ts, IsComment c ∧ conv c = c) : Occurs ts (conv cs) := by
  induction ts generalizing cs with
  | nil => trivial
  | cons c ts ih =>
    obtain ⟨front, back, rfl, hmore⟩ := h
    rw [List.forall_mem_cons] at hts
    obtain ⟨⟨hcomment, hsame⟩, hrest⟩ := hts
    obtain ⟨hhead, hlast⟩ := hcomment.ends
    have hne : (c ++ back).head? ≠ some '\n' := by
      cases c with
      | nil => cases hcomment
      | cons d c => exact hhead
    rw [hconv.white front hne, hconv.append c back fun hr => absurd hr hlast, hsame]
    exact ((ih hmore hrest).cons).prepend _

/-! ## The trivia of expressions -/

/-- The trivia of the variables of a `for`. -/
def Binding.trivia (b : Binding) : List Trivia :=
  (b.key.elim [] fun key => [key.before, key.after]) ++ [b.value.before, b.value.after]

/-- The trivia around the names of a path. -/
def pathTrivia (path : List (Padded String)) : List Trivia :=
  path.flatMap fun name => [name.before, name.after]

/-- The trivia of a marker. -/
def Tag.trivia (tag : Tag) : List Trivia := [tag.before, tag.after]

mutual

/-- The trivia that the tree of an expression holds, in order. That in an indented heredoc is left
out, because its lines are indented anew. -/
def Expr.trivia : Expr → List Trivia
  | .template parts => partsTrivia parts
  | .heredoc _ indent parts _ => if indent.isSome then [] else partsTrivia parts
  | .list items _ closing => itemsTrivia items ++ [closing]
  | .object items closing => entriesTrivia items ++ [closing]
  | .parens enclosed => paddedTrivia enclosed
  | .unary _ gap operand => gap :: operand.trivia
  | .binary left op right => left.trivia ++ [op.before, op.after] ++ right.trivia
  | .conditional test beforeMark yes afterColon no =>
    test.trivia ++ [beforeMark] ++ paddedTrivia yes ++ [afterColon] ++ no.trivia
  | .call path args _ closing => pathTrivia path ++ itemsTrivia args ++ [closing]
  | .access subject gap steps => subject.trivia ++ [gap] ++ stepsTrivia steps
  | .forList opening binding source value condition =>
    opening :: binding.trivia ++ paddedTrivia source ++ paddedTrivia value ++
      conditionTrivia condition
  | .forObject opening binding source key value grouping condition =>
    opening :: binding.trivia ++ paddedTrivia source ++ paddedTrivia key ++ paddedTrivia value ++
      grouping.toList ++ conditionTrivia condition
  | _ => []
termination_by structural e => e

/-- The trivia in an expression and around it. -/
def paddedTrivia : Padded Expr → List Trivia
  | ⟨before, item, after⟩ => before :: (item.trivia ++ [after])
termination_by structural p => p

/-- The trivia of expressions separated by commas. -/
def itemsTrivia : List (Padded Expr) → List Trivia
  | [] => []
  | first :: rest => paddedTrivia first ++ itemsTrivia rest
termination_by structural items => items

/-- The trivia of the `if` of a `for` expression. -/
def conditionTrivia : Option (Padded Expr) → List Trivia
  | some test => paddedTrivia test
  | none => []
termination_by structural o => o

/-- The trivia in an object key. -/
def Key.trivia : Key → List Trivia
  | .name _ => []
  | .expr expr => expr.trivia
termination_by structural k => k

/-- The trivia in an object key and around it. -/
def keyTrivia : Padded Key → List Trivia
  | ⟨before, item, after⟩ => before :: (item.trivia ++ [after])
termination_by structural p => p

/-- The trivia of an entry of an object. -/
def Item.trivia : Item → List Trivia
  | ⟨key, _, value, _⟩ => keyTrivia key ++ paddedTrivia value
termination_by structural i => i

/-- The trivia of the entries of an object. -/
def entriesTrivia : List Item → List Trivia
  | [] => []
  | first :: rest => first.trivia ++ entriesTrivia rest
termination_by structural items => items

/-- The trivia of a step into a value. -/
def Step.trivia : Step → List Trivia
  | .attr gap _ => [gap]
  | .position gap _ => [gap]
  | .index enclosed => paddedTrivia enclosed
  | .attrSplat gap => [gap]
  | .fullSplat before after => [before, after]
termination_by structural s => s

/-- The trivia of the steps into a value. -/
def stepsTrivia : List Step → List Trivia
  | [] => []
  | first :: rest => first.trivia ++ stepsTrivia rest
termination_by structural steps => steps

/-- The trivia of a piece of a template. -/
def Part.trivia : Part → List Trivia
  | .literal _ => []
  | .interpolation _ enclosed => paddedTrivia enclosed
  | .choice _ before test yes otherwise closing =>
    [before] ++ paddedTrivia test ++ partsTrivia yes ++ otherwiseTrivia otherwise ++ closing.trivia
  | .loop _ before binding source body closing =>
    before :: binding.trivia ++ paddedTrivia source ++ partsTrivia body ++ closing.trivia
termination_by structural p => p

/-- The trivia of the pieces of a template. -/
def partsTrivia : List Part → List Trivia
  | [] => []
  | first :: rest => first.trivia ++ partsTrivia rest
termination_by structural parts => parts

/-- The trivia of the `else` of a conditional piece. -/
def otherwiseTrivia : Option (Tag × List Part) → List Trivia
  | some branch => branchTrivia branch
  | none => []
termination_by structural o => o

/-- The trivia of a marker `else` and of the text under it. -/
def branchTrivia : Tag × List Part → List Trivia
  | (tag, parts) => tag.trivia ++ partsTrivia parts
termination_by structural b => b

end

/-! ## Printing expressions -/

/-- Texts stand in stretches, whether literal text is escaped or not. -/
def Shown (ts : List (List Char)) (ss : List Stretch) : Prop :=
  ∀ escaped, Occurs ts (join escaped ss)

namespace Shown

variable {ts us : List (List Char)} {ss rs : List Stretch} {text : List Char}

theorem append (h : Shown ts ss) (h' : Shown us rs) : Shown (ts ++ us) (ss ++ rs) := by
  intro escaped
  rw [join_append]
  exact (h escaped).append (h' _)

theorem plain (h : Occurs ts text) : Shown ts (plain text) := by
  intro escaped
  rw [Hcl.plain, join_cons, join_nil, List.append_nil]
  exact h

/-- Stretches without trivia may stand anywhere. -/
theorem nil (ss : List Stretch) : Shown [] ss := fun _ => trivial

theorem skip (h : Shown ts rs) (ss : List Stretch) : Shown ts (ss ++ rs) := (nil ss).append h

theorem extend (h : Shown ts ss) (rs : List Stretch) : Shown ts (ss ++ rs) := by
  have hmore := h.append (nil rs)
  rwa [List.append_nil] at hmore

theorem padded {before after : Trivia} {ts : List Trivia} (h : Shown ts ss) :
    Shown (before :: (ts ++ [after])) (Hcl.plain before ++ ss ++ Hcl.plain after) :=
  ((plain (occurs_singleton before)).append h).append (plain (occurs_singleton after))

end Shown

theorem Binding.occurs_trivia (b : Binding) : Occurs b.trivia b.chars := by
  have hname : ∀ name : Padded String, Occurs [name.before, name.after] (nameChars name) :=
    fun name => ((occurs_singleton name.before).extend name.item.toList).append
      (occurs_singleton name.after)
  obtain ⟨key, value⟩ := b
  cases key with
  | none => exact hname value
  | some key => exact ((hname key).extend [',']).append (hname value)

theorem Tag.occurs_trivia (tag : Tag) (keyword : List Char) :
    Occurs tag.trivia (tag.chars keyword) :=
  ((((occurs_singleton tag.before).prepend _).extend keyword).append
    (occurs_singleton tag.after)).extend tag.strip.closing

theorem occurs_pathTrivia (path : List (Padded String)) : Occurs (pathTrivia path) (pathChars path) := by
  have hname : ∀ name : Padded String, Occurs [name.before, name.after] (nameChars name) :=
    fun name => ((occurs_singleton name.before).extend name.item.toList).append
      (occurs_singleton name.after)
  induction path with
  | nil => trivial
  | cons first rest ih =>
    cases rest with
    | nil => exact hname first
    | cons second rest => exact (hname first).append (ih.prepend [':', ':'])

mutual

/-- **The trivia of an expression** is printed, in order. -/
theorem Expr.shown_trivia (e : Expr) : Shown e.trivia e.stretches := by
  match e with
  | .null => exact .nil _
  | .bool true => exact .nil _
  | .bool false => exact .nil _
  | .number _ _ => exact .nil _
  | .string _ => exact .nil _
  | .variable _ => exact .nil _
  | .template parts => exact ((shown_partsTrivia parts).extend [.closeQuote]).skip [.openQuote]
  | .heredoc _ (some _) _ _ => exact .nil _
  | .heredoc _ none parts _ => exact ((shown_partsTrivia parts).skip _).extend _
  | .list items comma closing =>
    exact ((shown_itemsTrivia items).skip (plain ['['])).append
      (.plain (((occurs_singleton closing).prepend _).extend [']']))
  | .object items closing =>
    exact ((shown_entriesTrivia items).skip (plain ['{'])).append
      (.plain ((occurs_singleton closing).extend ['}']))
  | .parens enclosed => exact ((shown_paddedTrivia enclosed).skip _).extend _
  | .unary op gap operand =>
    exact (Shown.plain ((occurs_singleton gap).prepend op.chars)).append operand.shown_trivia
  | .binary left op right =>
    have hop : Occurs [op.before, op.after] (op.before ++ op.item.chars ++ op.after) :=
      ((occurs_singleton op.before).extend op.item.chars).append (occurs_singleton op.after)
    exact (left.shown_trivia.append (.plain hop)).append right.shown_trivia
  | .conditional test beforeMark yes afterColon no =>
    have hmark : Shown [beforeMark] (plain (beforeMark ++ ['?'])) :=
      .plain ((occurs_singleton beforeMark).extend ['?'])
    have hcolon : Shown [afterColon] (plain (':' :: afterColon)) :=
      .plain ((occurs_singleton afterColon).prepend [':'])
    exact (((test.shown_trivia.append hmark).append (shown_paddedTrivia yes)).append hcolon).append
      no.shown_trivia
  | .call path args ending closing =>
    have hclosing : Shown [closing] (plain (ending.chars ++ closing ++ [')'])) :=
      .plain (((occurs_singleton closing).prepend ending.chars).extend [')'])
    exact ((Shown.plain ((occurs_pathTrivia path).extend ['('])).append
      (shown_itemsTrivia args)).append hclosing
  | .access subject gap steps =>
    exact (subject.shown_trivia.append (.plain (occurs_singleton gap))).append
      (shown_stepsTrivia steps)
  | .forList opening binding source value condition =>
    have hfor : Shown (opening :: binding.trivia)
        (plain ('[' :: (opening ++ ['f', 'o', 'r'] ++ binding.chars ++ ['i', 'n']))) :=
      .plain (((((occurs_singleton opening).extend _).append binding.occurs_trivia).extend _).prepend
        ['['])
    exact ((((hfor.append (shown_paddedTrivia source)).extend (plain [':'])).append
      (shown_paddedTrivia value)).append (shown_conditionTrivia condition)).extend (plain [']'])
  | .forObject opening binding source key value grouping condition =>
    have hfor : Shown (opening :: binding.trivia)
        (plain ('{' :: (opening ++ ['f', 'o', 'r'] ++ binding.chars ++ ['i', 'n']))) :=
      .plain (((((occurs_singleton opening).extend _).append binding.occurs_trivia).extend _).prepend
        ['{'])
    have hgrouping : Shown grouping.toList (plain (groupingChars grouping)) := by
      cases grouping with
      | none => exact .nil _
      | some gap => exact .plain ((occurs_singleton gap).prepend ['.', '.', '.'])
    exact ((((((((hfor.append (shown_paddedTrivia source)).extend (plain [':'])).append
      (shown_paddedTrivia key)).extend (plain ['=', '>'])).append (shown_paddedTrivia value)).append
      hgrouping).append (shown_conditionTrivia condition)).extend (plain ['}']))
termination_by structural e

theorem shown_paddedTrivia (p : Padded Expr) : Shown (paddedTrivia p) (paddedStretches p) := by
  match p with
  | ⟨before, item, after⟩ => exact item.shown_trivia.padded
termination_by structural p

theorem shown_itemsTrivia (items : List (Padded Expr)) :
    Shown (itemsTrivia items) (itemsStretches items) := by
  match items with
  | [] => exact .nil _
  | first :: rest => exact (shown_paddedTrivia first).append (shown_moreItemsTrivia rest)
termination_by structural items

theorem shown_moreItemsTrivia (items : List (Padded Expr)) :
    Shown (itemsTrivia items) (moreItemsStretches items) := by
  match items with
  | [] => exact .nil _
  | first :: rest =>
    exact ((shown_paddedTrivia first).skip (plain [','])).append (shown_moreItemsTrivia rest)
termination_by structural items

theorem shown_conditionTrivia (condition : Option (Padded Expr)) :
    Shown (conditionTrivia condition) (conditionStretches condition) := by
  match condition with
  | none => exact .nil _
  | some test => exact (shown_paddedTrivia test).skip _
termination_by structural condition

theorem Key.shown_trivia (k : Key) : Shown k.trivia k.stretches := by
  match k with
  | .name _ => exact .nil _
  | .expr expr => exact expr.shown_trivia
termination_by structural k

theorem shown_keyTrivia (p : Padded Key) : Shown (keyTrivia p) (keyStretches p) := by
  match p with
  | ⟨before, item, after⟩ => exact item.shown_trivia.padded
termination_by structural p

theorem Item.shown_trivia (i : Item) : Shown i.trivia i.stretches := by
  match i with
  | ⟨key, _, value, _⟩ =>
    exact (((shown_keyTrivia key).extend _).append (shown_paddedTrivia value)).extend _
termination_by structural i

theorem shown_entriesTrivia (items : List Item) :
    Shown (entriesTrivia items) (entriesStretches items) := by
  match items with
  | [] => exact .nil _
  | first :: rest => exact first.shown_trivia.append (shown_entriesTrivia rest)
termination_by structural items

theorem Step.shown_trivia (s : Step) : Shown s.trivia s.stretches := by
  match s with
  | .attr gap name => exact .plain (((occurs_singleton gap).extend name.toList).prepend ['.'])
  | .position gap _ => exact .plain (((occurs_singleton gap).extend _).prepend ['.'])
  | .index enclosed => exact ((shown_paddedTrivia enclosed).skip _).extend _
  | .attrSplat gap => exact .plain (((occurs_singleton gap).extend ['*']).prepend ['.'])
  | .fullSplat before after =>
    exact .plain (((occurs_singleton before).append
      (((occurs_singleton after).extend [']']).prepend ['*'])).prepend ['['])
termination_by structural s

theorem shown_stepsTrivia (steps : List Step) : Shown (stepsTrivia steps) (stepsStretches steps) := by
  match steps with
  | [] => exact .nil _
  | first :: rest => exact first.shown_trivia.append (shown_stepsTrivia rest)
termination_by structural steps

theorem Part.shown_trivia (p : Part) : Shown p.trivia p.stretches := by
  match p with
  | .literal _ => exact .nil _
  | .interpolation strip enclosed => exact ((shown_paddedTrivia enclosed).skip _).extend _
  | .choice strip before test yes otherwise closing =>
    have hif : Shown [before] (plain (strip.opening '%' ++ before ++ ['i', 'f'])) :=
      .plain (((occurs_singleton before).prepend _).extend ['i', 'f'])
    exact ((((hif.append (shown_paddedTrivia test)).extend (plain strip.closing)).append
      (shown_partsTrivia yes)).append (shown_otherwiseTrivia otherwise)).append
      (.plain (closing.occurs_trivia _))
  | .loop strip before binding source body closing =>
    have hfor : Shown (before :: binding.trivia)
        (plain (strip.opening '%' ++ before ++ ['f', 'o', 'r'] ++ binding.chars ++ ['i', 'n'])) :=
      .plain (((((occurs_singleton before).prepend _).extend _).append binding.occurs_trivia).extend _)
    exact (((hfor.append (shown_paddedTrivia source)).extend (plain strip.closing)).append
      (shown_partsTrivia body)).append (.plain (closing.occurs_trivia _))
termination_by structural p

theorem shown_partsTrivia (parts : List Part) : Shown (partsTrivia parts) (partsStretches parts) := by
  match parts with
  | [] => exact .nil _
  | first :: rest => exact first.shown_trivia.append (shown_partsTrivia rest)
termination_by structural parts

theorem shown_otherwiseTrivia (otherwise : Option (Tag × List Part)) :
    Shown (otherwiseTrivia otherwise) (otherwiseStretches otherwise) := by
  match otherwise with
  | none => exact .nil _
  | some branch => exact shown_branchTrivia branch
termination_by structural otherwise

theorem shown_branchTrivia (branch : Tag × List Part) :
    Shown (branchTrivia branch) (branchStretches branch) := by
  match branch with
  | (tag, parts) => exact (Shown.plain (tag.occurs_trivia _)).append (shown_partsTrivia parts)
termination_by structural branch

end

/-- The comments that the tree of an expression holds. -/
def Expr.comments (e : Expr) : List (List Char) := e.trivia.flatMap commentsOf

/-- **The comments of an expression** are printed, in order. -/
theorem Expr.occurs_comments (e : Expr) : Occurs e.comments e.print := by
  have hprint := e.shown_trivia false
  rw [← List.map_id e.trivia] at hprint
  exact hprint.flatMap fun t _ => occurs_commentsOf t

end HclOverlay.Hcl
