import HclOverlay.Proofs.Documents.Places
import HclOverlay.Proofs.Documents.Rereading

/-!
# What stays of a text when blocks change

The text of a document of which some blocks have a new body is the text it was read from with the
spans of these blocks replaced, if the other structures print as they were written. All the trivia
around structures is copied; only structures can differ.

* `UniformEnds` — a text whose line ends are all of one kind; `Restores` — what printing makes of
  the trivia and the line ends of such a text.
* `Edited` — a body of which only some blocks have a new body of their own.
* `replacements`, `untouched` — the new texts of these blocks, and the other structures.
* `Document.print_edited` — **the text of an edited document**.
-/

namespace HclOverlay.Hcl

open Reader Source

/-! ## Line ends -/

/-- A text whose line ends are all line feeds with a carriage return in front, or all without. -/
def UniformEnds (cs : List Char) : Prop :=
  (∀ front back, cs = front ++ '\n' :: back → front.getLast? = some '\r') ∨
    ∀ front back, cs = front ++ '\n' :: back → front.getLast? ≠ some '\r'

/-- A change of line ends that gives the pieces of a text back as they were. -/
structure Restores (conv : List Char → List Char) (source : List Char) : Prop where
  changes : ChangesEnds conv
  /-- pieces keep their line ends, unless one is cut in two -/
  piece {front t back : List Char} : source = front ++ (t ++ back) →
    (front.getLast? = some '\r' → t.head? ≠ some '\n') → conv t = t
  lineEnd {front eol back : List Char} : source = front ++ (eol ++ back) →
    eol = ['\n'] ∨ eol = ['\r', '\n'] → front.getLast? ≠ some '\r' → conv ['\n'] = eol

/-- Without carriage returns nothing has to be changed. -/
theorem restores_id {source : List Char}
    (h : ∀ front back, source = front ++ '\n' :: back → front.getLast? ≠ some '\r') :
    Restores id source where
  changes := changesEnds_id
  piece _ _ := rfl
  lineEnd {front eol back} hsource heol _ := by
    rcases heol with rfl | rfl
    · rfl
    · exact absurd List.getLast?_concat (h (front ++ ['\r']) back (by simpa using hsource))

theorem go_append (last : Char) (x y : List Char) :
    ModuleFile.allCarriageReturns.go last (x ++ y) =
      (ModuleFile.allCarriageReturns.go last x &&
        ModuleFile.allCarriageReturns.go (x.getLast?.getD last) y) := by
  induction x generalizing last with
  | nil => rfl
  | cons c x ih =>
    rw [List.cons_append, ModuleFile.allCarriageReturns.go, ModuleFile.allCarriageReturns.go, ih,
      Bool.and_assoc, List.getLast?_cons]
    rfl

/-- Where every line feed comes after a carriage return, all of them are given back. -/
theorem restoreReturns_of_go {last : Char} {x : List Char}
    (h : ModuleFile.allCarriageReturns.go last x = true)
    (hlast : last = '\r' → x.head? ≠ some '\n') : restoreReturns x = x := by
  fun_induction ModuleFile.dropCarriageReturns x generalizing last with
  | case1 => rfl
  | case2 rest ih =>
    simp only [ModuleFile.allCarriageReturns.go, Bool.and_eq_true] at h
    rw [restoreReturns_return_line, ih h.2.2 fun heq => absurd heq (by decide)]
  | case3 c rest hcut ih =>
    rw [ModuleFile.allCarriageReturns.go, Bool.and_eq_true, Bool.or_eq_true, bne_iff_ne,
      beq_iff_eq] at h
    obtain ⟨hc, hmore⟩ := h
    have hline : c ≠ '\n' := by
      rintro rfl
      exact hc.elim (fun hc => hc rfl) fun hc => hlast hc rfl
    have hhead : c = '\r' → rest.head? ≠ some '\n' := by
      intro hc hhead
      cases rest with
      | nil => cases hhead
      | cons d more => exact hcut more hc (congrArg (· :: more) (Option.some.inj hhead))
    rw [restoreReturns_cons hline hhead, ih hmore hhead]

theorem getLast?_of_allCarriageReturns {source front back : List Char}
    (h : ModuleFile.allCarriageReturns source = true) (hsource : source = front ++ '\n' :: back) :
    front.getLast? = some '\r' := by
  rw [ModuleFile.allCarriageReturns, Bool.and_eq_true, hsource, go_append, Bool.and_eq_true] at h
  have hlast := h.2.2
  cases hfront : front.getLast? with
  | none => simp [ModuleFile.allCarriageReturns.go, hfront] at hlast
  | some c =>
    rw [hfront, ModuleFile.allCarriageReturns.go, Bool.and_eq_true] at hlast
    simpa using hlast.1

/-- With a carriage return in front of every line feed, printing gives all of them back. -/
theorem restores_restoreReturns {source : List Char}
    (h : ModuleFile.allCarriageReturns source = true) : Restores restoreReturns source where
  changes := changesEnds_restoreReturns
  piece {front t back} hsource hcut := by
    rw [ModuleFile.allCarriageReturns, Bool.and_eq_true, hsource, go_append, go_append,
      Bool.and_eq_true, Bool.and_eq_true] at h
    refine restoreReturns_of_go h.2.2.1 fun hlast => ?_
    cases hfront : front.getLast? with
    | none => simp [hfront] at hlast
    | some c =>
      rw [hfront] at hlast hcut
      exact hcut (congrArg some hlast)
  lineEnd {front eol back} hsource heol hcut := by
    rcases heol with rfl | rfl
    · exact absurd (getLast?_of_allCarriageReturns h hsource) hcut
    · rfl

theorem go_of_all {last : Char} {x : List Char}
    (h : ∀ front back, x = front ++ '\n' :: back → front.getLast?.getD last = '\r') :
    ModuleFile.allCarriageReturns.go last x = true := by
  induction x generalizing last with
  | nil => rfl
  | cons c x ih =>
    rw [ModuleFile.allCarriageReturns.go, Bool.and_eq_true, Bool.or_eq_true, bne_iff_ne,
      beq_iff_eq, ← Decidable.imp_iff_not_or]
    refine ⟨fun hc => h [] x (by rw [hc]; rfl), ih fun front back hx => ?_⟩
    have hlast := h (c :: front) back (by rw [hx]; rfl)
    rwa [List.getLast?_cons] at hlast

/-- Printing gives uniform line ends back. -/
theorem restores_of_uniform {source : List Char} (h : UniformEnds source) :
    Restores (if ModuleFile.allCarriageReturns source then restoreReturns else id) source := by
  split
  · next hall => exact restores_restoreReturns hall
  · next hall =>
    refine restores_id fun front back hx => ?_
    rcases h with hends | hends
    · refine absurd ?_ hall
      rw [ModuleFile.allCarriageReturns, Bool.and_eq_true]
      exact ⟨List.contains_iff_mem.2 (by simp [hx]),
        go_of_all fun front back hx => by rw [hends _ _ hx]; rfl⟩
    · exact hends front back hx

/-! ## Edited bodies -/

/-- The rank of the next block behind a structure. -/
def Structure.nextRank (rank : Nat) : Structure → Nat
  | .attr _ => rank
  | .block _ => rank + 1

/-- Whether a structure is a block whose rank is among the written ones. -/
def Structure.isWritten (written : List Nat) (rank : Nat) : Structure → Bool
  | .attr _ => false
  | .block _ => written.contains rank

/-- A structure that is the same, or a written block with another body. -/
inductive Structure.EditedTo (written : List Nat) (rank : Nat) : Structure → Structure → Prop
  | same (s : Structure) : EditedTo written rank s s
  | body (b : Block) (body : List Structure) (h : rank ∈ written) :
      EditedTo written rank (.block b) (.block { b with body := body })

/-- Structures, the first block among them with the given rank, of which only written blocks have
another body. -/
inductive Edited (written : List Nat) : Nat → List Structure → List Structure → Prop
  | nil (rank : Nat) : Edited written rank [] []
  | cons {rank : Nat} {s t : Structure} {ss ts : List Structure} (h : s.EditedTo written rank t)
      (more : Edited written (s.nextRank rank) ss ts) : Edited written rank (s :: ss) (t :: ts)

/-- The structures that are no written blocks. -/
def untouched (written : List Nat) : Nat → List Structure → List Structure
  | _, [] => []
  | rank, s :: rest =>
    let more := untouched written (s.nextRank rank) rest
    if s.isWritten written rank then more else s :: more

/-- The spans of the written blocks with their new texts. -/
def replacements (conv : List Char → List Char) (written : List Nat) :
    Nat → List Structure → List (Span × List Char)
  | _, [] => []
  | rank, s :: rest =>
    let more := replacements conv written (s.nextRank rank) rest
    match s.span? with
    | some span => if s.isWritten written rank then (span, conv s.core) :: more else more
    | none => more

/-- The spans of the written blocks. -/
def writtenSpans (written : List Nat) : Nat → List Structure → List Span
  | _, [] => []
  | rank, s :: rest =>
    let more := writtenSpans written (s.nextRank rank) rest
    match s.span? with
    | some span => if s.isWritten written rank then span :: more else more
    | none => more

variable {written : List Nat} {rank : Nat} {s t : Structure} {ss ts : List Structure}

namespace Structure.EditedTo

theorem before_eq (h : s.EditedTo written rank t) : t.before = s.before := by
  cases h <;> rfl

theorem after_eq (h : s.EditedTo written rank t) : t.after = s.after := by
  cases h <;> rfl

theorem span_eq (h : s.EditedTo written rank t) : t.span? = s.span? := by
  cases h <;> rfl

theorem nextRank_eq (h : s.EditedTo written rank t) : t.nextRank rank = s.nextRank rank := by
  cases h <;> rfl

theorem isWritten_eq (h : s.EditedTo written rank t) :
    t.isWritten written rank = s.isWritten written rank := by
  cases h <;> rfl

theorem eq_of_not_written (h : s.EditedTo written rank t)
    (hs : s.isWritten written rank = false) : t = s := by
  cases h with
  | same => rfl
  | body b body h =>
    rw [Structure.isWritten, List.contains_iff_mem.2 h] at hs
    cases hs

end Structure.EditedTo

theorem Edited.refl (written : List Nat) (rank : Nat) (ss : List Structure) :
    Edited written rank ss ss := by
  induction ss generalizing rank with
  | nil => exact .nil rank
  | cons s ss ih => exact .cons (.same s) (ih _)

/-- More ranks may be called written. -/
theorem Edited.mono {more : List Nat} (h : Edited written rank ss ts)
    (hsub : ∀ n ∈ written, n ∈ more) : Edited more rank ss ts := by
  induction h with
  | nil => exact .nil _
  | cons hst _ ih =>
    refine .cons ?_ ih
    cases hst with
    | same => exact .same _
    | body b body hb => exact .body b body (hsub _ hb)

theorem writtenSpans_nil (rank : Nat) (ss : List Structure) : writtenSpans [] rank ss = [] := by
  induction ss generalizing rank with
  | nil => rfl
  | cons s ss ih =>
    have hs : s.isWritten [] rank = false := by cases s <;> rfl
    rw [writtenSpans, ih, hs]
    split <;> rfl

/-- Blocks keep the spans they were read from. -/
theorem Edited.spans_eq (h : Edited written rank ss ts) (conv : List Char → List Char) :
    (replacements conv written rank ts).map Prod.fst = writtenSpans written rank ss := by
  induction h with
  | nil => rfl
  | cons hst _ ih =>
    rw [← hst.nextRank_eq] at ih
    rw [replacements, writtenSpans, ← hst.span_eq, ← hst.isWritten_eq, ← hst.nextRank_eq]
    split
    · split
      · rw [List.map_cons, ih]
      · exact ih
    · exact ih

/-- Bodies may be changed again. -/
theorem Edited.trans {us : List Structure} (h : Edited written rank ss ts)
    (h' : Edited written rank ts us) : Edited written rank ss us := by
  induction h generalizing us with
  | nil => exact h'
  | cons hst _ ih =>
    cases h' with
    | cons htu more =>
      rw [hst.nextRank_eq] at more
      refine .cons ?_ (ih more)
      cases hst with
      | same => exact htu
      | body b body hb =>
        cases htu with
        | same => exact .body b body hb
        | body _ body' _ => exact .body b body' hb

theorem edited_modifyNthBlock {f : Block → Block} (hf : ∀ b, ∃ body, f b = { b with body := body })
    {n : Nat} (hn : rank + n ∈ written) (ss : List Structure) :
    Edited written rank ss (modifyNthBlock f n ss) := by
  induction ss generalizing n rank with
  | nil => cases n <;> exact .nil rank
  | cons s ss ih =>
    cases s with
    | attr a => exact .cons (.same _) (ih hn)
    | block b =>
      cases n with
      | zero =>
        obtain ⟨body, hbody⟩ := hf b
        rw [modifyNthBlock, hbody]
        exact .cons (.body b body hn) (.refl written _ ss)
      | succ n => exact .cons (.same _) (ih (by rwa [Structure.nextRank, Nat.add_assoc, Nat.add_comm 1]))

/-! ## Lines -/

/-- The text of structures, with or without the last line end. -/
def linesOf (ended : Bool) (ss : List Structure) : List Char :=
  if ended then printLines ss else (printLines ss).dropLast

theorem linesOf_cons (ended : Bool) (s : Structure) (h : ended = true ∨ ss ≠ []) :
    linesOf ended (s :: ss) = s.before ++ (s.core ++ (s.after ++ '\n' :: linesOf ended ss)) := by
  cases ended with
  | true => simp [linesOf, printLines, s.print_eq]
  | false =>
    have hne : ss ≠ [] := h.resolve_left Bool.false_ne_true
    simp [linesOf, dropLast_printLines, hne, s.print_eq]

theorem linesOf_singleton (s : Structure) :
    linesOf false [s] = s.before ++ (s.core ++ s.after) := by
  simp [linesOf, dropLast_printLines, s.print_eq]

/-- Structures without a line end at the end are not none. -/
theorem Placed.ended_or_ne_nil {front cs rest : List Char} {ended : Bool}
    (h : Placed front ss ended cs rest) : ended = true ∨ ss ≠ [] := by
  cases h with
  | nil => exact .inl rfl
  | last => exact .inr (List.cons_ne_nil _ _)
  | cons => exact .inr (List.cons_ne_nil _ _)

theorem Edited.ne_nil (h : Edited written rank ss ts) (hne : ss ≠ []) : ts ≠ [] := by
  cases h with
  | nil => exact hne
  | cons => exact List.cons_ne_nil _ _

/-- Replaced spans begin behind the text in front of all structures. -/
theorem Placed.le_start {front cs rest : List Char} {ended : Bool}
    (h : Placed front ss ended cs rest) (he : Edited written rank ss ts)
    (conv : List Char → List Char) :
    ∀ e ∈ replacements conv written rank ts,
      byteSize front ≤ e.1.start ∧ e.1.start ≤ e.1.stop := by
  have hstands : ∀ {front core : List Char} {s : Structure}, StandsAt front s core →
      ∀ span ∈ s.span?, byteSize front ≤ span.start ∧ span.start ≤ span.stop := by
    intro front core s h span hspan
    rw [h.span] at hspan
    cases hspan
    simp only [byteSize_append]
    omega
  -- the edit of a structure that was written starts behind the text in front of it
  have hcons : ∀ {front core : List Char} {rank : Nat} {s t : Structure} {ts : List Structure},
      StandsAt front s core → s.EditedTo written rank t →
      (∀ e ∈ replacements conv written (t.nextRank rank) ts,
        byteSize front ≤ e.1.start ∧ e.1.start ≤ e.1.stop) →
      ∀ e ∈ replacements conv written rank (t :: ts),
        byteSize front ≤ e.1.start ∧ e.1.start ≤ e.1.stop := by
    intro front core rank s t ts hs hst hmore e he
    rw [replacements, hst.span_eq, hs.span] at he
    split at he
    · next span hspan =>
      split at he
      · rcases List.mem_cons.1 he with rfl | he
        · exact hstands hs span (hs.span.trans hspan)
        · exact hmore e he
      · exact hmore e he
    · exact hmore e he
  induction h generalizing rank ts with
  | nil =>
    cases he
    nofun
  | last hs =>
    cases he with
    | cons hst more =>
      cases more
      exact hcons hs hst nofun
  | cons hs heol _ ih =>
    cases he with
    | cons hst more =>
      refine hcons hs hst fun e he => ?_
      rw [hst.nextRank_eq] at he
      have hle := ih more e he
      simp only [byteSize_append] at hle
      omega

/-! ## Text -/

section Text

variable {conv : List Char → List Char} {source : List Char}

theorem core_block (b : Block) : ∃ most, (Structure.block b).core = most ++ ['}'] := by
  have hprint := Block.print_append { b with before := [], after := [] } []
  rw [List.append_nil] at hprint
  refine ⟨b.kind.toList ++ (b.gap ++ (b.labels.flatMap Label.print ++ '{' ::
    b.layout.print b.body)), ?_⟩
  rw [Structure.core, hprint]
  simp

/-- A structure opens with a name. -/
theorem core_opens (h : s.Shaped) (hst : s.EditedTo written rank t) (y : List Char) :
    (t.core ++ y).head? ≠ some '\n' := by
  have hname : ∀ {name : String} (y : List Char), Text.isIdentifier name = true →
      (name.toList ++ y).head? ≠ some '\n' := by
    intro name y hid hhead
    obtain ⟨c, more, heq, -, hn, -⟩ := isIdentifier_toList hid
    rw [heq] at hhead hn
    exact hn (List.mem_cons.2 (.inl (Option.some.inj hhead).symm))
  have hblock : ∀ b : Block, Text.isIdentifier b.kind = true →
      ((Structure.block b).core ++ y).head? ≠ some '\n' := by
    intro b hid
    rw [Structure.core, Block.print_append]
    exact hname _ hid
  cases hst with
  | body b body _ =>
    cases h with
    | block head _ _ _ => exact hblock { b with body := body } head.kind
  | same =>
    cases h with
    | attr h =>
      rw [Structure.core, List.append_assoc]
      exact hname _ h.name
    | @block b head _ _ _ => exact hblock b head.kind

/-- Up to a structure the text is kept; the structure itself is replaced if it is written. -/
theorem replaceSpans_structure {front core : List Char} (hs : StandsAt front s core)
    (hst : s.EditedTo written rank t)
    (hmore : ∀ e ∈ replacements conv written (t.nextRank rank) ts,
      byteSize (front ++ (s.before ++ core)) ≤ e.1.start ∧ e.1.start ≤ e.1.stop)
    (tail : List Char) :
    replaceSpans (byteSize front) (replacements conv written rank (t :: ts))
        (s.before ++ (core ++ tail)) =
      s.before ++ ((if s.isWritten written rank then conv t.core else core) ++
        replaceSpans (byteSize (front ++ (s.before ++ core)))
          (replacements conv written (t.nextRank rank) ts) tail) := by
  rw [replacements, hst.span_eq, hs.span, hst.isWritten_eq]
  simp only [byteSize_append] at hmore ⊢
  split
  · rw [replaceSpans_append _ _ (by simp), replaceSpans_cons, Nat.add_assoc]
  · rw [← List.append_assoc, replaceSpans_append _ _ ?_, List.append_assoc, byteSize_append]
    intro e he
    rw [byteSize_append]
    exact hmore e (List.mem_of_mem_head? he)

/-- The text of a written block does not end within a line end, nor does that of a structure which
prints as it was written. -/
theorem core_getLast? (hconv : ChangesEnds conv) {front core : List Char}
    (hs : StandsAt front s core) (hst : s.EditedTo written rank t)
    (hsame : s.isWritten written rank = false → conv s.core = core) :
    t.core.getLast? ≠ some '\r' := by
  intro hlast
  cases hwritten : s.isWritten written rank with
  | true =>
    cases t with
    | attr a =>
      cases hst
      cases hwritten
    | block b =>
      obtain ⟨most, hmost⟩ := core_block b
      rw [hmost, List.getLast?_concat] at hlast
      cases hlast
  | false =>
    obtain rfl := hst.eq_of_not_written hwritten
    obtain ⟨front, hfront⟩ : ∃ front, t.core = front ++ ['\r'] := by
      obtain ⟨front, hfront⟩ := List.getLast?_eq_some_iff.1 hlast
      exact ⟨front, hfront⟩
    have hcore := hsame hwritten
    rw [hfront, hconv.append front ['\r'] (fun _ => by decide), hconv.same ['\r'] (by decide)] at hcore
    obtain ⟨most, c, rfl, hc⟩ := hs.last
    obtain ⟨-, heq⟩ := List.append_inj' hcore rfl
    cases heq
    cases hc

/-- The trivia behind a structure does not end within a line end. -/
theorem after_getLast? {core after : List Char}
    (hlast : ∃ most c, core = most ++ [c] ∧ isWhiteChar c = false) (hafter : Tails false after)
    (front : List Char) : (front ++ (core ++ after)).getLast? ≠ some '\r' := by
  obtain ⟨most, c, rfl, hc⟩ := hlast
  have hcore : (front ++ (most ++ [c])).getLast? ≠ some '\r' := by
    rw [← List.append_assoc, List.getLast?_concat]
    rintro h
    cases h
    cases hc
  have hlast : after.getLast? ≠ some '\r' := by
    cases hafter with
    | trivia h => exact h.getLast?_ne
    | @comment t body h hbody =>
      obtain ⟨-, hr⟩ := lineComment?_chars hbody
      rw [List.getLast?_append]
      cases hb : body.getLast? with
      | none => simpa [hb] using h.getLast?_ne
      | some d =>
        rintro hd
        obtain rfl : d = '\r' := by simpa [hb] using hd
        exact hr (List.mem_of_getLast? hb)
  rw [← List.append_assoc, List.getLast?_append]
  cases h : after.getLast? with
  | none => simpa [h] using hcore
  | some d => simpa [h] using hlast

theorem Structure.Shaped.after (h : s.Shaped) : Tails false s.after := by
  cases h with
  | @attr a h =>
    cases ha : a.after with
    | none =>
      rw [Structure.after, ha]
      exact .trivia .nil
    | some t =>
      rw [Structure.after, ha]
      exact h.after t ha
  | block head _ _ _ => exact head.after

/-- A structure in front of more text, and where the text of it comes from. -/
theorem conv_structure (hconv : Restores conv source) {front core tail : List Char}
    (hsource : source = front ++ (s.before ++ (core ++ (s.after ++ tail))))
    (hfront : front.getLast? ≠ some '\r') (hs : StandsAt front s core)
    (hst : s.EditedTo written rank t) (hshaped : s.Shaped)
    (hsame : s.isWritten written rank = false → conv s.core = core) (more : List Char) :
    conv (t.before ++ (t.core ++ (t.after ++ more))) =
      s.before ++ ((if s.isWritten written rank then conv t.core else core) ++
        (s.after ++ conv more)) := by
  have hbefore : conv s.before = s.before :=
    hconv.piece hsource fun h => absurd h hfront
  have hafter : conv s.after = s.after := by
    have hsplit : source = (front ++ (s.before ++ core)) ++ (s.after ++ tail) := by
      simpa using hsource
    refine hconv.piece hsplit fun h => ?_
    obtain ⟨most, c, rfl, hc⟩ := hs.last
    rw [← List.append_assoc, ← List.append_assoc, List.getLast?_concat] at h
    cases h
    cases hc
  have hcore : conv t.core = if s.isWritten written rank then conv t.core else core := by
    split
    · rfl
    · next h =>
      rw [hst.eq_of_not_written (by simpa using h)]
      exact hsame (by simpa using h)
  rw [hst.before_eq, hst.after_eq, hconv.changes.white s.before (core_opens hshaped hst _), hbefore,
    hconv.changes.append t.core _ fun h =>
      absurd h (core_getLast? hconv.changes hs hst hsame),
    hconv.changes.tail_append hshaped.after, hafter, ← hcore]

end Text

theorem core_of_untouched {conv : List Char → List Char} {source front core tail : List Char}
    (hsame : ∀ u ∈ untouched written rank (s :: ss), ∀ span ∈ u.span?,
      conv u.core = span.text source)
    (hsource : source = front ++ (s.before ++ (core ++ tail))) (hs : StandsAt front s core)
    (h : s.isWritten written rank = false) : conv s.core = core := by
  rw [hsame s (by simp [untouched, h]) _ hs.span, hsource, ← List.append_assoc]
  exact Span.text_append _ _ _

/-- **Lines of an edited body**: everything outside of the written blocks is copied. The induction is
on where the structures stand, along which the text in front of them grows. -/
theorem Placed.conv_linesOf {conv : List Char → List Char} {source front cs rest : List Char}
    {ended : Bool} (h : Placed front ss ended cs rest) (hconv : Restores conv source)
    (hsource : source = front ++ cs) (hfront : front.getLast? ≠ some '\r')
    (he : Edited written rank ss ts) (hshaped : ∀ s ∈ ss, s.Shaped)
    (hsame : ∀ s ∈ untouched written rank ss, ∀ span ∈ s.span?,
      conv s.core = span.text source) :
    conv (linesOf ended ts ++ rest) =
      replaceSpans (byteSize front) (replacements conv written rank ts) cs := by
  induction h generalizing rank ts with
  | nil front rest =>
    cases he
    have hrest : source = front ++ (rest ++ []) := by simpa using hsource
    exact hconv.piece hrest fun h => absurd h hfront
  | @last front core s hs =>
    cases he with
    | @cons _ _ t _ _ hst more =>
      cases more
      have hsplit : source = front ++ (s.before ++ (core ++ (s.after ++ []))) := by
        simpa using hsource
      have hcore := conv_structure hconv hsplit hfront hs hst (hshaped s List.mem_cons_self)
        (core_of_untouched hsame hsplit hs) []
      rw [hconv.changes.nil, List.append_nil, List.append_nil] at hcore
      rw [linesOf_singleton, List.append_nil, hcore, replaceSpans_structure hs hst (by simp [replacements]),
        replacements, replaceSpans_nil]
  | @cons front core eol cs rest s ss ended hs heol hplaced ih =>
    cases he with
    | @cons _ _ t _ ts hst more =>
      have hs_shaped := hshaped s List.mem_cons_self
      -- the line is its structure and a line end, and more lines are behind it
      have hcore := conv_structure hconv hsource hfront hs hst hs_shaped
        (core_of_untouched hsame hsource hs) ('\n' :: (linesOf ended ts ++ rest))
      have hended : ended = true ∨ ts ≠ [] := hplaced.ended_or_ne_nil.imp_right more.ne_nil
      have heol' : conv ['\n'] = eol := by
        have hsplit : source = (front ++ s.before ++ (core ++ s.after)) ++ (eol ++ cs) := by
          simpa using hsource
        exact hconv.lineEnd hsplit heol (after_getLast? hs.last hs_shaped.after _)
      have hline : conv ('\n' :: (linesOf ended ts ++ rest)) =
          eol ++ conv (linesOf ended ts ++ rest) := by
        rw [← heol']
        exact hconv.changes.append ['\n'] _ (by simp)
      have hfront' : (front ++ (s.before ++ (core ++ (s.after ++ eol)))).getLast? ≠ some '\r' := by
        rcases heol with rfl | rfl <;> simp [← List.append_assoc]
      have hmore := ih (by simpa using hsource) hfront' more
        (fun u hu => hshaped u (List.mem_cons_of_mem _ hu))
        (fun u hu => hsame u (by rw [untouched]; split; exacts [hu, List.mem_cons_of_mem _ hu]))
      -- the edits of those lines start behind this line, so it can be split off
      have hle := hplaced.le_start more conv
      have hbyte : byteSize (front ++ (s.before ++ core)) ≤
          byteSize (front ++ (s.before ++ (core ++ (s.after ++ eol)))) := by
        simp only [byteSize_append]
        omega
      rw [linesOf_cons ended t hended]
      simp only [List.append_assoc, List.cons_append]
      rw [hcore, hline, hmore, replaceSpans_structure hs hst, hst.nextRank_eq]
      · rw [← List.append_assoc s.after eol cs, replaceSpans_append]
        · simp [Nat.add_assoc]
        · intro e he
          have he := hle e (List.mem_of_mem_head? he)
          simp only [byteSize_append] at he ⊢
          omega
      · rw [hst.nextRank_eq]
        exact fun e he => ⟨Nat.le_trans hbyte (hle e he).1, (hle e he).2⟩

/-- **The text of an edited document**: the text it was read from with the spans of the written
blocks replaced, if the other structures print as they were written. -/
theorem Document.print_edited {conv : List Char → List Char} {source : String} {d d' : Document}
    (h : Document.read? source = some d) (hconv : Restores conv source.toList)
    (he : Edited written 0 d.structures d'.structures) (hends : d'.endsLine = d.endsLine)
    (hclosing : d'.closing = d.closing)
    (hsame : ∀ s ∈ untouched written 0 d.structures, ∀ span ∈ s.span?,
      conv s.core = span.text source.toList) :
    conv d'.print =
      replaceSpans 0 (replacements conv written 0 d'.structures) source.toList := by
  have hplaced := (Document.placed h).conv_linesOf hconv rfl nofun he
    (Document.shaped_of_read? h).structures hsame
  rw [Document.print, hends, hclosing]
  exact hplaced

end HclOverlay.Hcl
