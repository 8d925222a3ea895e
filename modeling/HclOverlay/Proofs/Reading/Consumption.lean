import HclOverlay.Proofs.Documents.Shape

/-!
# Readers only take characters off the front

What a reader leaves is an end of the text it was given: it neither changes the text nor skips
anything inside it. So what was read is a stretch of the text, and the offsets that are found from
what is left are those of the stretch. For readers that are made from others this needs no proof of
its own, so it is a class.

* `Consumes` — a reader that leaves an end of the text.
* `Consumes.expr`, `Consumes.structuresWithin` — expressions and bodies, by induction on the depth.
-/

namespace HclOverlay.Hcl.Reader

variable {α β : Type}

/-- A reader that leaves an end of the text. -/
class Consumes (r : Reader α) : Prop where
  leaves {cs rest : List Char} {a : α} : r cs = .ok (a, rest) → rest <:+ cs

/-! ## Readers made from readers -/

instance Consumes.pure (a : α) : Consumes (pure a : Reader α) where
  leaves h := (pure_eq_ok h).2 ▸ List.suffix_rfl

instance Consumes.bind (r : Reader α) (f : α → Reader β) [hr : Consumes r]
    [hf : ∀ a, Consumes (f a)] : Consumes (r >>= f) where
  leaves h := by
    obtain ⟨a, mid, hmid, hrest⟩ := bind_eq_ok h
    exact ((hf a).leaves hrest).trans (hr.leaves hmid)

theorem Consumes.andThen {r : Reader α} {f : α → Reader β} [Consumes r]
    (hf : ∀ a, Consumes (f a)) : Consumes (r >>= f) :=
  Consumes.bind r f

/-- What follows may depend on whether something was read. -/
instance Consumes.bindOption (r : Reader (Option α)) (f : Option α → Reader β) [Consumes r]
    [hnone : Consumes (f none)] [hsome : ∀ a, Consumes (f (some a))] : Consumes (r >>= f) :=
  Consumes.andThen fun
    | none => hnone
    | some a => hsome a

/-- What follows may take apart a pair that was read. -/
instance Consumes.bindPair {γ : Type} (r : Reader (α × γ)) (f : α × γ → Reader β) [Consumes r]
    [hf : ∀ a c, Consumes (f (a, c))] : Consumes (r >>= f) :=
  Consumes.andThen fun p => hf p.1 p.2

instance Consumes.map (r : Reader α) (f : α → β) [Consumes r] : Consumes (f <$> r) :=
  Consumes.bind r fun a => Pure.pure (f a)

instance Consumes.orElse (r s : Reader α) [hr : Consumes r] [hs : Consumes s] :
    Consumes (r <|> s) where
  leaves h := (orElse_eq_ok h).elim hr.leaves fun h => hs.leaves h.2

instance Consumes.absent : Consumes (absent : Reader α) where
  leaves := nofun

instance Consumes.malformed : Consumes (malformed : Reader α) where
  leaves := nofun

instance Consumes.commit (r : Reader α) [hr : Consumes r] : Consumes (commit r) where
  leaves h := hr.leaves (commit_eq_ok h)

instance Consumes.opt (r : Reader α) [hr : Consumes r] : Consumes (opt r) where
  leaves h := by
    rcases opt_eq_ok h with ⟨a, -, h⟩ | ⟨-, -, rfl⟩
    · exact hr.leaves h
    · exact List.suffix_rfl

instance Consumes.bounded (r : Nat → Reader α) [hr : ∀ n, Consumes (r n)] :
    Consumes (bounded r) where
  leaves h := (hr _).leaves h

instance Consumes.ite (c : Prop) [Decidable c] (r s : Reader α) [hr : Consumes r]
    [hs : Consumes s] : Consumes (if c then r else s) where
  leaves h := by
    split at h
    · exact hr.leaves h
    · exact hs.leaves h

instance Consumes.behind (skip : Reader α) (starts : List Char → Bool) (r : α → Reader β)
    [hskip : Consumes skip] [hr : ∀ a, Consumes (r a)] : Consumes (behind skip starts r) where
  leaves h := by
    obtain ⟨a, mid, hmid, ⟨b, -, -, hlast⟩ | ⟨-, -, rfl⟩⟩ := behind_eq_ok h
    · exact ((hr a).leaves hlast).trans (hskip.leaves hmid)
    · exact List.suffix_rfl

theorem Consumes.ofOption {found : List Char → Option (α × List Char)}
    (h : ∀ {cs a rest}, found cs = some (a, rest) → rest <:+ cs) : Consumes (ofOption found) where
  leaves hread := h (ofOption_eq_ok hread)

/-! ## Characters and trivia -/

instance Consumes.char (c : Char) : Consumes (char c) where
  leaves h := char_eq_ok h ▸ List.suffix_cons c _

instance Consumes.text (expected : List Char) : Consumes (text expected) where
  leaves h := text_eq_ok h ▸ List.suffix_append expected _

instance Consumes.ahead : Consumes ahead where
  leaves h := by
    cases h
    exact List.suffix_rfl

instance Consumes.flag (c : Char) : Consumes (flag c) where
  leaves h := by
    rcases flag_eq_ok h with ⟨-, rfl⟩ | ⟨-, rfl, -⟩
    · exact List.suffix_cons c _
    · exact List.suffix_rfl

instance Consumes.endOfText : Consumes endOfText where
  leaves {cs} _ _ h := by
    cases cs with
    | nil =>
      cases h
      exact List.suffix_rfl
    | cons c cs => cases h

instance Consumes.offset (size : Nat) : Consumes (offset size) where
  leaves h := by
    cases h
    exact List.suffix_rfl

instance Consumes.gap (newlines : Bool) : Consumes (gap newlines) where
  leaves h := (gap_eq_ok h).1 ▸ List.suffix_append _ _

instance Consumes.blank : Consumes blank := Consumes.gap false

instance Consumes.white : Consumes white := Consumes.gap true

instance Consumes.lineTail : Consumes lineTail where
  leaves h := (lineTail_eq_ok h).1 ▸ List.suffix_append _ _

theorem lineEnd_eq_ok {cs eol rest : List Char} (h : lineEnd cs = .ok (eol, rest)) :
    cs = eol ++ rest ∧ (eol = ['\n'] ∨ eol = ['\r', '\n']) := by
  unfold lineEnd at h
  split at h <;> cases h
  · exact ⟨rfl, .inl rfl⟩
  · exact ⟨rfl, .inr rfl⟩

instance Consumes.lineEnd : Consumes lineEnd where
  leaves h := (lineEnd_eq_ok h).1 ▸ List.suffix_append _ _

instance Consumes.lineEndOrEnd : Consumes lineEndOrEnd := by
  unfold Reader.lineEndOrEnd
  infer_instance

instance Consumes.padded (r : Reader α) [Consumes r] : Consumes (padded r) := by
  unfold Reader.padded
  infer_instance

instance Consumes.identifier : Consumes identifier where
  leaves h := (identifier_eq_ok h).1 ▸ List.suffix_append _ _

/-! ## Literals -/

/-- A bad escape is dropped, and what is behind it stays. -/
theorem suffix_spanLiteral (kind : TextKind) (n : Nat) (cs : List Char) :
    (spanLiteral kind n cs).2 <:+ cs := by
  fun_induction spanLiteral kind n cs with
  | case1 | case2 | case3 | case4 | case5 => exact List.suffix_rfl
  | case6 steps rest more left hspan hends ih | case7 steps rest more left hspan hends ih =>
    rw [hspan] at ih
    exact ih.trans (List.suffix_append [_, _, _] rest)
  | case8 steps rest hescapes e taken hescape more left hspan hends ih =>
    rw [hspan] at ih
    exact (ih.trans (List.drop_suffix taken rest)).trans (List.suffix_cons _ _)
  | case9 steps rest hescapes hescape hends =>
    exact (List.drop_suffix 1 rest).trans (List.suffix_cons _ _)
  | case10 steps rest hescapes more left hspan hends ih =>
    rw [hspan] at ih
    exact ih.trans (List.suffix_cons _ _)
  | case11 steps c rest _ _ _ _ _ more left hspan hends ih =>
    rw [hspan] at ih
    exact ih.trans (List.suffix_cons _ _)

instance Consumes.literal (kind : TextKind) : Consumes (literal kind) where
  leaves {cs} _ _ h := by
    have hspan := suffix_spanLiteral kind cs.length cs
    rw [Reader.literal] at h
    split at h
    · cases h
    · split at h
      · cases h
      · next hsplit =>
        cases h
        rwa [hsplit] at hspan

instance Consumes.quotedText : Consumes quotedText := by
  unfold Reader.quotedText
  infer_instance

theorem suffix_spanDigits {cs ds rest : List Char} (h : Number.spanDigits cs = (ds, rest)) :
    rest <:+ cs := by
  rw [Number.spanDigits, List.span_eq_takeWhile_dropWhile] at h
  cases h
  exact List.dropWhile_suffix _

/-- The optional sign of a power is taken off the front. -/
theorem suffix_of_sign {cs mid : List Char} {negative : Bool}
    (h : (match cs with
      | '+' :: r => (false, r)
      | '-' :: r => (true, r)
      | r => (false, r)) = (negative, mid)) : mid <:+ cs := by
  split at h <;> cases h
  · exact List.suffix_cons _ _
  · exact List.suffix_cons _ _
  · exact List.suffix_rfl

theorem suffix_readPower? (cs : List Char) : ∀ r ∈ Number.readPower? cs, r.2 <:+ cs := by
  fun_cases Number.readPower? cs with
  | case1 | case3 | case5 => nofun
  | case2 cs negative mid hmid ds rest hds hspan | case4 cs negative mid hmid ds rest hds hspan =>
    rintro _ ⟨⟩
    exact ((suffix_spanDigits hspan).trans (suffix_of_sign hmid)).trans (List.suffix_cons _ _)

theorem suffix_readUnsigned? (cs : List Char) : ∀ r ∈ Number.readUnsigned? cs, r.2 <:+ cs := by
  fun_cases Number.readUnsigned? cs with
  | case1 => nofun
  | case2 ds whole hds hspan fraction mid hfraction power rest hpower n hn =>
    rintro _ ⟨⟩
    have hwhole := suffix_spanDigits hspan
    have hmid : mid <:+ whole := by
      split at hfraction
      · split at hfraction <;> cases hfraction
        · exact List.suffix_rfl
        · next hdigits => exact (suffix_spanDigits hdigits).trans (List.suffix_cons _ _)
      · cases hfraction
        exact List.suffix_rfl
    have hrest : rest <:+ mid := by
      split at hpower
      · next hread =>
        cases hpower
        exact suffix_readPower? mid _ hread
      · cases hpower
        exact List.suffix_rfl
    exact (hrest.trans hmid).trans hwhole
  | case3 ds whole hds hspan =>
    intro r hr
    obtain ⟨n, -, rfl⟩ := Option.map_eq_some_iff.1 hr
    exact suffix_spanDigits hspan

instance Consumes.numberLiteral : Consumes numberLiteral :=
  .ofOption fun {cs a rest} h => by
    obtain ⟨⟨n, left⟩, hread, heq⟩ := Option.map_eq_some_iff.1 h
    cases heq
    exact suffix_readUnsigned? cs _ hread

instance Consumes.negativeLiteral : Consumes negativeLiteral := by
  have hdigits : Consumes (Reader.ofOption fun digits =>
      (Number.readUnsigned? digits).map fun (n, rest) => ((n, rest), rest)) :=
    .ofOption fun {cs a rest} h => by
      obtain ⟨⟨n, left⟩, hread, heq⟩ := Option.map_eq_some_iff.1 h
      cases heq
      exact suffix_readUnsigned? cs _ hread
  unfold Reader.negativeLiteral
  infer_instance

/-! ## Templates -/

section Templates

variable (markers : Inner) [Consumes markers.free] [Consumes markers.line]

instance Consumes.openMarker (sign : Char) : Consumes (openMarker sign) := by
  unfold Reader.openMarker
  infer_instance

instance Consumes.closeMarker : Consumes closeMarker := by
  unfold Reader.closeMarker
  infer_instance

instance Consumes.tag (keyword : List Char) : Consumes (tag keyword) := by
  unfold Reader.tag
  infer_instance

instance Consumes.binding : Consumes binding := by
  unfold Reader.binding
  infer_instance

instance Consumes.part (kind : TextKind) (body : Reader (List Part)) [Consumes body] :
    Consumes (part markers kind body) := by
  have hinterpolation : Consumes (interpolation markers) := by
    unfold interpolation
    infer_instance
  have hchoice : Consumes (choice markers body) := by
    unfold choice
    infer_instance
  have hloop : Consumes (loop markers body) := by
    unfold loop
    infer_instance
  unfold Reader.part
  infer_instance

instance Consumes.partsUpTo (n : Nat) (kind : TextKind) :
    Consumes (partsUpTo markers n kind) := by
  induction n generalizing kind with
  | zero => exact Consumes.absent
  | succ n ih =>
    unfold Reader.partsUpTo
    infer_instance

instance Consumes.parts (kind : TextKind) : Consumes (parts markers kind) := by
  unfold Reader.parts
  infer_instance

instance Consumes.quotedTemplate : Consumes (quotedTemplate markers) := by
  unfold Reader.quotedTemplate
  infer_instance

instance Consumes.spanBlanks : Consumes (ofSplit (·.span isBlankChar)) where
  leaves h := by
    rw [ofSplit, List.span_eq_takeWhile_dropWhile] at h
    cases h
    exact List.dropWhile_suffix _

instance Consumes.closingDelimiter (delimiter : List Char) :
    Consumes (closingDelimiter delimiter) := by
  unfold Reader.closingDelimiter
  infer_instance

instance Consumes.heredoc : Consumes (heredoc markers) := by
  have hbody : ∀ delimiter, Consumes
      (heredocBody markers delimiter <|> heredocEmpty delimiter) := by
    unfold heredocBody heredocEmpty
    infer_instance
  unfold Reader.heredoc
  infer_instance

end Templates

/-! ## Expressions -/

section Expressions

instance Consumes.listItem (stops : List Char) (r : Reader Expr) [Consumes r] :
    Consumes (listItem stops r) := by
  unfold Reader.listItem
  infer_instance

instance Consumes.moreItems (stops : List Char) (r : Reader Expr) [Consumes r] (n : Nat) :
    Consumes (moreItems stops r n) := by
  induction n with
  | zero => exact Consumes.absent
  | succ n ih =>
    unfold Reader.moreItems
    infer_instance

instance Consumes.listItems (stops : List Char) (r : Reader Expr) [Consumes r] :
    Consumes (listItems stops r) := by
  unfold Reader.listItems
  infer_instance

instance Consumes.list (r : Reader Expr) [Consumes r] : Consumes (list r) := by
  unfold Reader.list
  infer_instance

instance Consumes.morePath (m : Mode) (n : Nat) : Consumes (morePath m n) := by
  induction n with
  | zero => exact Consumes.absent
  | succ n ih =>
    unfold Reader.morePath
    infer_instance

instance Consumes.argsEnd : Consumes argsEnd := by
  unfold Reader.argsEnd
  infer_instance

instance Consumes.itemEnd : Consumes itemEnd := by
  have hcomment : Consumes (Reader.ofOption lineComment?) := .ofOption fun h =>
    (lineComment?_eq_some h).1 ▸ List.suffix_append _ _
  unfold Reader.itemEnd
  infer_instance

instance Consumes.item (r : Reader Expr) [Consumes r] (before : Trivia) :
    Consumes (item r before) := by
  unfold Reader.item
  infer_instance

instance Consumes.entries (r : Reader Expr) [Consumes r] (n : Nat) : Consumes (entries r n) := by
  induction n with
  | zero => exact Consumes.absent
  | succ n ih =>
    unfold Reader.entries
    infer_instance

instance Consumes.object (r : Reader Expr) [Consumes r] : Consumes (object r) := by
  unfold Reader.object
  infer_instance

variable (self : Mode → Reader Expr) [hself : ∀ m, Consumes (self m)] (m : Mode)

instance Consumes.inner_free : Consumes (inner self).free := hself .inside

instance Consumes.inner_line : Consumes (inner self).line := hself .line

instance Consumes.nameOrCall : Consumes (nameOrCall self m) := by
  unfold Reader.nameOrCall callOf
  infer_instance

instance Consumes.forHead : Consumes (forHead self) := by
  unfold Reader.forHead
  infer_instance

instance Consumes.forCondition (r : Reader Expr) [Consumes r] : Consumes (forCondition r) := by
  unfold Reader.forCondition
  infer_instance

instance Consumes.forList : Consumes (forList self m) := by
  unfold Reader.forList
  infer_instance

instance Consumes.forGrouping : Consumes forGrouping := by
  unfold Reader.forGrouping
  infer_instance

instance Consumes.forObject : Consumes (forObject self m) := by
  unfold Reader.forObject
  refine .andThen fun _ => ?_
  refine .andThen fun ⟨opening, names, source⟩ => ?_
  infer_instance

instance Consumes.parens (r : Reader Expr) [Consumes r] : Consumes (parens r) := by
  unfold Reader.parens
  infer_instance

instance Consumes.prefixed (op : UnaryOp) (r : Reader Expr) [Consumes r] :
    Consumes (prefixed op r) := by
  unfold Reader.prefixed
  infer_instance

instance Consumes.termStep (operand : Reader Expr) [ho : Consumes operand] :
    Consumes (termStep self operand m) where
  leaves {cs rest a} h := by
    unfold Reader.termStep at h
    split at h
    · exact (Consumes.quotedTemplate (inner self)).leaves h
    · split at h
      · exact (Consumes.forList self m).leaves h
      · exact (Consumes.list (self m.spread)).leaves h
    · split at h
      · exact (Consumes.forObject self m).leaves h
      · exact (Consumes.object (self .line)).leaves h
    · exact (Consumes.parens (self .inside)).leaves h
    · exact (Consumes.heredoc (inner self)).leaves h
    · exact (Consumes.orElse Reader.negativeLiteral (Reader.prefixed .negate operand)).leaves h
    · exact (Consumes.prefixed .not operand).leaves h
    · split at h
      · exact Consumes.numberLiteral.leaves h
      · split at h
        · exact (Consumes.nameOrCall self m).leaves h
        · cases h
    · cases h

instance Consumes.termWithin (n : Nat) : Consumes (termWithin self m n) := by
  induction n with
  | zero => exact Consumes.absent
  | succ n ih => exact Consumes.termStep self m (Reader.termWithin self m n)

instance Consumes.positionNumber : Consumes positionNumber := .ofOption fun {cs a rest} h => by
  split at h
  · cases h
    exact List.suffix_cons _ _
  · split at h
    · cases h
    · next hspan =>
      dsimp only at h
      split at h
      · cases h
        exact suffix_spanDigits hspan
      · cases h

instance Consumes.pointStep : Consumes pointStep := by
  unfold Reader.pointStep
  refine .andThen fun space => ?_
  refine .andThen fun next => ?_
  split <;> infer_instance

instance Consumes.bracketStep (r : Reader Expr) [Consumes r] : Consumes (bracketStep r) := by
  unfold Reader.bracketStep
  infer_instance

instance Consumes.step : Consumes (step self) where
  leaves {cs rest a} h := by
    unfold Reader.step at h
    split at h
    · exact (Consumes.pointStep.leaves h).trans (List.suffix_cons _ _)
    · exact ((Consumes.bracketStep (self .inside)).leaves h).trans (List.suffix_cons _ _)
    · cases h

instance Consumes.steps (n : Nat) : Consumes (steps self m n) := by
  induction n with
  | zero => exact Consumes.absent
  | succ n ih =>
    unfold Reader.steps
    infer_instance

instance Consumes.stepsAfter (subject : Expr) : Consumes (stepsAfter self m subject) := by
  unfold Reader.stepsAfter
  refine .andThen fun found => ?_
  cases found <;> infer_instance

instance Consumes.binaryOp : Consumes binaryOp where
  leaves {cs rest a} h := by
    unfold Reader.binaryOp at h
    split at h <;> cases h
    all_goals first | exact List.suffix_append [_, _] _ | exact List.suffix_cons _ _

instance Consumes.binaryAfter (left : Expr) : Consumes (binaryAfter self m left) := by
  unfold Reader.binaryAfter
  infer_instance

instance Consumes.conditionalAfter (test : Expr) : Consumes (conditionalAfter self m test) := by
  unfold Reader.conditionalAfter
  infer_instance

instance Consumes.exprStep : Consumes (exprStep self m) := by
  unfold Reader.exprStep term
  infer_instance

end Expressions

/-- Expressions are read off the front. -/
instance Consumes.exprWithin (n : Nat) (m : Mode) : Consumes (exprWithin n m) := by
  induction n generalizing m with
  | zero => exact Consumes.absent
  | succ n ih => exact Consumes.exprStep (Reader.exprWithin n) m

instance Consumes.expr (m : Mode) : Consumes (expr m) := by
  unfold Reader.expr
  infer_instance

/-! ## Bodies -/

instance Consumes.attributeAt (size start : Nat) (before : Trivia) (name : String)
    (gap : Trivia) : Consumes (attributeAt size start before name gap) := by
  unfold Reader.attributeAt
  infer_instance

instance Consumes.labels (n : Nat) : Consumes (labels n) := by
  have hlabel : Consumes label := by
    unfold Reader.label
    infer_instance
  induction n with
  | zero => exact Consumes.absent
  | succ n ih =>
    unfold Reader.labels
    infer_instance

instance Consumes.bodyOnLine (size : Nat) : Consumes (bodyOnLine size) := by
  unfold Reader.bodyOnLine inlineAttribute
  infer_instance

instance Consumes.blockAt (size start : Nat) (body : Reader (List Structure)) [Consumes body]
    (before : Trivia) (kind : String) (gap : Trivia) :
    Consumes (blockAt size start body before kind gap) := by
  have hbody : Consumes (bodyOfLines body <|> Reader.bodyOnLine size) := by
    unfold bodyOfLines
    infer_instance
  unfold Reader.blockAt
  infer_instance

instance Consumes.structureLine (size : Nat) (body : Reader (List Structure)) [Consumes body]
    (names : List String) : Consumes (structureLine size body names) := by
  unfold Reader.structureLine
  infer_instance

/-- Bodies are read off the front. -/
instance Consumes.structuresWithin (size n : Nat) (names : List String) :
    Consumes (structuresWithin size n names) := by
  induction n generalizing names with
  | zero => exact Consumes.absent
  | succ n ih =>
    unfold Reader.structuresWithin
    infer_instance

end HclOverlay.Hcl.Reader
