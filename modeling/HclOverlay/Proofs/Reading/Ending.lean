import HclOverlay.Proofs.Reading.Consumption

/-!
# Expressions end in a token

No expression takes the white space behind itself: the last character that it takes belongs to a
token, so a line end behind it is never cut in two.

* `EndsInToken` — a reader whose last character is no white space.
* `EndsInToken.expr` — expressions, by induction on the depth.
-/

namespace HclOverlay.Hcl.Reader

variable {α β : Type}

/-- A reader that takes at least one character, and as its last one no white space. -/
class EndsInToken (r : Reader α) : Prop where
  last {cs rest : List Char} {a : α} : r cs = .ok (a, rest) →
    ∃ front c, cs = front ++ c :: rest ∧ isWhiteChar c = false

/-- Characters before a token do not matter. -/
theorem last_of_suffix {cs mid rest : List Char} (h : mid <:+ cs)
    (hlast : ∃ front c, mid = front ++ c :: rest ∧ isWhiteChar c = false) :
    ∃ front c, cs = front ++ c :: rest ∧ isWhiteChar c = false := by
  obtain ⟨before, rfl⟩ := h
  obtain ⟨front, c, rfl, hc⟩ := hlast
  exact ⟨before ++ front, c, by rw [List.append_assoc], hc⟩

/-! ## Readers made from readers -/

instance EndsInToken.bind (r : Reader α) (f : α → Reader β) [hr : Consumes r]
    [hf : ∀ a, EndsInToken (f a)] : EndsInToken (r >>= f) where
  last h := by
    obtain ⟨a, mid, hmid, hrest⟩ := bind_eq_ok h
    exact last_of_suffix (hr.leaves hmid) ((hf a).last hrest)

theorem EndsInToken.andThen {r : Reader α} {f : α → Reader β} [Consumes r]
    (hf : ∀ a, EndsInToken (f a)) : EndsInToken (r >>= f) :=
  EndsInToken.bind r f

instance EndsInToken.bindPure (r : Reader α) (f : α → β) [hr : EndsInToken r] :
    EndsInToken (r >>= fun a => pure (f a)) where
  last h := by
    obtain ⟨a, mid, hmid, hrest⟩ := bind_eq_ok h
    obtain ⟨-, rfl⟩ := pure_eq_ok hrest
    exact hr.last hmid

instance EndsInToken.map (r : Reader α) (f : α → β) [EndsInToken r] : EndsInToken (f <$> r) :=
  EndsInToken.bindPure r f

instance EndsInToken.orElse (r s : Reader α) [hr : EndsInToken r] [hs : EndsInToken s] :
    EndsInToken (r <|> s) where
  last h := (orElse_eq_ok h).elim hr.last fun h => hs.last h.2

instance EndsInToken.absent : EndsInToken (absent : Reader α) where
  last := nofun

instance EndsInToken.commit (r : Reader α) [hr : EndsInToken r] : EndsInToken (commit r) where
  last h := hr.last (commit_eq_ok h)

instance EndsInToken.bounded (r : Nat → Reader α) [hr : ∀ n, EndsInToken (r n)] :
    EndsInToken (bounded r) where
  last h := (hr _).last h

instance EndsInToken.ite (c : Prop) [Decidable c] (r s : Reader α) [hr : EndsInToken r]
    [hs : EndsInToken s] : EndsInToken (if c then r else s) where
  last h := by
    split at h
    · exact hr.last h
    · exact hs.last h

/-! ## Tokens -/

theorem EndsInToken.char {c : Char} (hc : isWhiteChar c = false) : EndsInToken (char c) where
  last h := ⟨[], c, char_eq_ok h, hc⟩

instance : EndsInToken (char '"') := .char (by decide)

instance : EndsInToken (char ']') := .char (by decide)

instance : EndsInToken (char '}') := .char (by decide)

instance : EndsInToken (char ')') := .char (by decide)

instance : EndsInToken (char '*') := .char (by decide)

theorem isWhiteChar_of_isIdentifierContinue {c : Char} (h : Text.isIdentifierContinue c = true) :
    isWhiteChar c = false := by
  rw [Bool.eq_false_iff]
  intro hc
  simp only [isWhiteChar, isBlankChar, Bool.or_eq_true, beq_iff_eq] at hc
  rcases hc with ((rfl | rfl) | rfl) | rfl <;> exact absurd h (by decide)

/-- A text that is not empty ends in one of its characters. -/
theorem last_of_all {p : Char → Bool} (hp : ∀ c, p c = true → isWhiteChar c = false)
    {token : List Char} (hne : token ≠ []) (hall : ∀ c ∈ token, p c = true) (rest : List Char) :
    ∃ front c, token ++ rest = front ++ c :: rest ∧ isWhiteChar c = false := by
  refine ⟨token.dropLast, token.getLast hne, ?_, hp _ (hall _ (List.getLast_mem hne))⟩
  rw [← List.singleton_append, ← List.append_assoc, List.dropLast_concat_getLast hne]

theorem last_of_name {name : String} (h : Text.isIdentifier name = true) (rest : List Char) :
    ∃ front c, name.toList ++ rest = front ++ c :: rest ∧ isWhiteChar c = false := by
  unfold Text.isIdentifier Text.isIdentifierChars at h
  split at h
  · cases h
  · next c more heq =>
    simp only [Bool.and_eq_true, List.all_eq_true] at h
    rw [heq]
    refine last_of_all (fun _ => isWhiteChar_of_isIdentifierContinue) (List.cons_ne_nil c more)
      (List.forall_mem_cons.2 ⟨Text.isIdentifierContinue_of_start h.1, h.2⟩) rest

instance EndsInToken.identifier : EndsInToken identifier where
  last h := by
    obtain ⟨rfl, hname, -⟩ := identifier_eq_ok h
    exact last_of_name hname _

/-! ## Numbers -/

theorem isWhiteChar_of_isDigit {c : Char} (h : c.isDigit = true) : isWhiteChar c = false := by
  rw [Bool.eq_false_iff]
  intro hc
  simp only [isWhiteChar, isBlankChar, Bool.or_eq_true, beq_iff_eq] at hc
  rcases hc with ((rfl | rfl) | rfl) | rfl <;> exact absurd h (by decide)

theorem last_of_spanDigits {cs ds rest : List Char} (h : Number.spanDigits cs = (ds, rest))
    (hne : ds ≠ []) : ∃ front c, cs = front ++ c :: rest ∧ isWhiteChar c = false := by
  rw [Number.spanDigits, List.span_eq_takeWhile_dropWhile] at h
  cases h
  obtain ⟨front, c, hsplit, hc⟩ := last_of_all (fun _ => isWhiteChar_of_isDigit) hne
    (List.all_eq_true.1 List.all_takeWhile) (cs.dropWhile Char.isDigit)
  rw [List.takeWhile_append_dropWhile] at hsplit
  exact ⟨front, c, hsplit, hc⟩

theorem last_of_readPower? (cs : List Char) : ∀ r ∈ Number.readPower? cs,
    ∃ front c, cs = front ++ c :: r.2 ∧ isWhiteChar c = false := by
  fun_cases Number.readPower? cs with
  | case1 | case3 | case5 => rintro _ ⟨⟩
  | case2 cs negative mid hmid ds rest hds hspan | case4 cs negative mid hmid ds rest hds hspan =>
    rintro _ ⟨⟩
    exact last_of_suffix ((suffix_of_sign hmid).trans (List.suffix_cons _ _))
      (last_of_spanDigits hspan hds)

theorem last_of_readUnsigned? (cs : List Char) : ∀ r ∈ Number.readUnsigned? cs,
    ∃ front c, cs = front ++ c :: r.2 ∧ isWhiteChar c = false := by
  fun_cases Number.readUnsigned? cs with
  | case1 => rintro _ ⟨⟩
  | case2 ds whole hds hspan fraction mid hfraction power rest hpower n hn =>
    rintro _ ⟨⟩
    -- the last of the parts that are there holds the last digit
    have hmid : ∃ front c, cs = front ++ c :: mid ∧ isWhiteChar c = false := by
      split at hfraction
      · split at hfraction
        · cases hfraction
          exact last_of_spanDigits hspan hds
        · next hdigits hread =>
          cases hfraction
          exact last_of_suffix ((List.suffix_cons _ _).trans (suffix_spanDigits hspan))
            (last_of_spanDigits hread hdigits)
      · cases hfraction
        exact last_of_spanDigits hspan hds
    split at hpower
    · next hread =>
      cases hpower
      obtain ⟨front, c, rfl, -⟩ := hmid
      exact last_of_suffix ((List.suffix_cons c mid).trans (List.suffix_append front _))
        (last_of_readPower? mid _ hread)
    · cases hpower
      exact hmid
  | case3 ds whole hds hspan =>
    intro r hr
    obtain ⟨n, -, rfl⟩ := Option.map_eq_some_iff.1 hr
    exact last_of_spanDigits hspan hds

instance EndsInToken.numberLiteral : EndsInToken numberLiteral where
  last {cs rest a} h := by
    obtain ⟨⟨n, left⟩, hread, heq⟩ := Option.map_eq_some_iff.1 (ofOption_eq_ok h)
    cases heq
    exact last_of_readUnsigned? cs _ hread

instance EndsInToken.negativeLiteral : EndsInToken negativeLiteral := by
  have hdigits : EndsInToken (ofOption fun digits =>
      (Number.readUnsigned? digits).map fun (n, rest) => ((n, rest), rest)) :=
    ⟨fun {cs rest a} h => by
      obtain ⟨⟨n, left⟩, hread, heq⟩ := Option.map_eq_some_iff.1 (ofOption_eq_ok h)
      cases heq
      exact last_of_readUnsigned? cs _ hread⟩
  unfold Reader.negativeLiteral
  infer_instance

/-! ## Terms -/

instance EndsInToken.quotedTemplate (markers : Inner) [Consumes markers.free]
    [Consumes markers.line] : EndsInToken (quotedTemplate markers) := by
  unfold Reader.quotedTemplate quotedText
  infer_instance

section Terms

variable (self : Mode → Reader Expr) [hself : ∀ m, Consumes (self m)] (m : Mode)

instance EndsInToken.nameOrCall : EndsInToken (nameOrCall self m) where
  last h := by
    obtain ⟨name, mid, hname, h⟩ := bind_eq_ok h
    rcases orElse_eq_ok h with h | ⟨-, h⟩
    · have hcall : EndsInToken (callOf self m name) := by
        unfold callOf
        infer_instance
      exact last_of_suffix (Consumes.identifier.leaves hname) (hcall.last h)
    · obtain ⟨-, rfl⟩ := pure_eq_ok h
      exact EndsInToken.identifier.last hname

/-- A heredoc ends in its delimiter, which is a name. -/
instance EndsInToken.heredoc (markers : Inner) [Consumes markers.free] [Consumes markers.line] :
    EndsInToken (heredoc markers) where
  last {cs rest a} h := by
    obtain ⟨u, c₁, hopen, h⟩ := bind_eq_ok h
    obtain ⟨indented, c₂, hflag, h⟩ := bind_eq_ok h
    obtain ⟨delimiter, c₃, hname, h⟩ := bind_eq_ok h
    obtain ⟨eol, c₄, heol, h⟩ := bind_eq_ok h
    obtain ⟨⟨pieces, closing⟩, c₅, hbody, h⟩ := bind_eq_ok h
    have hdelimiter := (identifier_eq_ok (commit_eq_ok hname)).2.1
    have hclosing : EndsInToken (closingDelimiter delimiter.toList) := by
      have htext : EndsInToken (text delimiter.toList) :=
        ⟨fun h => text_eq_ok h ▸ last_of_name hdelimiter _⟩
      unfold closingDelimiter
      infer_instance
    have hend : EndsInToken (heredocBody markers delimiter.toList <|>
        heredocEmpty delimiter.toList) := by
      unfold heredocBody heredocEmpty
      infer_instance
    have hrest : c₅ = rest := by
      dsimp only at h
      split at h <;> exact (pure_eq_ok h).2.symm
    subst hrest
    exact last_of_suffix (((Consumes.lineEnd.leaves heol).trans
      ((Consumes.commit _).leaves hname)).trans (((Consumes.flag _).leaves hflag).trans
        ((Consumes.text _).leaves hopen))) (hend.last hbody)

instance EndsInToken.termStep (operand : Reader Expr) [EndsInToken operand] :
    EndsInToken (termStep self operand m) where
  last {cs rest a} h := by
    have hlist : EndsInToken (list (self m.spread)) := by
      unfold list
      infer_instance
    have hforList : EndsInToken (forList self m) := by
      unfold forList
      infer_instance
    have hobject : EndsInToken (object (self .line)) := by
      unfold object
      infer_instance
    have hforObject : EndsInToken (forObject self m) := by
      unfold forObject
      refine .andThen fun _ => .andThen fun ⟨opening, names, source⟩ => ?_
      infer_instance
    have hparens : EndsInToken (parens (self .inside)) := by
      unfold parens
      infer_instance
    have hprefixed : ∀ op, EndsInToken (prefixed op operand) := by
      unfold prefixed
      infer_instance
    unfold Reader.termStep at h
    split at h
    · exact (EndsInToken.quotedTemplate (inner self)).last h
    · split at h
      · exact hforList.last h
      · exact hlist.last h
    · split at h
      · exact hforObject.last h
      · exact hobject.last h
    · exact hparens.last h
    · exact (EndsInToken.heredoc (inner self)).last h
    · exact (EndsInToken.orElse Reader.negativeLiteral (prefixed .negate operand)).last h
    · exact (hprefixed .not).last h
    · split at h
      · exact EndsInToken.numberLiteral.last h
      · split at h
        · exact (EndsInToken.nameOrCall self m).last h
        · cases h
    · cases h

instance EndsInToken.termWithin (n : Nat) : EndsInToken (termWithin self m n) := by
  induction n with
  | zero => exact EndsInToken.absent
  | succ n ih => exact EndsInToken.termStep self m (Reader.termWithin self m n)

/-! ## Steps and operators -/

instance EndsInToken.positionNumber : EndsInToken positionNumber where
  last {cs rest a} h := by
    have h := ofOption_eq_ok h
    split at h
    · cases h
      exact ⟨[], '0', rfl, by decide⟩
    · split at h
      · cases h
      · next hds hspan =>
        dsimp only at h
        split at h
        · cases h
          exact last_of_spanDigits hspan hds
        · cases h

instance EndsInToken.pointStep : EndsInToken pointStep := by
  unfold Reader.pointStep
  refine .andThen fun space => .andThen fun next => ?_
  split <;> infer_instance

instance EndsInToken.bracketStep (expr : Reader Expr) [Consumes expr] :
    EndsInToken (bracketStep expr) := by
  unfold Reader.bracketStep
  infer_instance

instance EndsInToken.step : EndsInToken (step self) where
  last {cs rest a} h := by
    unfold Reader.step at h
    split at h
    · exact last_of_suffix (List.suffix_cons _ _) (EndsInToken.pointStep.last h)
    · exact last_of_suffix (List.suffix_cons _ _) ((EndsInToken.bracketStep (self .inside)).last h)
    · cases h

/-- What follows something that is skipped ends in a token, or is not there and nothing is
skipped. -/
theorem behind_last {skip : Reader α} {starts : List Char → Bool} {r : α → Reader β}
    [hskip : Consumes skip] [hr : ∀ a, EndsInToken (r a)] {cs rest : List Char} {o : Option β}
    (h : behind skip starts r cs = .ok (o, rest)) :
    rest = cs ∨ ∃ front c, cs = front ++ c :: rest ∧ isWhiteChar c = false := by
  obtain ⟨a, mid, hmid, ⟨b, -, -, hlast⟩ | ⟨-, -, rfl⟩⟩ := behind_eq_ok h
  · exact .inr (last_of_suffix (hskip.leaves hmid) ((hr a).last hlast))
  · exact .inl rfl

/-- One more piece that ends in a token, or nothing. -/
theorem last_of_last {cs mid rest : List Char}
    (h : ∃ front c, cs = front ++ c :: mid ∧ isWhiteChar c = false)
    (hmore : rest = mid ∨ ∃ front c, mid = front ++ c :: rest ∧ isWhiteChar c = false) :
    ∃ front c, cs = front ++ c :: rest ∧ isWhiteChar c = false := by
  rcases hmore with rfl | hmore
  · exact h
  · obtain ⟨front, c, rfl, -⟩ := h
    exact last_of_suffix ((List.suffix_cons c mid).trans (List.suffix_append front _)) hmore

theorem steps_last (n : Nat) {cs rest : List Char} {found : List (Trivia × Step)}
    (h : steps self m n cs = .ok (found, rest)) :
    rest = cs ∨ ∃ front c, cs = front ++ c :: rest ∧ isWhiteChar c = false := by
  induction n generalizing cs found with
  | zero => cases h
  | succ n ih =>
    obtain ⟨o, mid, hread, h⟩ := bind_eq_ok h
    have hfirst := behind_last hread
    cases o with
    | none =>
      obtain ⟨-, rfl⟩ := pure_eq_ok h
      exact hfirst
    | some first =>
      obtain ⟨more, last, hmore, h⟩ := bind_eq_ok h
      obtain ⟨-, rfl⟩ := pure_eq_ok h
      rcases hfirst with rfl | hfirst
      · exact ih hmore
      · exact .inr (last_of_last hfirst (ih hmore))

/-- One level of an expression: the term ends in a token, and so does all that is added to it. -/
instance EndsInToken.exprStep [∀ m, EndsInToken (self m)] : EndsInToken (exprStep self m) where
  last h := by
    obtain ⟨subject, c₁, hterm, h⟩ := bind_eq_ok h
    obtain ⟨left, c₂, hsteps, h⟩ := bind_eq_ok h
    obtain ⟨whole, c₃, hbinary, h⟩ := bind_eq_ok h
    have hterm := (EndsInToken.bounded (Reader.termWithin self m)).last hterm
    generalize (if opensLines subject then m.spread else m) = m' at *
    have hsteps : c₂ = c₁ ∨ ∃ front c, c₁ = front ++ c :: c₂ ∧ isWhiteChar c = false := by
      obtain ⟨found, mid, hfound, hsteps⟩ := bind_eq_ok hsteps
      have hrest : c₂ = mid := by
        cases found <;> exact (pure_eq_ok hsteps).2
      exact hrest ▸ steps_last self m' _ hfound
    have hbinary : c₃ = c₂ ∨ ∃ front c, c₂ = front ++ c :: c₃ ∧ isWhiteChar c = false := by
      obtain ⟨o, mid, hfound, hbinary⟩ := bind_eq_ok hbinary
      obtain ⟨-, rfl⟩ := pure_eq_ok hbinary
      exact behind_last hfound
    have hwhole := last_of_last (last_of_last hterm hsteps) hbinary
    split at h
    · obtain ⟨o, mid, hfound, h⟩ := bind_eq_ok h
      obtain ⟨-, rfl⟩ := pure_eq_ok h
      exact last_of_last hwhole (behind_last hfound)
    · obtain ⟨-, rfl⟩ := pure_eq_ok h
      exact hwhole

end Terms

instance EndsInToken.exprWithin (n : Nat) (m : Mode) : EndsInToken (exprWithin n m) := by
  induction n generalizing m with
  | zero => exact EndsInToken.absent
  | succ n ih => exact EndsInToken.exprStep (Reader.exprWithin n) m

/-- Expressions end in a token. -/
instance EndsInToken.expr (m : Mode) : EndsInToken (expr m) := by
  unfold Reader.expr
  infer_instance

end HclOverlay.Hcl.Reader
