import HclOverlay.Proofs.Excerpts.Templates

/-!
# Lists and calls in excerpts

Items are separated by commas, and the white space behind an item belongs to it. So what follows an
item is a comma or what closes the list, and where a comma closes the list no item stands behind it.
A name that is not called in front of `y` is not called alone either, because where arguments start
a call is found or malformed.

* `onHead` — readers that look at the next character.
* `Closes`, `ListEnds` — where the items of a list end.
* `moreItems_alone`, `listItems_alone`, `alone_list` — **lists**, by induction on the bound on their
  items.
* `Certain` — readers that never find their text absent; `callOf_open` — calls.
* `alone_nameOrCall` — names and calls.
-/

namespace HclOverlay.Hcl.Reader

variable {α β : Type} {y cs mid rest : List Char} {k : Nat} {stops : List Char}
variable {expr expr' : Reader Expr} {self self' : Mode → Reader Expr} {m : Mode}

/-! ## Looking at the next character -/

/-- Reads in a way that the next character decides. -/
def onHead (f : Option Char → Reader α) : Reader α := fun cs => f cs.head? cs

instance Consumes.onHead (f : Option Char → Reader α) [hf : ∀ o, Consumes (f o)] :
    Consumes (onHead f) where
  leaves h := (hf _).leaves h

instance Takes.onHead (f : Option Char → Reader α) [hf : ∀ o, Takes (f o)] :
    Takes (onHead f) where
  shorter h := (hf _).shorter h

instance Opens.onHead (f : Option Char → Reader α) [hf : ∀ o, Opens (f o)] :
    Opens (onHead f) where
  first h := (hf _).first h

instance Opens.absent : Opens (absent : Reader α) where
  first := nofun

instance Opens.ite (c : Prop) [Decidable c] (r s : Reader α) [hr : Opens r] [hs : Opens s] :
    Opens (if c then r else s) where
  first h := by
    split at h
    · exact hr.first h
    · exact hs.first h

theorem Alone.absent {P : List Char → Prop} : Alone y k P (absent : Reader α) absent := nofun

/-- The next character is one of the excerpt. -/
theorem Alone.onHead {P : List Char → Prop} {f f' : Option Char → Reader α}
    (hf : ∀ o, Alone y k P (f o) (f' o))
    (hne : ∀ {o cs rest a}, f o (cs ++ y) = .ok (a, rest ++ y) → P rest → cs ≠ []) :
    Alone y k P (onHead f) (onHead f') := by
  intro cs rest a hlen hfilled h hP
  cases cs with
  | nil => exact absurd rfl (hne h hP)
  | cons c tail => exact hf (some c) hlen hfilled h hP

/-- What takes a character takes one of the excerpt. -/
theorem Takes.ne_nil {r : Reader α} [hr : Takes r] {a : α}
    (h : r (cs ++ y) = .ok (a, rest ++ y)) : cs ≠ [] := by
  rintro rfl
  have := hr.shorter h
  rw [List.nil_append, List.length_append] at this
  omega

/-- What leaves something of the excerpt starts in it. -/
theorem Consumes.ne_nil {r : Reader α} [hr : Consumes r] {a : α}
    (h : r (cs ++ y) = .ok (a, rest ++ y)) (hrest : rest ≠ []) : cs ≠ [] := by
  rintro rfl
  have hlen := (hr.leaves h).length_le
  simp only [List.length_append, List.nil_append] at hlen
  exact hrest (List.length_eq_zero_iff.1 (by omega))

instance : Opens (char ']') := .char rfl

instance : Opens (char ')') := .char rfl

instance : Opens (char '}') := .char rfl

/-! ## Lists -/

/-- Reads an item and the white space behind it. -/
def itemFrom (expr : Reader Expr) (before : Trivia) : Reader (Padded Expr) := do
  let item ← expr
  let after ← white
  return ⟨before, item, after⟩

theorem listItem_eq (stops : List Char) (expr : Reader Expr) :
    listItem stops expr = (do
      let before ← white
      onHead fun next => if next.any (stops.contains ·) then absent else itemFrom expr before) := rfl

instance [Consumes expr] (before : Trivia) : Consumes (itemFrom expr before) := by
  unfold itemFrom
  infer_instance

instance [Opens expr] (before : Trivia) : Opens (itemFrom expr before) := by
  unfold itemFrom
  infer_instance

theorem alone_itemFrom (h : Readable y k expr expr') (before : Trivia) :
    Alone y k Firm (itemFrom expr before) (itemFrom expr' before) := by
  have hc := h.consumes
  refine h.alone.bind (fun item => alone_white.bind (fun after => .pure _) ?_) ?_
  · intro after mid b rest _ hread hfirm
    obtain ⟨-, hrest⟩ := pure_eq_ok hread
    rw [List.append_cancel_right hrest] at hfirm
    exact hfirm.ends true
  · intro item mid b rest _ hread hfirm
    obtain ⟨after, left, hwhite, hread⟩ := bind_eq_ok hread
    obtain ⟨-, rfl⟩ := pure_eq_ok hread
    exact .of_white hwhite hfirm

theorem alone_listItem (h : Readable y k expr expr') :
    Alone y k Firm (listItem stops expr) (listItem stops expr') := by
  have hc := h.consumes
  have ho := h.opens
  rw [listItem_eq, listItem_eq]
  exact .whiteBefore fun before => .onHead (fun next => .ite _ .absent (alone_itemFrom h before))
    fun hread _ => Takes.ne_nil hread

instance [Consumes expr] [Opens expr] : Takes (listItem stops expr) := by
  rw [listItem_eq]
  exact Takes.andThen fun _ => inferInstance

/-- White space is read behind an item. -/
theorem listItem_ends {item : Padded Expr} (h : listItem stops expr cs = .ok (item, rest)) :
    Ends true rest := by
  rw [listItem_eq] at h
  obtain ⟨before, start, -, h⟩ := bind_eq_ok h
  rw [onHead] at h
  split at h
  · cases h
  · obtain ⟨e, mid, -, h⟩ := bind_eq_ok h
    obtain ⟨after, left, hwhite, h⟩ := bind_eq_ok h
    obtain ⟨-, rfl⟩ := pure_eq_ok h
    exact (white_eq_ok hwhite).2.1

/-- What closes a list follows, behind white space. -/
def Closes (stops rest : List Char) : Prop :=
  ∃ t z, white rest = .ok (t, z) ∧ Firm z ∧ ∃ c ∈ stops, z.head? = some c ∧ c ≠ ','

/-- The items of a list end here, with a comma behind the last one or without. -/
def ListEnds (stops rest : List Char) : Prop :=
  Closes stops rest ∨ ∃ tail, rest = ',' :: tail ∧ Closes stops tail

theorem Closes.listItem_absent (h : Closes stops rest) :
    listItem stops expr rest = .error .absent := by
  obtain ⟨t, z, hwhite, -, c, hc, hz, -⟩ := h
  obtain ⟨tail, rfl⟩ := List.head?_eq_some_iff.1 hz
  exact listItem_stop hwhite hc

theorem Closes.not_comma (h : Closes stops rest) : rest.head? ≠ some ',' := by
  intro hcomma
  obtain ⟨tail, rfl⟩ := List.head?_eq_some_iff.1 hcomma
  obtain ⟨t, z, hwhite, -, c, -, hz, hc⟩ := h
  have hnone : white (',' :: tail) = .ok ([], ',' :: tail) :=
    (ends_of_startsToken (c := ',') rfl true tail).white
  rw [hnone] at hwhite
  cases hwhite
  exact hc (Option.some.inj hz).symm

theorem ListEnds.more_absent (h : ListEnds stops rest) :
    (do char ','; listItem stops expr : Reader (Padded Expr)) rest = .error .absent := by
  rcases h with h | ⟨tail, rfl, h⟩
  · exact bind_error (char_of_ne h.not_comma) _
  · rw [bind_ok (char_self _ _), h.listItem_absent]

theorem firm_comma (h : mid ≠ []) : Firm (',' :: mid) := by
  cases mid with
  | nil => contradiction
  | cons d tail => exact firm_token rfl nofun

/-- Behind an item, the end of a list is firm. -/
theorem ListEnds.firm (h : ListEnds stops rest) (hends : Ends true (rest ++ y)) : Firm rest := by
  rcases h with ⟨t, z, hwhite, hz, -⟩ | ⟨tail, rfl, t, z, hwhite, hz, -⟩
  · obtain ⟨rfl, -, -, hskips⟩ := white_eq_ok hwhite
    have hne : z ≠ [] := by
      rintro rfl
      cases hz
    have hread : white (t ++ z ++ y) = .ok (t, z ++ y) := by
      rw [List.append_assoc]
      exact (hskips hne).white (firm_ends hz true y)
    rw [hends.white] at hread
    obtain ⟨rfl, -⟩ := Prod.mk.inj (Except.ok.inj hread)
    exact hz
  · refine firm_comma ?_
    rintro rfl
    cases hwhite
    cases hz

/-- What follows an item is firm. -/
theorem firm_of_moreItems [Consumes expr] [Opens expr] {n : Nat} {items : List (Padded Expr)}
    (h : moreItems stops expr n (mid ++ y) = .ok (items, rest ++ y)) (hrest : ListEnds stops rest)
    (hends : Ends true (mid ++ y)) : Firm mid := by
  cases n with
  | zero => cases h
  | succ n =>
    rcases opt_excerpt h with ⟨item, left, hitem, -, -⟩ | ⟨-, h⟩
    · obtain ⟨tail, rfl, htail⟩ := char_excerpt hitem
      exact firm_comma (Takes.ne_nil htail)
    · obtain rfl := List.append_cancel_right (pure_eq_ok h).2
      exact hrest.firm hends

/-- Further items are read alone. The induction is on the bound on their number. -/
theorem moreItems_alone (hexpr : Readable y k expr expr') {n n' : Nat} {items : List (Padded Expr)}
    (hlen : cs.length < n') (hk : n' ≤ k + 1) (hfilled : Filled cs) (hends : Ends true (cs ++ y))
    (h : moreItems stops expr n (cs ++ y) = .ok (items, rest ++ y)) (hrest : ListEnds stops rest) :
    moreItems stops expr' n' cs = .ok (items, rest) := by
  have hc := hexpr.consumes
  have ho := hexpr.opens
  induction n generalizing cs n' items with
  | zero => cases h
  | succ n ih =>
    obtain ⟨n', rfl⟩ := Nat.exists_eq_add_of_le' (show 1 ≤ n' by omega)
    rcases opt_excerpt h with ⟨item, left, hitem, hleft, h⟩ | ⟨-, h⟩
    · obtain ⟨more, c₁, hmore, h⟩ := bind_eq_ok h
      obtain ⟨rfl, rfl⟩ := pure_eq_ok h
      have hshorter := Takes.shorter hitem
      have hends' : Ends true (left ++ y) := by
        obtain ⟨_, c₁, -, hitem⟩ := bind_eq_ok hitem
        exact listItem_ends hitem
      have halone : Alone y (k + 1) Firm (do char ','; listItem stops expr : Reader (Padded Expr))
          (do char ','; listItem stops expr') :=
        .bindTakes (alone_char ',') (fun _ => alone_listItem hexpr) fun _ _ _ => trivial
      have hitem' := halone (by omega) hfilled hitem (firm_of_moreItems hmore hrest hends')
      simp only [List.length_append] at hshorter
      rw [moreItems, bind_ok (opt_ok hitem')]
      change (moreItems stops expr' n' >>= _) left = _
      rw [bind_ok (ih (by omega) (by omega) (hfilled.suffix hleft) hends' hmore)]
      rfl
    · obtain ⟨rfl, hcs⟩ := pure_eq_ok h
      obtain rfl := List.append_cancel_right hcs
      rw [moreItems, bind_ok (opt_absent hrest.more_absent)]
      rfl

/-- Items are read alone. Only behind an item may a comma be left. -/
theorem listItems_alone (hexpr : Readable y k expr expr') {items : List (Padded Expr)}
    (hlen : cs.length < k) (hfilled : Filled cs)
    (h : listItems stops expr (cs ++ y) = .ok (items, rest ++ y))
    (hrest : ListEnds stops rest ∧ (items = [] → Closes stops rest)) :
    listItems stops expr' cs = .ok (items, rest) := by
  have hc := hexpr.consumes
  have ho := hexpr.opens
  rcases opt_excerpt h with ⟨item, left, hitem, hleft, h⟩ | ⟨-, h⟩
  · obtain ⟨more, c₁, hmore, h⟩ := bind_eq_ok h
    obtain ⟨rfl, rfl⟩ := pure_eq_ok h
    have hends := listItem_ends hitem
    have hitem' := alone_listItem hexpr hlen hfilled hitem
      (firm_of_moreItems hmore hrest.1 hends)
    have hshorter := hleft.length_le
    exact listItems_cons hitem' (moreItems_alone hexpr (Nat.lt_succ_self _) (by omega)
      (hfilled.suffix hleft) hends hmore hrest.1)
  · obtain ⟨rfl, hcs⟩ := pure_eq_ok h
    obtain rfl := List.append_cancel_right hcs
    exact listItems_nil (hrest.2 rfl).listItem_absent

/-- What closes a list is behind the white space here. -/
theorem closes_of_ok {c : Char} (hstop : c ∈ stops) (hc : c = ']' ∨ c = ')' ∨ c = '}')
    {f : Trivia → Reader β} [hf : ∀ t, Consumes (f t)] {b : β} (hfilled : Filled mid)
    (h : (do let closing ← white; commit (char c); f closing : Reader β) (mid ++ y) =
      .ok (b, rest ++ y)) : Closes stops mid := by
  obtain ⟨closing, left, hwhite, -, h⟩ := bind_excerpt h
  obtain ⟨tail, rfl, -⟩ := commit_char_excerpt h
  have hfirm := firm_closing hc tail
  have hread := alone_white (Nat.lt_succ_self _) hfilled hwhite (Firm.ends hfirm true)
  refine ⟨closing, c :: tail, hread, hfirm, c, hstop, rfl, ?_⟩
  rintro rfl
  rcases hc with hc | hc | hc <;> cases hc

theorem alone_list (hexpr : Readable y k expr expr') :
    Alone y (k + 1) Anywhere (list expr) (list expr') := by
  have hc := hexpr.consumes
  have hend : ∀ items comma, Alone y k Anywhere (do
      let closing ← white; commit (char ']'); return Expr.list items comma closing) _ :=
    fun items comma => .whiteBefore fun closing => .andThen (alone_char ']').commit fun _ => .pure _
  refine .bindTakes (alone_char '[') (fun _ => .bindWith (listItems_alone hexpr) (fun items =>
    .ite _ (.andThen (.pure _) fun comma => hend items comma)
      (.andThen (alone_flag ',') fun comma => hend items comma)) ?_) fun _ _ _ => trivial
  intro items mid e rest hfilled h _
  dsimp only at h
  split at h
  · obtain ⟨comma, c₁, hcomma, h⟩ := bind_eq_ok h
    obtain ⟨-, rfl⟩ := pure_eq_ok hcomma
    have hcloses : Closes [']'] mid := closes_of_ok (by simp) (.inl rfl) hfilled h
    exact ⟨.inl hcloses, fun _ => hcloses⟩
  · next hne =>
    refine ⟨?_, fun hnil => absurd (by rw [hnil]; rfl) hne⟩
    rcases flag_excerpt h with ⟨tail, rfl, hend⟩ | hend
    · exact .inr ⟨tail, rfl, closes_of_ok (by simp) (.inl rfl)
        (hfilled.suffix (List.suffix_cons ',' tail)) hend⟩
    · exact .inl (closes_of_ok (by simp) (.inl rfl) hfilled hend)

/-! ## Calls -/

/-- A reader that may find its text malformed, but never absent. -/
class Certain (r : Reader α) : Prop where
  found (cs : List Char) : r cs ≠ .error .absent

instance (a : α) : Certain (pure a : Reader α) where
  found _ := nofun

instance Certain.bind (r : Reader α) (f : α → Reader β) [hr : Certain r]
    [hf : ∀ a, Certain (f a)] : Certain (r >>= f) where
  found cs h := by
    rw [bind_apply] at h
    split at h
    · next a rest _ => exact (hf a).found rest h
    · next hread =>
      cases h
      exact hr.found cs hread

instance (r : Reader α) : Certain (commit r) where
  found cs h := by
    rcases hr : r cs with m | ⟨a, rest⟩
    · rw [commit_error hr] at h
      cases h
    · rw [commit_ok hr] at h
      cases h

instance (r : Reader α) : Certain (opt r) where
  found cs h := by
    rcases hr : r cs with (_ | _) | ⟨a, rest⟩
    · rw [opt_absent hr] at h
      cases h
    · rw [opt_malformed hr] at h
      cases h
    · rw [opt_ok hr] at h
      cases h

instance : Certain white where
  found _ := nofun

instance (c : Prop) [Decidable c] (r s : Reader α) [hr : Certain r] [hs : Certain s] :
    Certain (if c then r else s) where
  found cs := by
    split
    · exact hr.found cs
    · exact hs.found cs

/-- If only the first character can be absent, it is. -/
theorem head?_of_absent {c : Char} {f : Unit → Reader β} [hf : Certain (f ())]
    (h : (char c >>= f) cs = .error .absent) : cs.head? ≠ some c := by
  intro hc
  obtain ⟨tail, rfl⟩ := List.head?_eq_some_iff.1 hc
  rw [bind_ok (char_self _ _)] at h
  exact hf.found tail h

theorem alone_argsEnd : Alone y k Anywhere argsEnd argsEnd := by
  refine .orElse (.andThen (alone_char ',') fun _ => .pure _)
    (.orElse (.andThen (alone_char '.') fun _ => .andThen (alone_text _).commit fun _ => .pure _)
      (.pure _) ?_) ?_
  · exact fun _ _ h _ _ => bind_error (char_of_ne (head?_excerpt (head?_of_absent h))) _
  · exact fun _ _ h _ _ => bind_error (char_of_ne (head?_excerpt (head?_of_absent h))) _

instance : Certain argsEnd where
  found cs h := by
    rw [argsEnd, orElse_apply] at h
    split at h
    · rw [orElse_apply] at h
      split at h
      · cases h
      · next hno => exact hno h
    · next hno => exact hno h

theorem moreItems_found [Consumes expr] {n : Nat} (h : cs.length < n) :
    moreItems stops expr n cs ≠ .error .absent := by
  induction n generalizing cs with
  | zero => cases h
  | succ n ih =>
    intro hno
    rw [moreItems, bind_apply] at hno
    split at hno
    · next found rest hfound =>
      rcases opt_eq_ok hfound with ⟨item, rfl, hitem⟩ | ⟨rfl, -⟩
      · have hshorter := Takes.shorter hitem
        change (moreItems stops expr n >>= fun more => pure (item :: more)) rest = _ at hno
        exact ih (by omega) (return_eq_error hno)
      · cases hno
    · next hno' =>
      cases hno
      exact Certain.found _ hno'

instance [Consumes expr] : Certain (listItems stops expr) := by
  have hmore : Certain (bounded (moreItems stops expr)) :=
    ⟨fun cs => moreItems_found (Nat.lt_succ_self _)⟩
  unfold listItems
  exact @Certain.bind _ _ _ _ inferInstance fun found => by cases found <;> infer_instance

/-- Where the arguments of a call start, the call is found. -/
theorem callOf_open [Consumes (self m.spread)] {t : Trivia} {z : List Char} {name : String}
    (hgap : gap m.newlines cs = .ok (t, z)) (hz : z.head? = some '(') :
    callOf self m name cs ≠ .error .absent := by
  obtain ⟨tail, rfl⟩ := List.head?_eq_some_iff.1 hz
  have hpath : bounded (morePath m) ('(' :: tail) = .ok ([], '(' :: tail) := rfl
  rw [callOf, bind_ok hgap, bind_ok hpath, bind_ok (char_self _ _)]
  exact Certain.found tail

theorem morePath_eq (m : Mode) (n : Nat) :
    morePath m (n + 1) = onHead fun next => if next == some '(' then pure [] else do
      text [':', ':']
      let before ← gap m.newlines
      let name ← identifier
      let after ← gap m.newlines
      let rest ← morePath m n
      return ⟨before, name, after⟩ :: rest := rfl

/-- The path of a call starts with a token. -/
theorem morePath_ends {n : Nat} {path : List (Padded String)}
    (h : morePath m n (mid ++ y) = .ok (path, rest ++ y)) (hrest : ∃ tail, rest = '(' :: tail)
    (newlines : Bool) : Ends newlines mid := by
  cases n with
  | zero => cases h
  | succ n =>
    rw [morePath_eq, onHead] at h
    split at h
    · obtain ⟨tail, rfl⟩ := hrest
      rw [← List.append_cancel_right (pure_eq_ok h).2]
      exact ends_of_startsToken rfl newlines tail
    · have hopens : Opens (text [':', ':']) := .text rfl _
      exact Opens.ends _ h newlines

theorem alone_morePath {n n' : Nat} :
    Alone y n' (fun rest => ∃ tail, rest = '(' :: tail) (morePath m n) (morePath m n') := by
  induction n generalizing n' with
  | zero => nofun
  | succ n ih =>
    cases n' with
    | zero => exact fun _ _ _ hlen => absurd hlen (Nat.not_lt_zero _)
    | succ n' =>
      rw [morePath_eq, morePath_eq]
      refine .onHead (fun next => .ite _ (.pure _) (.bindTakes (alone_text _) (fun _ =>
        .gapBefore fun before => .andThen alone_identifier fun name =>
          .bind (alone_gap _) (fun after => ih.map _) ?_) fun _ _ _ => trivial)) ?_
      · intro after mid path rest _ h hrest
        obtain ⟨more, c₁, hmore, h⟩ := bind_eq_ok h
        obtain ⟨-, rfl⟩ := pure_eq_ok h
        exact morePath_ends hmore hrest _
      · rintro next cs rest path h ⟨tail, rfl⟩
        split at h
        · rw [← List.append_cancel_right (pure_eq_ok h).2]
          exact List.cons_ne_nil _ _
        · exact Takes.ne_nil h

theorem alone_callOf (hself : ∀ m, Readable y k (self m) (self' m)) (name : String) :
    Alone y k Anywhere (callOf self m name) (callOf self' m name) := by
  have hc := fun m => (hself m).consumes
  have hend : ∀ path args ending, Alone y k Anywhere (do
      let closing ← white
      commit (char ')')
      return Expr.call path args ending closing) _ := fun path args ending =>
    .whiteBefore fun closing => .andThen (alone_char ')').commit fun _ => .pure _
  -- part by part; where the arguments end depends on what stands behind them
  refine .bind (alone_gap _) (fun after => .bind (.bounded fun n n' _ => alone_morePath)
    (fun path => .andThen (alone_char '(') fun _ => .bindWith (listItems_alone (hself _)) (fun args =>
      .ite _ (.andThen (.pure _) fun ending => hend _ args ending)
        (.andThen alone_argsEnd fun ending => hend _ args ending)) ?_) ?_) ?_
  · intro args mid e rest hfilled h _
    dsimp only at h
    split at h
    · obtain ⟨ending, c₁, hending, h⟩ := bind_eq_ok h
      obtain ⟨-, rfl⟩ := pure_eq_ok hending
      have hcloses : Closes [',', '.', ')'] mid :=
        closes_of_ok (by simp) (.inr (.inl rfl)) hfilled h
      exact ⟨.inl hcloses, fun _ => hcloses⟩
    · next hne =>
      refine ⟨?_, fun hnil => absurd (by rw [hnil]; rfl) hne⟩
      obtain ⟨ending, left, hending, hleft, h⟩ := bind_excerpt h
      have hcloses : Closes [',', '.', ')'] left :=
        closes_of_ok (by simp) (.inr (.inl rfl)) (hfilled.suffix hleft) h
      rcases orElse_eq_ok hending with hending | ⟨-, hending⟩
      · obtain ⟨tail, rfl, hcomma⟩ := char_excerpt hending
        obtain rfl := List.append_cancel_right (pure_eq_ok hcomma).2
        exact .inr ⟨left, rfl, hcloses⟩
      · rcases orElse_eq_ok hending with hending | ⟨-, hending⟩
        · obtain ⟨tail, rfl, hpoints⟩ := char_excerpt hending
          obtain ⟨tail, rfl, -⟩ := commit_text_excerpt hpoints
          exact .inl ⟨[], _, (ends_of_startsToken (c := '.') rfl true _).white,
            firm_token rfl nofun, '.', by simp, rfl, by decide⟩
        · rw [← List.append_cancel_right (pure_eq_ok hending).2]
          exact .inl hcloses
  · intro path mid e rest _ h _
    obtain ⟨tail, hmid, -⟩ := char_excerpt h
    exact ⟨tail, hmid⟩
  · intro after mid e rest _ h _
    obtain ⟨path, left, hpath, -, h⟩ := bind_excerpt h
    obtain ⟨tail, hleft, -⟩ := char_excerpt h
    exact morePath_ends hpath ⟨tail, hleft⟩ _

instance [∀ m, Consumes (self m)] (name : String) : Consumes (callOf self m name) := by
  unfold callOf
  infer_instance

theorem alone_nameOrCall (hself : ∀ m, Readable y k (self m) (self' m)) :
    Alone y (k + 1) (Settled y) (nameOrCall self m) (nameOrCall self' m) := by
  have hc := fun m => (hself m).consumes
  refine .bindTakes alone_identifier (fun name => .orElse
    ((alone_callOf hself name).weaken fun _ _ => trivial) (.pure _) ?_) fun _ _ _ => trivial
  intro cs rest e _ _ hno hread hrest
  obtain ⟨-, hcs⟩ := pure_eq_ok hread
  obtain rfl := List.append_cancel_right hcs
  rcases hrest.not_call m.newlines with ⟨t, z, hgap, hcall⟩ | ⟨t, z, hgap, hopen⟩
  · exact callOf_absent hgap hcall
  · exact absurd hno (callOf_open hgap hopen)

end HclOverlay.Hcl.Reader
