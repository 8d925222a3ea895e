import HclOverlay.FileTree.Basic
import HclOverlay.Proofs.Path.Pieces

/-!
# Where paths lead

A path leads to a location that can be told from its text alone: `..` takes back the step before it.
A tree only decides whether the way there can be walked.

* `Path.steps`, `Path.location` — the steps of a path, and where they lead.
* `steps_join`, `location_join` — the same for joined paths.
* `steps_ancestor` — what lies above a path is on its way.
* `below`, `location_below`, `components_below` — paths that rows of names lead to.
* `stripBase?_below` — **a path below another one, seen from it, is what was joined**.
* `IsPlain`, `startsWith_iff` — for paths without detours, starting with a path is lying below it.
-/

namespace HclOverlay.Path

/-! ## Steps -/

/-- A component as a step from a location. -/
def Component.walk (l : Location) : Component → Location
  | .root => l
  | .here => l
  | .up => l.dropLast
  | .name n => l ++ [n]

/-- The steps of a path. -/
def steps (p : Path) : List Component := p.pieces.filterMap componentOf?

/-- The location that a path leads to. -/
def location (p : Path) : Location := p.steps.foldl Component.walk []

/-- What a path starts with besides its steps. -/
def startOf : List (List Char) → List Component
  | [] :: _ :: _ => [.root]
  | ['.'] :: _ => [.here]
  | _ => []

theorem componentsOf_eq (cs : List Char) :
    componentsOf cs = startOf (splitSlashes cs) ++ (splitSlashes cs).filterMap componentOf? := by
  cases cs with
  | nil => rfl
  | cons c rest =>
    by_cases hc : c = '/'
    · subst hc
      cases hrest : splitSlashes rest with
      | nil => exact absurd hrest (splitSlashes_ne_nil rest)
      | cons first more =>
        rw [componentsOf, splitSlashes, hrest]
        rfl
    · obtain ⟨first, more, -, hcons⟩ := splitSlashes_cons hc rest
      have hstart : startOf ((c :: first) :: more) =
          if (c :: first) = ['.'] then [.here] else [] := by
        split
        · next h => rw [h]; rfl
        · next h => exact startOf.eq_3 _ (by simp) fun more' h' => h (List.cons.inj h').1
      rw [componentsOf, hcons, hstart]
      · by_cases hhere : c :: first = ['.']
        · simp [hhere]
        · have hparts : ¬(c = '.' ∧ first = []) := by simpa using hhere
          simp [hhere, hparts]
      · rintro more' h'
        exact hc (List.cons.inj h').1

theorem components_eq (p : Path) : p.components = startOf p.pieces ++ p.steps :=
  componentsOf_eq _

theorem parts_eq (p : Path) :
    p.parts = if p.text.isEmpty then [] else p.pieces.map String.ofList := rfl

theorem pieces_ne_nil (p : Path) : p.pieces ≠ [] := splitSlashes_ne_nil _

theorem not_mem_pieces {p : Path} {piece : List Char} (h : piece ∈ p.pieces) : '/' ∉ piece :=
  not_mem_of_mem_splitSlashes h

/-- How the stems of a path start. -/
theorem stems_cases (p : Path) :
    (∃ ss, p.stems = [] :: ss ∧ startOf p.pieces = [.root]) ∨
      (∃ ss, p.stems = ['.'] :: ss ∧ startOf p.pieces = [.here]) ∨
      (startOf p.pieces = [] ∧ ∀ s ∈ p.stems.head?, isIdle s = false) := by
  have hother : ∀ {s : List Char}, s ≠ [] → s ≠ ['.'] → isIdle s = false := by
    intro s hnil hhere
    rw [isIdle, Bool.or_eq_false_iff, List.isEmpty_eq_false_iff, beq_eq_false_iff_ne]
    exact ⟨hnil, hhere⟩
  rcases hp : p.pieces with _ | ⟨first, _ | ⟨next, more⟩⟩
  · exact absurd hp p.pieces_ne_nil
  · -- one piece alone
    by_cases hnil : first = []
    · subst hnil
      exact .inr (.inr ⟨rfl, by simp [stems, hp]⟩)
    · by_cases hhere : first = ['.']
      · subst hhere
        exact .inr (.inl ⟨[], by simp [stems, hp], rfl⟩)
      · refine .inr (.inr ⟨startOf.eq_3 _ (by simp) fun more h => hhere (List.cons.inj h).1, ?_⟩)
        intro s hs
        rw [stems, hp, if_neg (by simpa using hnil)] at hs
        cases hs
        exact hother hnil hhere
  · -- more behind the first piece
    obtain ⟨ss, hss⟩ : ∃ ss, p.stems = first :: ss := by
      rw [stems, hp]
      split
      · exact ⟨_, rfl⟩
      · exact ⟨_, rfl⟩
    by_cases hnil : first = []
    · subst hnil
      exact .inl ⟨ss, hss, rfl⟩
    · by_cases hhere : first = ['.']
      · subst hhere
        exact .inr (.inl ⟨ss, hss, rfl⟩)
      · refine .inr (.inr ⟨startOf.eq_3 _ (fun _ _ h => hnil (List.cons.inj h).1)
          fun more h => hhere (List.cons.inj h).1, ?_⟩)
        intro s hs
        rw [hss] at hs
        cases hs
        exact hother hnil hhere

theorem filterMap_stems (p : Path) : p.stems.filterMap componentOf? = p.steps := by
  rw [stems, steps]
  split
  · next h =>
    obtain ⟨front, hfront⟩ := List.getLast?_eq_some_iff.1 h
    rw [hfront, List.dropLast_concat, List.filterMap_append]
    simp [componentOf?]
  · rfl

/-- **Joining** goes on from where the first path leads. -/
theorem steps_join (base : Path) {child : String} (h : IsRelative child) :
    (base.join child).steps = base.steps ++ steps ⟨child⟩ := by
  rw [steps, pieces_join base h, List.filterMap_append, filterMap_stems]
  rfl

/-- Only the empty path has no stems. -/
theorem stems_ne_nil {base : Path} (h : base.text ≠ "") : base.stems ≠ [] := by
  intro hstems
  rw [stems] at hstems
  split at hstems
  · next hlast =>
    obtain ⟨front, hfront⟩ := List.getLast?_eq_some_iff.1 hlast
    rw [hfront, List.dropLast_concat] at hstems
    have htext := joinSlashes_splitSlashes base.text.toList
    rw [← pieces, hfront, hstems] at htext
    exact h (String.toList_inj.1 htext.symm)
  · exact base.pieces_ne_nil hstems

/-- What is joined to a path loses its start, which may be a point. -/
theorem components_join {base : Path} (hbase : base.text ≠ "") {child : String}
    (h : IsRelative child) : (base.join child).components = base.components ++ steps ⟨child⟩ := by
  rw [components_eq, components_eq base, steps_join base h, pieces_join base h, ← List.append_assoc]
  congr 2
  rcases base.stems_cases with ⟨ss, hss, hstart⟩ | ⟨ss, hss, hstart⟩ | ⟨hstart, hhead⟩
  · obtain ⟨next, more, hnext⟩ := List.exists_cons_of_ne_nil (splitSlashes_ne_nil child.toList)
    rw [hss, hstart, hnext]
    cases ss <;> rfl
  · rw [hss, hstart]
    rfl
  · obtain ⟨s, ss, hss⟩ := List.exists_cons_of_ne_nil (stems_ne_nil hbase)
    have hs : isIdle s = false := hhead s (by rw [hss]; rfl)
    rw [hss, hstart]
    refine startOf.eq_3 _ (fun _ _ h' => ?_) fun _ h' => ?_
    · rw [(List.cons.inj h').1] at hs
      cases hs
    · rw [(List.cons.inj h').1] at hs
      cases hs

theorem location_join (base : Path) {child : String} (h : IsRelative child) :
    (base.join child).location = (steps ⟨child⟩).foldl Component.walk base.location := by
  rw [location, steps_join base h, List.foldl_append, location]

theorem IsName.steps {name : String} (h : IsName name) : Path.steps ⟨name⟩ = [.name name] := by
  rw [Path.steps, Path.pieces, h.pieces, List.filterMap_cons_some h.componentOf?]
  rfl

theorem location_join_name (base : Path) {name : String} (h : IsName name) :
    (base.join name).location = base.location ++ [name] := by
  rw [location_join base h.isRelative, h.steps]
  rfl

/-! ## Parents -/

/-- A slash ends a piece. -/
theorem filterMap_splitSlashes_append (a b : List Char) :
    (splitSlashes (a ++ '/' :: b)).filterMap componentOf? =
      (splitSlashes a).filterMap componentOf? ++ (splitSlashes b).filterMap componentOf? := by
  rw [splitSlashes_append, List.filterMap_append]

/-- What is trimmed from the end of a text is no step. -/
theorem filterMap_trimEnd (cs : List Char) :
    (splitSlashes (trimEnd cs)).filterMap componentOf? = (splitSlashes cs).filterMap componentOf? := by
  suffices h : ∀ cs, (splitSlashes (trimEndReversed cs).reverse).filterMap componentOf? =
      (splitSlashes cs.reverse).filterMap componentOf? by
    rw [trimEnd, h, List.reverse_reverse]
  intro cs
  fun_induction trimEndReversed cs with
  | case1 rest hrest =>
    rw [List.isEmpty_iff.1 hrest]
  | case2 rest hrest ih =>
    rw [ih, List.reverse_cons, filterMap_splitSlashes_append]
    exact (List.append_nil _).symm
  | case3 rest hrest =>
    rw [List.isEmpty_iff.1 hrest]
    rfl
  | case4 rest hrest ih =>
    rw [ih, List.reverse_cons, List.reverse_cons, List.append_assoc, List.singleton_append,
      filterMap_splitSlashes_append]
    exact (List.append_nil _).symm
  | case5 cs => rfl

/-- The steps of a parent. -/
theorem steps_parent {p q : Path} (h : p.parent? = some q) : q.steps <+: p.steps := by
  have htext : ∃ front last, trimEnd p.text.toList = front ++ last ∧
      q = ⟨String.ofList (trimEnd front)⟩ ∧ (front = [] ∨ front.getLast? = some '/') := by
    unfold parent? at h
    split at h
    · cases h
    · cases h
    · refine ⟨_, ((trimEnd p.text.toList).reverse.takeWhile (· != '/')).reverse, ?_,
        (Option.some.inj h).symm, ?_⟩
      · rw [← List.reverse_append, List.takeWhile_append_dropWhile, List.reverse_reverse]
      · cases hrest : (trimEnd p.text.toList).reverse.dropWhile (· != '/') with
        | nil => exact .inl rfl
        | cons c rest =>
          have hc := List.head?_dropWhile_not (· != '/') (trimEnd p.text.toList).reverse
          rw [hrest] at hc
          right
          simpa using hc
  obtain ⟨front, last, hp, rfl, hfront⟩ := htext
  rw [steps, steps, pieces, pieces, String.toList_ofList, filterMap_trimEnd,
    ← filterMap_trimEnd p.text.toList, hp]
  rcases hfront with rfl | hfront
  · exact List.nil_prefix
  · obtain ⟨front, rfl⟩ := List.getLast?_eq_some_iff.1 hfront
    rw [List.append_assoc, List.singleton_append, filterMap_splitSlashes_append,
      filterMap_splitSlashes_append]
    exact (List.prefix_append_right_inj _).2 List.nil_prefix

theorem steps_ancestor {p q : Path} (h : q ∈ p.ancestors) : q.steps <+: p.steps := by
  suffices hall : ∀ n p, q ∈ ancestorsWithin n p → q.steps <+: p.steps from hall _ p h
  intro n
  induction n with
  | zero => exact fun p hq => absurd hq List.not_mem_nil
  | succ n ih =>
    intro p hq
    rw [ancestorsWithin] at hq
    split at hq
    · cases hq
    · next up hup =>
      rcases List.mem_cons.1 hq with rfl | hq
      · exact List.prefix_rfl
      · exact (ih up hq).trans (steps_parent hup)

/-! ## Rows of names -/

section Rows

variable {row : List String}

/-- The path that a row of names leads to from a path. -/
def below (base : Path) (row : List String) : Path := row.foldl join base

theorem pieces_below (base : Path) (hne : row ≠ []) (h : ∀ name ∈ row, IsName name) :
    (base.below row).pieces = base.stems ++ row.map String.toList := by
  induction row generalizing base with
  | nil => exact absurd rfl hne
  | cons name rest ih =>
    rw [List.forall_mem_cons] at h
    have hpieces : (base.join name).pieces = base.stems ++ [name.toList] := by
      rw [pieces_join base h.1.isRelative, h.1.pieces]
    cases rest with
    | nil => exact hpieces
    | cons next rest =>
      have hstems : (base.join name).stems = base.stems ++ [name.toList] := by
        rw [stems, hpieces, if_neg]
        rw [List.getLast?_concat]
        exact fun h' => h.1.toList_ne_nil (Option.some.inj h')
      rw [below, List.foldl_cons, ← below, ih _ (List.cons_ne_nil _ _) h.2, hstems,
        List.append_assoc]
      rfl

theorem text_below (base : Path) (hne : row ≠ []) (h : ∀ name ∈ row, IsName name) :
    (base.below row).text.toList = joinSlashes (base.stems ++ row.map String.toList) := by
  rw [← pieces_below base hne h, pieces, joinSlashes_splitSlashes]

theorem filterMap_names (h : ∀ name ∈ row, IsName name) :
    (row.map String.toList).filterMap componentOf? = row.map .name := by
  induction row with
  | nil => rfl
  | cons name rest ih =>
    rw [List.forall_mem_cons] at h
    rw [List.map_cons, List.filterMap_cons_some h.1.componentOf?, ih h.2, List.map_cons]

theorem steps_below (base : Path) (h : ∀ name ∈ row, IsName name) :
    (base.below row).steps = base.steps ++ row.map .name := by
  cases row with
  | nil => exact (List.append_nil _).symm
  | cons name rest =>
    rw [steps, pieces_below base (List.cons_ne_nil _ _) h, List.filterMap_append, filterMap_stems,
      filterMap_names h]

theorem foldl_walk_names (l : Location) (row : List String) :
    (row.map Component.name).foldl Component.walk l = l ++ row := by
  induction row generalizing l with
  | nil => exact (List.append_nil l).symm
  | cons name rest ih => rw [List.map_cons, List.foldl_cons, ih, Component.walk, List.append_assoc,
      List.singleton_append]

theorem location_below (base : Path) (h : ∀ name ∈ row, IsName name) :
    (base.below row).location = base.location ++ row := by
  rw [location, steps_below base h, List.foldl_append, foldl_walk_names, location]

theorem components_below (base : Path) (h : ∀ name ∈ row, IsName name) :
    (base.below row).components = base.components ++ row.map .name := by
  cases row with
  | nil => exact (List.append_nil _).symm
  | cons name rest =>
    rw [components_eq, components_eq base, steps_below base h, pieces_below base (by simp) h,
      ← List.append_assoc]
    congr 2
    rw [List.forall_mem_cons] at h
    rcases base.stems_cases with ⟨ss, hss, hstart⟩ | ⟨ss, hss, hstart⟩ | ⟨hstart, hhead⟩
    · rw [hss, hstart]
      cases ss <;> rfl
    · rw [hss, hstart]
      rfl
    · rw [hstart]
      cases hstems : base.stems with
      | nil =>
        exact startOf.eq_3 _ (fun _ _ h' => h.1.toList_ne_nil (List.cons.inj h').1)
          fun _ h' => h.1.toList_ne_here (List.cons.inj h').1
      | cons s ss =>
        have hs : isIdle s = false := hhead s (by rw [hstems]; rfl)
        refine startOf.eq_3 _ (fun _ _ h' => ?_) fun _ h' => ?_
        · rw [(List.cons.inj h').1] at hs
          cases hs
        · rw [(List.cons.inj h').1] at hs
          cases hs

theorem startsWith_below (base : Path) (h : ∀ name ∈ row, IsName name) :
    (base.below row).startsWith base = true := by
  rw [startsWith, components_below base h, List.isPrefixOf_iff_prefix]
  exact List.prefix_append _ _

/-- The components of a path are dropped from the paths below it. -/
theorem dropComponents_below (base : Path) (hne : row ≠ []) (h : ∀ name ∈ row, IsName name) :
    dropComponents base.components.length (base.below row).text.toList =
      joinSlashes (row.map String.toList) := by
  have hrow : ∀ piece ∈ row.map String.toList, '/' ∉ piece ∧ isIdle piece = false := by
    intro piece hpiece
    obtain ⟨name, hname, rfl⟩ := List.mem_map.1 hpiece
    exact ⟨(h name hname).no_slash, (h name hname).not_idle⟩
  have hstems : ∀ piece ∈ base.stems, '/' ∉ piece := by
    intro piece hpiece
    rw [stems] at hpiece
    split at hpiece
    · exact not_mem_pieces (List.dropLast_subset _ hpiece)
    · exact not_mem_pieces hpiece
  have hslash := fun p hp => (hrow p hp).1
  have hidle := fun p hp => (hrow p hp).2
  have hall : ∀ {ss : List (List Char)}, (∀ p ∈ ss, '/' ∉ p) →
      ∀ p ∈ ss ++ row.map String.toList, '/' ∉ p := fun hss p hp =>
    (List.mem_append.1 hp).elim (hss p) (hslash p)
  rw [text_below base hne h, components_eq, List.length_append, ← filterMap_stems]
  -- a path starts at the root, here, or with a name
  rcases base.stems_cases with ⟨ss, hss, hstart⟩ | ⟨ss, hss, hstart⟩ | ⟨hstart, hhead⟩
  · rw [hss, List.forall_mem_cons] at hstems
    have hcons : joinSlashes ([] :: (ss ++ row.map String.toList)) =
        '/' :: joinSlashes (ss ++ row.map String.toList) :=
      joinSlashes_cons [] (by simp [hne])
    rw [hss, hstart, List.filterMap_cons_none rfl, List.cons_append, hcons, List.length_singleton,
      Nat.add_comm, dropComponents, trimStart_joinSlashes (hall hstems.2)]
    exact dropComponents_append hstems.2 hslash hidle
  · rw [hss, List.forall_mem_cons] at hstems
    rw [hss, hstart, List.filterMap_cons_none rfl, List.cons_append, List.length_singleton,
      Nat.add_comm, dropComponents_succ (by simp) hstems.1 (hall hstems.2)]
    exact dropComponents_append hstems.2 hslash hidle
  · have hskip : (base.stems ++ row.map String.toList).dropWhile isIdle =
        base.stems ++ row.map String.toList := by
      cases hs : base.stems with
      | nil =>
        cases row with
        | nil => exact absurd rfl hne
        | cons name rest => exact dropWhile_isIdle_cons (hidle _ List.mem_cons_self) _
      | cons s ss => exact dropWhile_isIdle_cons (hhead s (by rw [hs]; rfl)) _
    rw [hstart, List.length_nil, Nat.zero_add, ← hskip]
    exact dropComponents_append hstems hslash hidle

/-- **A path below another one, seen from it,** is the row of names that leads to it. -/
theorem stripBase?_below (base : Path) (hne : row ≠ []) (h : ∀ name ∈ row, IsName name) :
    (base.below row).stripBase? base =
      some ⟨String.ofList (joinSlashes (row.map String.toList))⟩ := by
  rw [stripBase?, if_pos (startsWith_below base h)]
  simp only [dropComponents_below base hne h, trimEnd_joinSlashes h]

theorem isRelative_row (hne : row ≠ []) (h : ∀ name ∈ row, IsName name) :
    IsRelative (String.ofList (joinSlashes (row.map String.toList))) := by
  rw [IsRelative, String.toList_ofList]
  cases row with
  | nil => exact absurd rfl hne
  | cons name rest =>
    have hname := h name List.mem_cons_self
    cases hn : name.toList with
    | nil => exact absurd hn hname.toList_ne_nil
    | cons c more =>
      have hc : c ≠ '/' := fun hc => hname.no_slash (by rw [hn, hc]; exact List.mem_cons_self)
      rw [List.map_cons, hn]
      cases rest <;> simpa [joinSlashes] using hc

/-- The text of a row of names leads as far as the row. -/
theorem join_row (base : Path) (hne : row ≠ []) (h : ∀ name ∈ row, IsName name) :
    base.join (String.ofList (joinSlashes (row.map String.toList))) = base.below row := by
  have hslash : ∀ piece ∈ row.map String.toList, '/' ∉ piece := by
    intro piece hpiece
    obtain ⟨name, hname, rfl⟩ := List.mem_map.1 hpiece
    exact (h name hname).no_slash
  have hpieces : (base.join (String.ofList (joinSlashes (row.map String.toList)))).pieces =
      (base.below row).pieces := by
    rw [pieces_join base (isRelative_row hne h), String.toList_ofList,
      splitSlashes_joinSlashes (by simpa using hne) hslash, pieces_below base hne h]
  have htext := congrArg joinSlashes hpieces
  rw [pieces, pieces, joinSlashes_splitSlashes, joinSlashes_splitSlashes, String.toList_inj] at htext
  exact congrArg Path.mk htext

end Rows

/-! ## Paths without detours -/

/-- A path that is nothing but the names of its location. -/
def IsPlain (p : Path) : Prop := p.components = .root :: p.location.map .name

instance (p : Path) : Decidable p.IsPlain := inferInstanceAs (Decidable (_ = _))

theorem IsPlain.below {p : Path} (hp : p.IsPlain) {row : List String}
    (h : ∀ name ∈ row, IsName name) : (p.below row).IsPlain := by
  rw [IsPlain, components_below p h, location_below p h, List.map_append, hp, List.cons_append]

theorem startsWith_iff {p base : Path} (hp : p.IsPlain) (hbase : base.IsPlain) :
    p.startsWith base = true ↔ base.location <+: p.location := by
  rw [startsWith, List.isPrefixOf_iff_prefix, hp, hbase, List.prefix_cons_inj]
  refine ⟨fun h => ?_, fun h => h.map _⟩
  obtain ⟨rest, hrest⟩ := h
  obtain ⟨front, back, heq, hfront, -⟩ := List.append_eq_map_iff.1 hrest
  rw [List.map_inj_right (fun _ _ => Component.name.inj)] at hfront
  exact ⟨back, by rw [heq, hfront]⟩

end HclOverlay.Path
