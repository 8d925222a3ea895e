import HclOverlay.Proofs.FileTree.Sound

/-!
# Paths that can be walked

A path is resolved when its text can be walked and a directory stands at every location on its way
but the last. Where a path never goes up behind a name, the directory it leads to brings everything
on its way along.

* `Path.way` — the locations on the way of a path; `Path.Straight` — paths that go up only at the
  start.
* `Opens` — a tree in which everything on the way of a path is a directory.
* `walkableParts_of_prefix`, `prefix_join` — the start of a text that can be walked.
* `location_join_join` — where a name leads that is joined before its directory is.
* `resolve_join_name` — **resolving a name in a directory that is open**.
* `Opens.join` — joining a straight path keeps a path open as far as it leads to a directory.
-/

namespace HclOverlay

namespace Path

/-! ## Ways -/

/-- The locations on the way of some steps, with both ends. -/
def wayFrom (l : Location) : List Component → List Location
  | [] => [l]
  | c :: cs => l :: wayFrom (c.walk l) cs

/-- The locations on the way of a path, from the root to where it leads. -/
def way (p : Path) : List Location := wayFrom [] p.steps

/-- A path that goes up only at the start. -/
def Straight (p : Path) : Prop := p.steps.Pairwise fun a b => b = .up → a = .up

instance (p : Path) : Decidable p.Straight := inferInstanceAs (Decidable (List.Pairwise _ _))

theorem mem_wayFrom_start (l : Location) (cs : List Component) : l ∈ wayFrom l cs := by
  cases cs <;> exact List.mem_cons_self

theorem mem_wayFrom_end (l : Location) (cs : List Component) :
    cs.foldl Component.walk l ∈ wayFrom l cs := by
  induction cs generalizing l with
  | nil => exact List.mem_cons_self
  | cons c cs ih => exact List.mem_cons_of_mem _ (ih _)

theorem wayFrom_subset (l : Location) (cs ds : List Component) :
    wayFrom l cs ⊆ wayFrom l (cs ++ ds) := by
  induction cs generalizing l with
  | nil => exact List.cons_subset.2 ⟨mem_wayFrom_start l ds, List.nil_subset _⟩
  | cons c cs ih => exact List.cons_subset_cons l (ih _)

theorem mem_wayFrom_append {cs ds : List Component} {l k : Location}
    (h : k ∈ wayFrom l (cs ++ ds)) :
    k ∈ wayFrom l cs ∨ k ∈ wayFrom (cs.foldl Component.walk l) ds := by
  induction cs generalizing l with
  | nil => exact .inr h
  | cons c cs ih =>
    rcases List.mem_cons.1 h with rfl | h
    · exact .inl List.mem_cons_self
    · exact (ih h).imp_left (List.mem_cons_of_mem _)

theorem location_mem_way (p : Path) : p.location ∈ p.way := mem_wayFrom_end [] p.steps

/-- The way of the start of a path. -/
theorem way_subset {p q : Path} (h : q.steps <+: p.steps) : q.way ⊆ p.way := by
  obtain ⟨rest, hrest⟩ := h
  rw [way, way, ← hrest]
  exact wayFrom_subset [] q.steps rest

theorem mem_wayFrom_names {row : List String} {l k : Location}
    (h : k ∈ wayFrom l (row.map .name)) : ∃ front, front <+: row ∧ k = l ++ front := by
  induction row generalizing l with
  | nil => exact ⟨[], List.prefix_rfl, by simpa [wayFrom] using h⟩
  | cons name row ih =>
    rcases List.mem_cons.1 h with rfl | h
    · exact ⟨[], List.nil_prefix, (List.append_nil k).symm⟩
    · obtain ⟨front, hfront, rfl⟩ := ih h
      exact ⟨name :: front, (List.prefix_cons_inj name).2 hfront, by simp [Component.walk]⟩

/-- The way of a path that names lead to from another one. -/
theorem mem_way_of_steps {p base : Path} {row : List String}
    (hsteps : p.steps = base.steps ++ row.map .name) {k : Location} (hk : k ∈ p.way) :
    k ∈ base.way ∨ ∃ front, front <+: row ∧ k = base.location ++ front := by
  rw [way, hsteps] at hk
  exact (mem_wayFrom_append hk).imp_right mem_wayFrom_names

/-- Without steps up, everything lies below the start. -/
theorem prefix_foldl_walk {cs : List Component} (h : ∀ c ∈ cs, c ≠ .up) (l : Location) :
    l <+: cs.foldl Component.walk l := by
  induction cs generalizing l with
  | nil => exact List.prefix_rfl
  | cons c cs ih =>
    rw [List.forall_mem_cons] at h
    have hfirst : l <+: c.walk l := by
      cases c with
      | root => exact List.prefix_rfl
      | here => exact List.prefix_rfl
      | up => exact absurd rfl h.1
      | name n => exact List.prefix_append _ _
    exact hfirst.trans (ih h.2 _)

/-- The way of straight steps goes up from the start and then down to the end. -/
theorem prefix_of_mem_wayFrom {cs : List Component} (hcs : cs.Pairwise fun a b => b = .up → a = .up)
    {l k : Location} (hk : k ∈ wayFrom l cs) : k <+: l ∨ k <+: cs.foldl Component.walk l := by
  induction cs generalizing l with
  | nil => exact .inl (List.mem_singleton.1 hk ▸ List.prefix_rfl)
  | cons c cs ih =>
    rw [List.pairwise_cons] at hcs
    rcases List.mem_cons.1 hk with rfl | hk
    · exact .inl List.prefix_rfl
    rcases ih hcs.2 hk with hk | hk
    · cases c with
      | root => exact .inl hk
      | here => exact .inl hk
      | up => exact .inl (hk.trans (List.dropLast_prefix l))
      | name n =>
        have hup : ∀ d ∈ cs, d ≠ .up := fun d hd heq => Component.noConfusion (hcs.1 d hd heq)
        exact .inr (hk.trans (prefix_foldl_walk hup _))
    · exact .inr hk

/-! ## Starts of paths -/

theorem prefix_join (base : Path) {child : String} (h : IsRelative child) :
    base.text.toList <+: (base.join child).text.toList := by
  unfold join
  rw [if_neg (by simpa [IsRelative] using h)]
  split
  · rw [String.toList_append]
    exact List.prefix_append _ _
  · rw [String.toList_append, String.toList_append, List.append_assoc]
    exact List.prefix_append _ _

theorem isRelative_join (base : Path) {name : String} (h : IsName name) :
    IsRelative (base.join name).text ↔ IsRelative base.text := by
  by_cases hempty : base.text = ""
  · have hjoin : (base.join name).text = name := by
      rw [join, if_neg (by simpa [IsRelative] using h.isRelative), if_pos (by simp [hempty]), hempty]
      exact String.empty_append
    rw [hjoin, hempty]
    exact iff_of_true h.isRelative (by decide)
  · obtain ⟨rest, hrest⟩ := prefix_join base h.isRelative
    obtain ⟨c, cs, hcs⟩ := List.exists_cons_of_ne_nil (mt String.toList_eq_nil_iff.1 hempty)
    rw [IsRelative, IsRelative, ← hrest, hcs]
    rfl

/-- A name below a path that is itself joined to another one. -/
theorem location_join_join (root base : Path) {name : String} (h : IsName name) :
    (root.join (base.join name).text).location = (root.join base.text).location ++ [name] := by
  have hname : (base.join name).steps = base.steps ++ [.name name] := by
    rw [steps_join base h.isRelative, h.steps]
  by_cases hrelative : IsRelative base.text
  · rw [location_join root ((isRelative_join base h).2 hrelative), location_join root hrelative]
    change (base.join name).steps.foldl _ _ = base.steps.foldl _ _ ++ [name]
    rw [hname, List.foldl_append]
    rfl
  · have habsolute : ∀ p : Path, ¬IsRelative p.text → root.join p.text = p := by
      intro p hp
      rw [join, if_pos (by simpa [IsRelative] using hp)]
    rw [habsolute _ (mt (isRelative_join base h).1 hrelative), habsolute _ hrelative]
    exact location_join_name base h

end Path

namespace FileTree

open HclOverlay.Path (IsName IsRelative Component)

variable {t : FileTree} {l : Location} {p : Path}

theorem walkableParts_eq_ok :
    walkableParts p = .ok p.parts ↔
      '\x00' ∉ p.text.toList ∧ p.text.utf8ByteSize ≤ pathLimit := by
  unfold walkableParts
  split
  · next h => simp_all
  · split
    · next h => simp_all
    · next h => simp_all

/-- The start of a text that can be walked can be walked. -/
theorem walkableParts_of_prefix {q : Path} (h : p.text.toList <+: q.text.toList)
    (hq : walkableParts q = .ok q.parts) : walkableParts p = .ok p.parts := by
  obtain ⟨rest, hrest⟩ := h
  rw [walkableParts_eq_ok] at hq ⊢
  have htext : q.text = p.text ++ String.ofList rest := by
    rw [← String.toList_inj, String.toList_append, String.toList_ofList, hrest]
  refine ⟨fun hmem => hq.1 ?_, Nat.le_trans ?_ hq.2⟩
  · rw [← hrest]
    exact List.mem_append_left _ hmem
  · rw [htext, String.utf8ByteSize_append]
    exact Nat.le_add_right _ _

/-! ## Open paths -/

/-- Everything on the way of a path is a directory. -/
def Opens (t : FileTree) (p : Path) : Prop := ∀ k ∈ p.way, t.lookup? k = some .directory

theorem Opens.lookup? (h : t.Opens p) : t.lookup? p.location = some .directory :=
  h _ p.location_mem_way

theorem wayFrom_cons_piece (l : Location) (piece : List Char) (ps : List (List Char)) {k : Location}
    (hk : k ∈ Path.wayFrom (walkPiece l piece) (ps.filterMap Path.componentOf?)) :
    k ∈ Path.wayFrom l ((piece :: ps).filterMap Path.componentOf?) := by
  rw [walkPiece] at hk
  cases hp : Path.componentOf? piece with
  | none =>
    rw [hp] at hk
    rwa [List.filterMap_cons_none hp]
  | some c =>
    rw [hp] at hk
    rw [List.filterMap_cons_some hp]
    exact List.mem_cons_of_mem _ hk

theorem step_walkPiece (ht : t.Sound) {piece : List Char} (hpiece : '/' ∉ piece)
    (hl : t.lookup? l = some .directory) (hnext : t.lookup? (walkPiece l piece) = some .directory) :
    t.step l (String.ofList piece) = .ok (walkPiece l piece) := by
  rw [walkPiece] at hnext ⊢
  rcases piece_cases hpiece with ⟨htext, hc⟩ | ⟨htext, hc⟩ | ⟨hname, hc⟩
  · rw [hc, step_idle hl htext]
  · rw [hc, htext, step_up hl]
    rfl
  · rw [hc] at hnext ⊢
    have hsize := (ht.name_of_lookup? hnext _ (List.mem_append_right l (List.mem_singleton_self _))).2
    rw [step_name hl hname, if_neg (Nat.not_lt.2 hsize)]
    rfl

/-- A way of directories can be walked. -/
theorem foldlM_step_of_way (ht : t.Sound) {ps : List (List Char)} (hps : ∀ p ∈ ps, '/' ∉ p)
    (hway : ∀ k ∈ Path.wayFrom l (ps.filterMap Path.componentOf?), t.lookup? k = some .directory) :
    (ps.map String.ofList).foldlM t.step l = .ok (ps.foldl walkPiece l) := by
  induction ps generalizing l with
  | nil => rfl
  | cons piece ps ih =>
    rw [List.forall_mem_cons] at hps
    have hrest : ∀ k ∈ Path.wayFrom (walkPiece l piece) (ps.filterMap Path.componentOf?),
        t.lookup? k = some .directory := fun k hk => hway k (wayFrom_cons_piece l piece ps hk)
    have hstep := step_walkPiece ht hps.1 (hway l (Path.mem_wayFrom_start _ _))
      (hrest _ (Path.mem_wayFrom_start _ _))
    rw [List.map_cons, List.foldlM_cons, hstep]
    exact ih hps.2 hrest

/-- What has been walked is a way of directories, up to the last of them. -/
theorem way_of_foldlM_step (ht : t.Sound) {ps : List (List Char)} (hps : ∀ p ∈ ps, '/' ∉ p)
    {l' : Location} (h : (ps.map String.ofList).foldlM t.step l = .ok l')
    (hend : t.lookup? l' = some .directory) :
    ∀ k ∈ Path.wayFrom l (ps.filterMap Path.componentOf?), t.lookup? k = some .directory := by
  induction ps generalizing l with
  | nil =>
    cases h
    intro k hk
    rw [List.mem_singleton.1 hk, hend]
  | cons piece ps ih =>
    rw [List.forall_mem_cons] at hps
    rw [List.map_cons, List.foldlM_cons] at h
    obtain ⟨next, hstep, h⟩ := except_bind_eq_ok h
    obtain ⟨hl, rfl, -⟩ := step_eq_ok ht hps.1 hstep
    have hrest := ih hps.2 h
    intro k hk
    rw [walkPiece] at hrest
    cases hc : Path.componentOf? piece with
    | none =>
      rw [hc] at hrest
      rw [List.filterMap_cons_none hc] at hk
      exact hrest k hk
    | some c =>
      rw [hc] at hrest
      rw [List.filterMap_cons_some hc] at hk
      rcases List.mem_cons.1 hk with rfl | hk
      · exact hl
      · exact hrest k hk

theorem opens_of_isDirectory (ht : t.Sound) (h : t.isDirectory p = true) : t.Opens p := by
  obtain ⟨hresolve, hl⟩ := (isDirectory_iff ht).1 h
  exact way_of_foldlM_step ht (fun q hq => Path.not_mem_pieces hq) (resolve_eq_ok hresolve).2.2 hl

/-- An open path without an empty piece at the end is as open. -/
theorem Opens.foldlM_stems (ht : t.Sound) (h : t.Opens p) :
    (p.stems.map String.ofList).foldlM t.step [] = .ok p.location := by
  have hstems : ∀ piece ∈ p.stems, '/' ∉ piece := by
    intro piece hpiece
    rw [Path.stems] at hpiece
    split at hpiece
    · exact Path.not_mem_pieces (List.dropLast_subset _ hpiece)
    · exact Path.not_mem_pieces hpiece
  have hway : ∀ k ∈ Path.wayFrom [] (p.stems.filterMap Path.componentOf?),
      t.lookup? k = some .directory := by
    rw [Path.filterMap_stems]
    exact h
  rw [foldlM_step_of_way ht hstems hway, foldl_walkPiece, Path.filterMap_stems]
  rfl

/-! ## Joining -/

theorem resolve_of_walkable (hp : walkableParts p = .ok p.parts) (hne : p.text ≠ "") :
    t.resolve p = (p.pieces.map String.ofList).foldlM t.step [] := by
  have hempty : ¬p.text.isEmpty = true := by simpa using hne
  rw [resolve, hp]
  change t.follow p.parts = _
  rw [follow, Path.parts_eq, if_neg hempty, if_neg (by simp [Path.pieces_ne_nil])]

theorem join_name_ne_empty (base : Path) {name : String} (hname : IsName name) :
    (base.join name).text ≠ "" := by
  intro htext
  have hpieces := Path.pieces_join base hname.isRelative
  rw [Path.pieces, htext, hname.pieces] at hpieces
  have hlast := congrArg List.getLast? hpieces
  rw [List.getLast?_concat] at hlast
  exact hname.toList_ne_nil (Option.some.inj hlast).symm

/-- **A name in an open directory** is resolved as soon as its path can be walked. -/
theorem resolve_join_name (ht : t.Sound) (h : t.Opens p) {name : String} (hname : IsName name)
    (hsize : name.utf8ByteSize ≤ nameLimit)
    (hwalk : walkableParts (p.join name) = .ok (p.join name).parts) :
    t.resolve (p.join name) = .ok (p.join name).location := by
  rw [resolve_of_walkable hwalk (join_name_ne_empty p hname), Path.pieces_join p hname.isRelative,
    hname.pieces, List.map_append, List.foldlM_append, h.foldlM_stems ht, Path.location_join_name p hname]
  change List.foldlM t.step p.location [String.ofList name.toList] = _
  rw [List.foldlM_cons, String.ofList_toList, step_name h.lookup? hname, if_neg (Nat.not_lt.2 hsize)]
  rfl

/-- Straight steps between directories lead through directories. -/
theorem way_of_straight (ht : t.Sound) {cs : List Component}
    (hcs : cs.Pairwise fun a b => b = .up → a = .up) (hl : t.lookup? l = some .directory)
    (hend : t.lookup? (cs.foldl Component.walk l) = some .directory) :
    ∀ k ∈ Path.wayFrom l cs, t.lookup? k = some .directory := by
  induction cs generalizing l with
  | nil =>
    intro k hk
    rw [List.mem_singleton.1 hk, hl]
  | cons c cs ih =>
    rw [List.pairwise_cons] at hcs
    have hnext : t.lookup? (c.walk l) = some .directory := by
      cases c with
      | root => exact hl
      | here => exact hl
      | up => exact ht.lookup?_dropLast hl
      | name n =>
        have hup : ∀ d ∈ cs, d ≠ .up := fun d hd heq => Component.noConfusion (hcs.1 d hd heq)
        obtain ⟨k, hk⟩ := Path.prefix_foldl_walk hup (Component.walk l (.name n))
        rw [List.foldl_cons, ← hk] at hend
        by_cases hnil : k = []
        · rwa [hnil, List.append_nil] at hend
        · exact ht.lookup?_append hend hnil
    intro k hk
    rcases List.mem_cons.1 hk with rfl | hk
    · exact hl
    · exact ih hcs.2 hnext hend k hk

/-- **A straight path leads on** from an open one as far as there are directories. -/
theorem Opens.join (ht : t.Sound) {child : String} (hchild : Path.Straight ⟨child⟩)
    (h : IsRelative child → t.Opens p)
    (hend : t.lookup? (p.join child).location = some .directory) : t.Opens (p.join child) := by
  by_cases hrelative : IsRelative child
  · have hopen := h hrelative
    rw [Path.location_join p hrelative] at hend
    intro k hk
    rw [Path.way, Path.steps_join p hrelative] at hk
    rcases Path.mem_wayFrom_append hk with hk | hk
    · exact hopen k hk
    · exact way_of_straight ht hchild hopen.lookup? hend k hk
  · have hjoin : p.join child = ⟨child⟩ := if_pos (by simpa [IsRelative] using hrelative)
    rw [hjoin] at hend ⊢
    exact way_of_straight ht hchild rfl hend

/-- What stands in an open directory is there for its path. -/
theorem Opens.there (ht : t.Sound) (h : t.Opens p) {name : String} (hname : IsName name)
    (hwalk : walkableParts (p.join name) = .ok (p.join name).parts) {n : Node}
    (hn : t.lookup? (p.location ++ [name]) = some n) : t.there (p.join name) = true := by
  have hsize := (ht.name_of_lookup? hn name (List.mem_append_right _ (List.mem_singleton_self _))).2
  have hresolve := resolve_join_name ht h hname hsize hwalk
  rw [there_iff ht]
  rw [Path.location_join_name _ hname] at hresolve ⊢
  exact ⟨hresolve, n, hn⟩

/-- What stands in a directory that a straight path leads to is there for its path. -/
theorem there_join_name (ht : t.Sound) {child name : String} (hchild : Path.Straight ⟨child⟩)
    (h : IsRelative child → t.Opens p) (hname : IsName name)
    (hwalk : walkableParts ((p.join child).join name) = .ok ((p.join child).join name).parts)
    {n : Node} (hn : t.lookup? ((p.join child).location ++ [name]) = some n) :
    t.there ((p.join child).join name) = true :=
  (Opens.join ht hchild h (ht.lookup?_append hn (List.cons_ne_nil _ _))).there ht hname hwalk hn

end FileTree

end HclOverlay
