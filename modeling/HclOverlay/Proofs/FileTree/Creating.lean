import HclOverlay.Proofs.FileTree.Edits

/-!
# What can be made

Below an open directory, directories can be made and files written as soon as nothing is in the way:
no file where a directory has to be, and no directory where a file has to be. Here this is said of
rows of names below a path, together with the converse: a directory that has been made is open.

* `parent?_join_name`, `ancestors_join_name` — what lies above a path that ends in two names.
* `resolve_below` — a row of names leads on as far as there are directories.
* `createDirectories_below` — **directories can be made** below an open one if no file is in the way.
* `opens_of_createDirectories` — a directory that was made is open, with all above it.
* `writeFile_join_name`, `copyFile_of_isFile` — one file.
-/

namespace HclOverlay

namespace Path

variable {base : Path} {name other : String}

/-! ## Above a name -/

theorem components_join_name (base : Path) (h : IsName name) :
    (base.join name).components = base.components ++ [.name name] := by
  have hnames : ∀ other ∈ [name], IsName other := List.forall_mem_singleton.2 h
  have hbelow := components_below base hnames
  exact hbelow

theorem text_join_name (base : Path) (h : IsName name) :
    ∃ front, (base.join name).text.toList = front ++ name.toList := by
  unfold join
  rw [if_neg (by simpa [IsRelative] using h.isRelative)]
  split
  · exact ⟨base.text.toList, String.toList_append⟩
  · exact ⟨(base.text ++ "/").toList, String.toList_append⟩

/-- Behind a name, another one is joined with a slash. -/
theorem text_join_join (base : Path) (h : IsName name) (hother : IsName other) :
    ((base.join name).join other).text.toList =
      (base.join name).text.toList ++ '/' :: other.toList := by
  obtain ⟨front, hfront⟩ := text_join_name base h
  have hlast : (base.join name).text.toList.getLast? ≠ some '/' := by
    rw [hfront, List.getLast?_append]
    cases hname : name.toList.getLast? with
    | none => exact absurd (List.getLast?_eq_none_iff.1 hname) h.toList_ne_nil
    | some c =>
      rintro hc
      obtain rfl : c = '/' := Option.some.inj hc
      exact h.no_slash (List.mem_of_getLast? hname)
  have hempty : (base.join name).text.isEmpty = false := by
    rw [String.isEmpty_eq_false_iff, ← String.toList_inj.ne, hfront]
    simp [h.toList_ne_nil]
  generalize base.join name = p at hlast hempty
  rw [join, if_neg (by simpa [IsRelative] using hother.isRelative), if_neg (by simp [hempty, hlast]),
    String.toList_append, String.toList_append, List.append_assoc]
  rfl

/-- **Above a path that ends in two names** is the path without the last of them. -/
theorem parent?_join_name (base : Path) (h : IsName name) (hother : IsName other) :
    ((base.join name).join other).parent? = some (base.join name) := by
  obtain ⟨front, hfront⟩ := text_join_name base h
  have htext : ((base.join name).join other).text.toList =
      ((base.join name).text.toList ++ ['/']) ++ other.toList := by
    rw [text_join_join base h hother]
    simp
  -- all behind the last slash is dropped, and then the slash
  have hdrop : (other.toList.reverse ++ ('/' :: (base.join name).text.toList.reverse)).dropWhile
      (· != '/') = '/' :: (base.join name).text.toList.reverse := by
    rw [dropWhile_piece (by simpa using hother.no_slash), List.dropWhile_cons_of_neg (by simp)]
  have htrim : trimEnd ((base.join name).text.toList ++ ['/']) = (base.join name).text.toList := by
    have hkeep := trimEnd_append_name front h
    rw [← hfront] at hkeep
    rw [trimEnd, List.reverse_append, List.reverse_singleton, List.singleton_append,
      trimEndReversed, if_neg (by simp [hfront, h.toList_ne_nil]), ← trimEnd, hkeep]
  rw [parent?, components_join_name _ hother, List.getLast?_concat, htext,
    trimEnd_append_name _ hother, List.reverse_append, List.reverse_append, List.reverse_singleton,
    List.singleton_append]
  change some (Path.mk (String.ofList (trimEnd (List.dropWhile _ _).reverse))) = _
  rw [hdrop, List.reverse_cons, List.reverse_reverse, htrim, String.ofList_toList]

theorem ancestors_cons (base : Path) (h : IsName name) :
    ∃ above, (base.join name).ancestors = base.join name :: above := by
  have hparent : ∃ up, (base.join name).parent? = some up := by
    rw [parent?, components_join_name base h, List.getLast?_concat]
    exact ⟨_, rfl⟩
  obtain ⟨up, hup⟩ := hparent
  rw [ancestors, components_join_name base h, List.length_append, List.length_singleton,
    ancestorsWithin, hup]
  exact ⟨_, rfl⟩

theorem ancestors_join_name (base : Path) (h : IsName name) (hother : IsName other) :
    ((base.join name).join other).ancestors =
      (base.join name).join other :: (base.join name).ancestors := by
  rw [ancestors, components_join_name _ hother, List.length_append, List.length_singleton,
    ancestorsWithin, parent?_join_name base h hother]
  rfl

theorem below_concat (base : Path) (row : List String) (name : String) :
    base.below (row ++ [name]) = (base.below row).join name := List.foldl_concat ..

theorem prefix_below (base : Path) {row : List String} (h : ∀ name ∈ row, IsName name) :
    base.text.toList <+: (base.below row).text.toList := by
  induction row generalizing base with
  | nil => exact List.prefix_rfl
  | cons name rest ih =>
    rw [List.forall_mem_cons] at h
    exact (prefix_join base h.1.isRelative).trans (ih (base.join name) h.2)

end Path

namespace FileTree

open HclOverlay.Path (IsName below_concat)

variable {t t' : FileTree} {base p q : Path} {l : Location} {row : List String} {name : String}

/-! ## Rows of names -/

/-- Names that a tree can hold. -/
def Fitting (row : List String) : Prop :=
  ∀ name ∈ row, IsName name ∧ name.utf8ByteSize ≤ nameLimit

theorem Fitting.isName (h : Fitting row) : ∀ name ∈ row, IsName name := fun name hname =>
  (h name hname).1

/-- A row of names leads on from a directory as far as there are directories. -/
theorem foldlM_step_names (ht : t.Sound) (hl : t.lookup? l = some .directory)
    (hrow : Fitting (row ++ [name]))
    (hfree : ∀ front, front <+: row → t.fileAt? (l ++ front) = none) :
    (t.lookup? (l ++ row) = some .directory ∧
        (row ++ [name]).foldlM t.step l = .ok (l ++ (row ++ [name]))) ∨
      (t.lookup? (l ++ row) ≠ some .directory ∧
        (row ++ [name]).foldlM t.step l = .error .missing) := by
  induction row generalizing l with
  | nil =>
    obtain ⟨hname, hsize⟩ := hrow name (by simp)
    refine .inl ⟨by rwa [List.append_nil], ?_⟩
    rw [List.nil_append, List.foldlM_cons, step_name hl hname, if_neg (Nat.not_lt.2 hsize)]
    rfl
  | cons first rest ih =>
    obtain ⟨hname, hsize⟩ := hrow first (by simp)
    have hnext : (first :: rest ++ [name]).foldlM t.step l =
        (rest ++ [name]).foldlM t.step (l ++ [first]) := by
      rw [List.cons_append, List.foldlM_cons, step_name hl hname, if_neg (Nat.not_lt.2 hsize)]
      rfl
    have happend : ∀ k, l ++ first :: k = l ++ [first] ++ k := fun k => List.append_cons l first k
    rw [hnext, List.cons_append, happend rest, happend (rest ++ [name])]
    rcases hfirst : t.lookup? (l ++ [first]) with _ | ⟨bytes⟩ | _
    · -- nothing is there, so nothing lies below it and the next step fails
      refine .inr ⟨fun hdir => ?_, ?_⟩
      · by_cases hnil : rest = []
        · rw [hnil, List.append_nil, hfirst] at hdir
          cases hdir
        · rw [ht.lookup?_append hdir hnil] at hfirst
          cases hfirst
      · cases rest with
        | nil => rw [List.nil_append, List.foldlM_cons, step, hfirst]; rfl
        | cons next rest => rw [List.cons_append, List.foldlM_cons, step, hfirst]; rfl
    · have hfile := hfree [first] (by simp)
      rw [fileAt?_eq_some.2 hfirst] at hfile
      cases hfile
    · refine ih hfirst (fun other hother => hrow other (List.mem_cons_of_mem _ hother)) ?_
      intro front hfront
      rw [← happend front]
      exact hfree _ ((List.prefix_cons_inj first).2 hfront)

/-- A row of names below an open path is resolved as soon as the directories above are there. -/
theorem resolve_below (ht : t.Sound) (h : t.Opens base) (hrow : Fitting (row ++ [name]))
    (hwalk : walkableParts (base.below (row ++ [name])) = .ok (base.below (row ++ [name])).parts)
    (hfree : ∀ front, front <+: row → t.fileAt? (base.location ++ front) = none) :
    (t.lookup? (base.location ++ row) = some .directory ∧
        t.resolve (base.below (row ++ [name])) = .ok (base.location ++ (row ++ [name]))) ∨
      (t.lookup? (base.location ++ row) ≠ some .directory ∧
        t.resolve (base.below (row ++ [name])) = .error .missing) := by
  have hne : (base.below (row ++ [name])).text ≠ "" := by
    rw [below_concat]
    exact join_name_ne_empty _ (hrow.isName name (by simp))
  have htexts : ((row ++ [name]).map String.toList).map String.ofList = row ++ [name] := by
    rw [List.map_map]
    exact List.map_id'' (fun s => String.ofList_toList) _
  rw [resolve_of_walkable hwalk hne, Path.pieces_below base (by simp) hrow.isName, List.map_append,
    List.foldlM_append, h.foldlM_stems ht, htexts]
  exact foldlM_step_names ht h.lookup? hrow hfree

/-- What is a directory below an open path is open. -/
theorem Opens.below (ht : t.Sound) (h : t.Opens base) (hrow : ∀ name ∈ row, IsName name)
    (hdir : t.lookup? (base.location ++ row) = some .directory) : t.Opens (base.below row) := by
  intro k hk
  rcases Path.mem_way_of_steps (Path.steps_below base hrow) hk with hk | ⟨front, ⟨rest, rfl⟩, rfl⟩
  · exact h k hk
  · rw [← List.append_assoc] at hdir
    by_cases hnil : rest = []
    · rwa [hnil, List.append_nil] at hdir
    · exact ht.lookup?_append hdir hnil

theorem Opens.of_below (h : t.Opens (base.below row)) (hrow : ∀ name ∈ row, IsName name) :
    t.Opens base := fun k hk =>
  h k (Path.way_subset ⟨_, (Path.steps_below base hrow).symm⟩ hk)

/-- What a path is resolved from is open. -/
theorem opens_of_resolve (ht : t.Sound) (hname : IsName name)
    (h : t.resolve (q.join name) = .ok l) : t.Opens q := by
  obtain ⟨-, -, h⟩ := resolve_eq_ok h
  rw [Path.pieces_join q hname.isRelative, hname.pieces, List.map_append, List.foldlM_append] at h
  obtain ⟨k, hk, h⟩ := except_bind_eq_ok h
  rw [List.map_singleton, List.foldlM_cons] at h
  obtain ⟨k', hstep, -⟩ := except_bind_eq_ok h
  obtain ⟨hdir, -⟩ := step_eq_ok ht (by simpa using hname.no_slash) hstep
  have hstems : ∀ piece ∈ q.stems, '/' ∉ piece := by
    intro piece hpiece
    rw [Path.stems] at hpiece
    split at hpiece
    · exact Path.not_mem_pieces (List.dropLast_subset _ hpiece)
    · exact Path.not_mem_pieces hpiece
  have hway := way_of_foldlM_step ht hstems hk hdir
  rwa [Path.filterMap_stems] at hway

/-! ## Making directories -/

/-- A path that ends in a name has no empty part at its end. -/
theorem resolveNew_join_name (hname : IsName name) :
    t.resolveNew (q.join name) = t.resolve (q.join name) := by
  have hparts : (q.join name).parts.rdropWhile (· == "") = (q.join name).parts := by
    have hlast : ¬name.toList.isEmpty = true := by simp [hname.toList_ne_nil]
    rw [rdropWhile_parts, Path.parts_eq, Path.pieces_join q hname.isRelative, hname.pieces,
      List.rdropWhile_concat_neg _ _ _ hlast]
  rw [resolveNew, resolve]
  cases hwalk : walkableParts (q.join name) with
  | error e => rfl
  | ok parts =>
    obtain rfl := eq_parts_of_walkableParts hwalk
    exact congrArg t.follow hparts

/-- A directory below an open one is made, or is there; or those above it are not there yet. -/
theorem createIfNew_below (ht : t.Sound) (h : t.Opens base) (hrow : Fitting (row ++ [name]))
    (hwalk : walkableParts (base.below (row ++ [name])) = .ok (base.below (row ++ [name])).parts)
    (hfree : ∀ front, front <+: row ++ [name] → t.fileAt? (base.location ++ front) = none) :
    (∃ t', outcome (createIfNew (base.below (row ++ [name]))) t = (.ok (), t') ∧
        t'.lookup? (base.location ++ (row ++ [name])) = some .directory) ∨
      (t.lookup? (base.location ++ row) ≠ some .directory ∧
        outcome (createIfNew (base.below (row ++ [name]))) t = (.error .missing, t)) := by
  have hnew : t.resolveNew (base.below (row ++ [name])) =
      t.resolve (base.below (row ++ [name])) := by
    rw [below_concat]
    exact resolveNew_join_name (hrow.isName name (by simp))
  rw [createIfNew, outcome_tryCatch]
  simp only [createDirectory, outcome_bind, outcome_get, hnew]
  rcases resolve_below ht h hrow hwalk (fun front hfront =>
    hfree front (hfront.trans (List.prefix_append _ _))) with ⟨-, hresolve⟩ | ⟨hnot, hresolve⟩
  · left
    rw [hresolve]
    simp only [outcome_lift]
    rcases hnode : t.lookup? (base.location ++ (row ++ [name])) with _ | ⟨bytes⟩ | _
    · exact ⟨_, rfl, lookup?_put_self t _ (by simp)⟩
    · have hfile := hfree _ List.prefix_rfl
      rw [fileAt?_eq_some.2 hnode] at hfile
      cases hfile
    · -- it is there
      have hdir : t.isDirectory (base.below (row ++ [name])) = true := by
        rw [isDirectory_iff ht, Path.location_below base hrow.isName]
        exact ⟨hresolve, hnode⟩
      refine ⟨t, ?_, hnode⟩
      simp only [outcome_throw, outcome_bind, outcome_get, hdir, if_true]
      rfl
  · right
    rw [hresolve]
    exact ⟨hnot, rfl⟩

/-- **Directories can be made** below an open path if no file is in the way. -/
theorem createDirectories_below (ht : t.Sound) (h : t.Opens base) (hne : row ≠ [])
    (hrow : Fitting row) (hwalk : walkableParts (base.below row) = .ok (base.below row).parts)
    (hfree : ∀ front, front <+: row → t.fileAt? (base.location ++ front) = none) :
    ∃ t', outcome (createDirectories (base.below row)) t = (.ok (), t') ∧
      t'.lookup? (base.location ++ row) = some .directory := by
  induction row using List.reverseRecOn with
  | nil => exact absurd rfl hne
  | append_singleton row name ih =>
    have hname := hrow.isName name (by simp)
    rw [createDirectories]
    rcases List.eq_nil_or_concat row with rfl | ⟨front, last, rfl⟩
    · -- the directory above is open
      obtain ⟨above, habove⟩ := Path.ancestors_cons base hname
      have hchain : (base.below ([] ++ [name])).ancestors =
          base.below ([] ++ [name]) :: above := habove
      rw [hchain, createChain, outcome_tryCatch]
      rcases createIfNew_below ht h hrow hwalk hfree with ⟨t', hdone, hdir⟩ | ⟨hnot, -⟩
      · rw [hdone]
        exact ⟨t', rfl, hdir⟩
      · rw [List.append_nil] at hnot
        exact absurd h.lookup? hnot
    · rw [List.concat_eq_append] at *
      have hlast := hrow.isName last (by simp)
      have hchain : (base.below (front ++ [last] ++ [name])).ancestors =
          base.below (front ++ [last] ++ [name]) :: (base.below (front ++ [last])).ancestors := by
        rw [below_concat, below_concat]
        exact Path.ancestors_join_name _ hlast hname
      rw [hchain, createChain, outcome_tryCatch]
      rcases createIfNew_below ht h hrow hwalk hfree with ⟨t', hdone, hdir⟩ | ⟨-, hmissing⟩
      · rw [hdone]
        exact ⟨t', rfl, hdir⟩
      -- what is above it is not there yet, so the chain makes that first and then tries again
      have habove : walkableParts (base.below (front ++ [last])) =
          .ok (base.below (front ++ [last])).parts := by
        refine walkableParts_of_prefix ?_ hwalk
        rw [below_concat base (front ++ [last])]
        exact Path.prefix_join _ hname.isRelative
      obtain ⟨t₁, hdone, hdir⟩ := ih (by simp)
        (fun other hother => hrow other (List.mem_append_left _ hother)) habove
        (fun k hk => hfree k (hk.trans (List.prefix_append _ _)))
      have hframe := confined_createDirectories ht (fun _ => False) (base.below (front ++ [last]))
      rw [hdone] at hframe
      rw [hmissing]
      simp only [outcome_bind]
      rw [createDirectories] at hdone
      rw [hdone]
      rcases createIfNew_below hframe.sound (h.frame hframe.toFrame fun _ _ => id) hrow hwalk
        (fun k hk => by rw [hframe.file _ id, hfree k hk]) with ⟨t', hlast, hdir'⟩ | ⟨hnot, -⟩
      · exact ⟨t', hlast, hdir'⟩
      · exact absurd hdir hnot

/-! ## What has been made -/

theorem opens_of_createIfNew (ht : t.Sound) (hname : IsName name)
    (h : outcome (createIfNew (q.join name)) t = (.ok (), t')) : t'.Opens (q.join name) := by
  have hframe := confined_createIfNew ht (fun _ => False) (q.join name)
  rw [h] at hframe
  rw [createIfNew, outcome_tryCatch] at h
  rcases hcreate : outcome (createDirectory (q.join name)) t with ⟨e | u, t₁⟩ <;>
    rw [hcreate] at h
  · -- it was there
    dsimp only at h
    split at h
    · simp only [outcome_bind, outcome_get] at h
      split at h
      · next hdir =>
        cases h
        exact opens_of_isDirectory hframe.sound hdir
      · cases h
    · cases h
  · cases h
    simp only [createDirectory, outcome_bind, outcome_get] at hcreate
    rw [resolveNew_join_name hname] at hcreate
    rcases hresolve : t.resolve (q.join name) with e | l <;> rw [hresolve] at hcreate
    · cases hcreate
    simp only [outcome_lift] at hcreate
    split at hcreate
    · cases hcreate
    cases hcreate
    have hopen := opens_of_resolve ht hname hresolve
    obtain ⟨rfl, -⟩ := resolve_location ht hresolve
    have hdir : (t.put (q.join name).location .directory).lookup? (q.location ++ [name]) =
        some .directory := by
      rw [Path.location_join_name q hname]
      exact lookup?_put_self t _ (by simp)
    have hnames : ∀ other ∈ [name], IsName other := List.forall_mem_singleton.2 hname
    have hbelow := (hopen.frame hframe.toFrame fun _ _ => id).below hframe.sound hnames hdir
    exact hbelow

/-- **A directory that was made is open**, with all above it. -/
theorem opens_of_createDirectories (ht : t.Sound) (hname : IsName name)
    (h : outcome (createDirectories (q.join name)) t = (.ok (), t')) : t'.Opens (q.join name) := by
  obtain ⟨above, habove⟩ := Path.ancestors_cons q hname
  rw [createDirectories, habove, createChain, outcome_tryCatch] at h
  rcases hcreate : outcome (createIfNew (q.join name)) t with ⟨e | u, t₁⟩ <;>
    rw [hcreate] at h
  · have hfirst := confined_createIfNew ht (fun _ => False) (q.join name)
    rw [hcreate] at hfirst
    dsimp only at h
    split at h
    · obtain ⟨u, t₂, hchain, hagain⟩ := outcome_bind_eq_ok h
      have hrest := confined_createChain hfirst.sound (fun _ => False) above
      rw [hchain] at hrest
      exact opens_of_createIfNew hrest.sound hname hagain
    · cases h
  · cases h
    exact opens_of_createIfNew ht hname hcreate

/-! ## Files -/

/-- A file can be written into an open directory unless a directory is in its place. -/
theorem writeFile_join_name (ht : t.Sound) (h : t.Opens q) (hname : IsName name)
    (hsize : name.utf8ByteSize ≤ nameLimit)
    (hwalk : walkableParts (q.join name) = .ok (q.join name).parts)
    (hnew : t.lookup? (q.location ++ [name]) ≠ some .directory) (bytes : ByteArray) :
    outcome (writeFile (q.join name) bytes) t =
      (.ok (), t.put (q.location ++ [name]) (.file bytes)) := by
  have hresolve := resolve_join_name ht h hname hsize hwalk
  rw [Path.location_join_name q hname] at hresolve
  simp only [writeFile, outcome_bind, outcome_get, hresolve, outcome_lift, outcome_set]

/-- A file that is there can be copied as it can be written. -/
theorem copyFile_of_isFile (h : t.isFile p = true) (target : Path) :
    ∃ bytes, outcome (copyFile p target) t = outcome (writeFile target bytes) t := by
  unfold isFile at h
  split at h
  · next bytes hstat =>
    refine ⟨bytes, ?_⟩
    simp only [copyFile, readBytes, outcome_bind, outcome_get, hstat]
    rfl
  · cases h

end FileTree

end HclOverlay
