import HclOverlay.Module.Call
import HclOverlay.Proofs.Path.Locations

/-!
# Where remote modules lie

A remote source is the address of a package, perhaps with a directory inside of it behind `//`. An
address may hold double slashes itself, but only behind a colon: those of a scheme, with a third one
where the host is missing. So the scan for the selector has to pass over an address in steps that
never stop within such a run.

* `IsAddress`, `IsInside`, `IsQuery` — the parts of a remote source.
* `afterSelector?_address` — **an address is passed over**, by induction on what is left of it.
* `subdirectory?_of_parts`, `subdirectory?_of_address` — what is selected.
* `components_resolvePath` — **a remote module** lies where it was installed, or below.
* `remote_module_directory` — both, for all sources.
-/

namespace HclOverlay.ModuleCall

open HclOverlay.Path

variable {cs front back rest : List Char}

/-! ## Remote sources -/

/-- The address of a package: each of its runs of slashes, as long as it goes on, is a single slash or
stands behind a colon and has length two or three. -/
structure IsAddress (cs : List Char) : Prop where
  ne_nil : cs ≠ []
  no_query : '?' ∉ cs
  open_end : cs.getLast? ≠ some '/' ∧ cs.getLast? ≠ some ':'
  runs : ∀ front n back, cs = front ++ List.replicate n '/' ++ back → front.getLast? ≠ some '/' →
    back.head? ≠ some '/' → 2 ≤ n → front.getLast? = some ':' ∧ (n = 2 ∨ n = 3)

/-- If there are `n` slashes at place `i` and no more around them, they may stand in an address. -/
def FitsAt (cs : List Char) (i n : Nat) : Prop :=
  (cs.drop i).take n = List.replicate n '/' → (cs.take i).getLast? ≠ some '/' →
    (cs.drop (i + n)).head? ≠ some '/' → 2 ≤ n →
    (cs.take i).getLast? = some ':' ∧ (n = 2 ∨ n = 3)

instance (cs : List Char) (i n : Nat) : Decidable (FitsAt cs i n) :=
  inferInstanceAs (Decidable (_ → _ → _ → _ → _))

/-- Runs of slashes are found by their place and their length. -/
theorem runs_iff (cs : List Char) :
    (∀ front n back, cs = front ++ List.replicate n '/' ++ back → front.getLast? ≠ some '/' →
      back.head? ≠ some '/' → 2 ≤ n → front.getLast? = some ':' ∧ (n = 2 ∨ n = 3)) ↔
    ∀ i < cs.length + 1, ∀ n < cs.length + 1, FitsAt cs i n := by
  constructor
  · intro h i _ n _ hrun
    refine h (cs.take i) n (cs.drop (i + n)) ?_
    rw [← hrun, ← List.drop_drop, List.append_assoc, List.take_append_drop, List.take_append_drop]
  · rintro h front n back rfl
    have hrun := h front.length (by grind) n (by grind)
    have hbehind : (front ++ List.replicate n '/' ++ back).drop (front.length + n) = back := by
      rw [← List.drop_drop, List.append_assoc, List.drop_left]
      exact List.drop_left' (List.length_replicate ..)
    rw [FitsAt, hbehind, List.append_assoc, List.drop_left, List.take_left,
      List.take_left' (List.length_replicate ..)] at hrun
    exact hrun rfl

theorem isAddress_iff (cs : List Char) :
    IsAddress cs ↔ cs ≠ [] ∧ '?' ∉ cs ∧ (cs.getLast? ≠ some '/' ∧ cs.getLast? ≠ some ':') ∧
      ∀ i < cs.length + 1, ∀ n < cs.length + 1, FitsAt cs i n := by
  rw [← runs_iff]
  exact ⟨fun h => ⟨h.1, h.2, h.3, h.4⟩, fun h => ⟨h.1, h.2.1, h.2.2.1, h.2.2.2⟩⟩

instance (cs : List Char) : Decidable (IsAddress cs) := decidable_of_iff' _ (isAddress_iff cs)

/-- A directory inside of a package. -/
structure IsInside (cs : List Char) : Prop where
  ne_nil : cs ≠ []
  no_query : '?' ∉ cs
  no_slash_first : cs.head? ≠ some '/'
  no_slash_last : cs.getLast? ≠ some '/'

/-- What may follow an address: nothing, or a question mark and any text. -/
def IsQuery (cs : List Char) : Prop := cs = [] ∨ cs.head? = some '?'

theorem withoutQuery_append (hfront : '?' ∉ front) (hback : IsQuery back) :
    withoutQuery (front ++ back) = front := by
  have hall : ∀ c ∈ front, (c != '?') = true := fun c hc =>
    bne_iff_ne.2 fun heq => hfront (heq ▸ hc)
  rw [withoutQuery, List.takeWhile_append_of_pos hall]
  rcases hback with rfl | hhead
  · rw [List.takeWhile_nil, List.append_nil]
  · obtain ⟨more, rfl⟩ := List.head?_eq_some_iff.1 hhead
    rw [List.takeWhile_cons_of_neg (by decide), List.append_nil]

/-! ## Scanning an address -/

/-- A step over a character that opens no double slash. -/
theorem afterSelector?_step {last : Option Char} {c : Char}
    (h : ¬ (c = '/' ∧ cs.head? = some '/')) :
    afterSelector? last (c :: cs) = afterSelector? (some c) cs := by
  refine afterSelector?.eq_3 last c cs fun more heq hcs => h ⟨heq, ?_⟩
  rw [hcs]
  rfl

/-- Where a run of slashes starts, as many follow as it is long. -/
theorem exists_run (cs : List Char) :
    ∃ n back, cs = List.replicate n '/' ++ back ∧ back.head? ≠ some '/' := by
  induction cs with
  | nil => exact ⟨0, [], rfl, by simp⟩
  | cons c cs ih =>
    by_cases hc : c = '/'
    · obtain ⟨n, back, rfl, hback⟩ := ih
      exact ⟨n + 1, back, by rw [hc, List.replicate_succ, List.cons_append], hback⟩
    · exact ⟨0, c :: cs, rfl, fun h => hc (Option.some.inj h)⟩

/-- Where a double slash of an address starts, it follows a colon and is followed by one more slash at
most. -/
theorem IsAddress.double (h : IsAddress (front ++ '/' :: '/' :: rest))
    (hopen : front.getLast? ≠ some '/') :
    front.getLast? = some ':' ∧ ¬ ['/', '/'] <+: rest := by
  obtain ⟨k, back, rfl, hback⟩ := exists_run rest
  obtain ⟨hcolon, hlength⟩ := h.runs front (k + 2) back
    (by rw [List.append_assoc, List.replicate_succ, List.replicate_succ]; rfl) hopen hback
    (by omega)
  refine ⟨hcolon, ?_⟩
  rintro ⟨z, hz⟩
  obtain rfl | rfl : k = 0 ∨ k = 1 := by omega
  · exact hback (by rw [← List.nil_append back, ← List.replicate_zero (a := '/'), ← hz]; rfl)
  · have hback' : ['/'] ++ z = back := (List.cons.inj hz).2
    exact hback (by rw [← hback']; rfl)

/-- **An address is passed over**: the scan comes out behind it with its last character. -/
theorem afterSelector?_address (h : IsAddress (front ++ cs))
    (hrun : front.getLast? = some '/' → ¬ ['/', '/'] <+: cs) (tail : List Char) :
    afterSelector? front.getLast? (cs ++ tail) = afterSelector? (front ++ cs).getLast? tail := by
  -- behind a slash the run goes on for at most one more, so the scan never stops within a run
  induction hn : cs.length using Nat.strongRecOn generalizing front cs with
  | ind n ih =>
  cases cs with
  | nil => rw [List.nil_append, List.append_nil]
  | cons c more =>
  have hsplit : front ++ c :: more = front ++ [c] ++ more := by
    rw [List.append_assoc, List.singleton_append]
  by_cases hdouble : c = '/' ∧ more.head? = some '/'
  · obtain ⟨rfl, hmore⟩ := hdouble
    obtain ⟨more, rfl⟩ := List.head?_eq_some_iff.1 hmore
    obtain ⟨hcolon, hshort⟩ := h.double fun hlast => hrun hlast ⟨more, rfl⟩
    have hpair : front ++ '/' :: '/' :: more = front ++ ['/', '/'] ++ more := by
      rw [List.append_assoc]
      rfl
    have hskip := ih more.length (by simp only [← hn, List.length_cons]; omega) (hpair ▸ h)
      (fun _ => hshort) rfl
    rw [show (front ++ ['/', '/']).getLast? = some '/' by simp] at hskip
    rw [hpair, ← hskip, List.cons_append, List.cons_append, afterSelector?, hcolon]
    rfl
  · have hsingle : ¬ (c = '/' ∧ (more ++ tail).head? = some '/') := by
      rintro ⟨rfl, hhead⟩
      cases more with
      | nil => exact h.open_end.1 (by simp)
      | cons d more => exact hdouble ⟨rfl, hhead⟩
    have hgo := ih more.length (by simp [← hn]) (hsplit ▸ h) (fun hlast => ?_) rfl
    · rw [List.getLast?_concat] at hgo
      rw [hsplit, ← hgo, List.cons_append, afterSelector?_step hsingle]
    · rintro ⟨z, rfl⟩
      rw [List.getLast?_concat] at hlast
      exact hdouble ⟨Option.some.inj hlast, rfl⟩

theorem afterSelector?_whole (h : IsAddress cs) (tail : List Char) :
    afterSelector? none (cs ++ tail) = afterSelector? cs.getLast? tail :=
  @afterSelector?_address cs [] h (fun hlast => absurd hlast (by simp)) tail

/-! ## What is selected -/

theorem trimSlashes_of_isInside (h : IsInside cs) : trimSlashes cs = cs := by
  have hdrop : ∀ {cs : List Char}, cs.head? ≠ some '/' → cs.dropWhile (· == '/') = cs := by
    intro cs hhead
    cases cs with
    | nil => rfl
    | cons c more =>
      exact List.dropWhile_cons_of_neg fun hc => hhead (congrArg some (eq_of_beq hc))
  rw [trimSlashes, hdrop h.no_slash_first, hdrop (by rw [List.head?_reverse]; exact h.no_slash_last),
    List.reverse_reverse]

/-- What is selected never starts with a slash, so it replaces nothing that it is joined to. -/
theorem isRelative_of_subdirectory? {source dir : String} (h : subdirectory? source = some dir) :
    IsRelative dir := by
  rw [subdirectory?] at h
  split at h
  · cases h
  · next rest _ =>
    obtain ⟨hne, heq⟩ : (trimSlashes rest).isEmpty = false ∧
        String.ofList (trimSlashes rest) = dir := by simpa using h
    rw [← heq, IsRelative, String.toList_ofList]
    -- the first character of what is left at the end was first before the end was trimmed
    have hprefix : trimSlashes rest <+: rest.dropWhile (· == '/') := by
      rw [trimSlashes, ← List.reverse_suffix, List.reverse_reverse]
      exact List.dropWhile_suffix _
    obtain ⟨back, hback⟩ := hprefix
    intro hhead
    have hfirst : (rest.dropWhile (· == '/')).head? = some '/' := by
      rw [← hback, List.head?_append, hhead]
      rfl
    have hnot := List.head?_dropWhile_not (· == '/') rest
    rw [hfirst] at hnot
    exact absurd hnot (by simp)

/-- A directory inside of a package is selected. -/
theorem subdirectory?_of_parts {pkg sub query : String} (hpkg : IsAddress pkg.toList)
    (hsub : IsInside sub.toList) (hquery : IsQuery query.toList) :
    subdirectory? (pkg ++ "//" ++ sub ++ query) = some sub := by
  have htext : (pkg ++ "//" ++ sub ++ query).toList =
      pkg.toList ++ '/' :: '/' :: sub.toList ++ query.toList := by
    simp [String.toList_append]
  have hplain : '?' ∉ pkg.toList ++ '/' :: '/' :: sub.toList := by
    simp [hpkg.no_query, hsub.no_query]
  have hlast : (pkg.toList.getLast? == some ':') = false := beq_eq_false_iff_ne.2 hpkg.open_end.2
  rw [subdirectory?, htext, withoutQuery_append hplain hquery, afterSelector?_whole hpkg,
    afterSelector?, hlast, if_neg Bool.false_ne_true]
  simp [trimSlashes_of_isInside hsub, hsub.ne_nil]

/-- An address alone selects nothing. -/
theorem subdirectory?_of_address {pkg query : String} (hpkg : IsAddress pkg.toList)
    (hquery : IsQuery query.toList) : subdirectory? (pkg ++ query) = none := by
  have hscan := afterSelector?_whole hpkg []
  rw [List.append_nil] at hscan
  rw [subdirectory?, String.toList_append, withoutQuery_append hpkg.no_query hquery, hscan,
    afterSelector?]

/-! ## Directories -/

/-- Where a module that a call names is installed. -/
def installed (root : Path) (name : String) : Path := (root.join cacheDirectory).join name

/-- What a relative path adds to another one: its components, but for a point at its start. -/
theorem steps_eq_filter {dir : String} (h : IsRelative dir) :
    steps ⟨dir⟩ = (components ⟨dir⟩).filter (· != .here) := by
  have hsteps : (steps ⟨dir⟩).filter (· != .here) = steps ⟨dir⟩ := by
    refine List.filter_eq_self.2 fun c hc => ?_
    obtain ⟨piece, -, hpiece⟩ := List.mem_filterMap.1 hc
    rw [componentOf?] at hpiece
    split at hpiece
    · cases hpiece
    · split at hpiece <;> cases hpiece <;> rfl
  have hstart : components ⟨dir⟩ = steps ⟨dir⟩ ∨ components ⟨dir⟩ = .here :: steps ⟨dir⟩ := by
    rw [components, componentsOf.eq_2 _ fun more heq => h (by rw [heq]; rfl)]
    split
    · exact .inr rfl
    · exact .inl rfl
  rcases hstart with hstart | hstart
  · rw [hstart, hsteps]
  · rw [hstart, List.filter_cons_of_neg (by decide), hsteps]

theorem text_join_ne_empty (base : Path) {child : String} (h : child ≠ "") :
    (base.join child).text ≠ "" := by
  rw [join]
  split
  · exact h
  · split <;> simp [h]

/-- **A remote module** lies where it was installed, or in the directory below that its source
selects. -/
theorem components_resolvePath {root : Path} {name source : String}
    (hname : Path.isAbsolute ⟨name⟩ = false) (hpoint : source.toList.head? ≠ some '.')
    (hslash : source.toList.head? ≠ some '/') :
    (resolvePath root name source).components = (installed root name).components ++
      match subdirectory? source with
      | some dir => (components ⟨dir⟩).filter (· != .here)
      | none => [] := by
  have hplace : (installed root name).text ≠ "" := by
    have hcache : (root.join cacheDirectory).text ≠ "" := text_join_ne_empty root (by decide)
    rw [installed, join]
    split
    · next h => exact absurd h (by simpa [Path.isAbsolute] using hname)
    · split <;> simp [hcache]
  rw [resolvePath, if_neg (by simpa [Path.isAbsolute] using hslash), if_neg (by simpa using hpoint)]
  cases hdir : subdirectory? source with
  | some dir =>
    have hrelative := isRelative_of_subdirectory? hdir
    exact (components_join hplace hrelative).trans (by rw [steps_eq_filter hrelative])
  | none => exact (List.append_nil _).symm

/-- **Where remote modules lie.** Of an address and a directory inside its package, joined by a double
slash and followed by a query or not, the directory is selected, and of an address alone nothing is.
And whatever a source that is neither absolute nor local selects, its module lies in the place where
the call was installed, followed by the components of the selected directory; a point at the start of
that directory is a component only as long as nothing stands before it. -/
theorem remote_module_directory :
    (∀ pkg sub query : String, IsAddress pkg.toList → IsInside sub.toList → IsQuery query.toList →
      subdirectory? (pkg ++ "//" ++ sub ++ query) = some sub ∧
        subdirectory? (pkg ++ query) = none) ∧
    ∀ (root : Path) (name source : String), Path.isAbsolute ⟨name⟩ = false → source ≠ "" →
      source.toList.head? ≠ some '.' → source.toList.head? ≠ some '/' →
      (resolvePath root name source).components =
        ((root.join cacheDirectory).join name).components ++
          match subdirectory? source with
          | some dir => (components ⟨dir⟩).filter (· != .here)
          | none => [] :=
  ⟨fun _ _ _ hpkg hsub hquery =>
    ⟨subdirectory?_of_parts hpkg hsub hquery, subdirectory?_of_address hpkg hquery⟩,
    fun _ _ _ hname _ hpoint hslash => components_resolvePath hname hpoint hslash⟩

/-- A scheme without a host, a query that holds slashes, and a directory with a point before and a
slash behind it. -/
theorem remote_module_directory_file :
    let pkg := "git::file:///srv/net.git"
    let source := "h.x/net//./sub/?ref=a//b"
    (IsAddress pkg.toList ∧ IsInside "sub/a".toList ∧ IsQuery "?ref=a//b".toList) ∧
      subdirectory? (pkg ++ "//" ++ "sub/a" ++ "?ref=a//b") = some "sub/a" ∧
      subdirectory? (pkg ++ "?ref=a//b") = none ∧
      (Path.isAbsolute ⟨"m"⟩ = false ∧ source ≠ "" ∧ source.toList.head? ≠ some '.' ∧
        source.toList.head? ≠ some '/') ∧
      (resolvePath ⟨"/r"⟩ "m" source).components =
        (⟨"/r/.terraform/modules/m"⟩ : Path).components ++ [.name "sub"] := by
  intro pkg source
  have hparts : IsAddress pkg.toList ∧ IsInside "sub/a".toList ∧ IsQuery "?ref=a//b".toList :=
    ⟨by decide +kernel, ⟨by decide, by decide, by decide, by decide⟩, .inr (by decide)⟩
  have hsource : Path.isAbsolute ⟨"m"⟩ = false ∧ source ≠ "" ∧ source.toList.head? ≠ some '.' ∧
      source.toList.head? ≠ some '/' := by
    decide +kernel
  obtain ⟨hselected, hplace⟩ := remote_module_directory
  have hselects := hselected pkg "sub/a" "?ref=a//b" hparts.1 hparts.2.1 hparts.2.2
  have hdirectory := hplace ⟨"/r"⟩ "m" source hsource.1 hsource.2.1 hsource.2.2.1 hsource.2.2.2
  refine ⟨hparts, hselects.1, hselects.2, hsource, hdirectory.trans ?_⟩
  decide +kernel

end HclOverlay.ModuleCall
