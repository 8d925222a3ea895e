import HclOverlay.Path.Basic
import Mathlib.Data.List.Basic

/-!
# Paths piece by piece

The text of a path is a list of pieces with slashes between them. Everything that paths do to their
text, joining and taking apart, is an operation on this list.

* `joinSlashes` — the text of pieces; `splitSlashes_joinSlashes` and `joinSlashes_splitSlashes` make
  texts and lists of pieces the same.
* `IsName` — the texts that name one entry of a directory.
* `stems`, `pieces_join` — what stays of a path when another one is joined to it.
* `trimStart_joinSlashes`, `dropComponents_append`, `trimEnd_joinSlashes` — the text behind a number
  of components.
-/

namespace HclOverlay.Path

/-! ## Pieces -/

/-- The text of pieces with slashes between them. -/
def joinSlashes : List (List Char) → List Char
  | [] => []
  | [piece] => piece
  | piece :: next :: rest => piece ++ '/' :: joinSlashes (next :: rest)

theorem joinSlashes_cons (piece : List Char) {rest : List (List Char)} (h : rest ≠ []) :
    joinSlashes (piece :: rest) = piece ++ '/' :: joinSlashes rest := by
  cases rest with
  | nil => exact absurd rfl h
  | cons next rest => rfl

theorem splitSlashes_ne_nil (cs : List Char) : splitSlashes cs ≠ [] := by
  fun_cases splitSlashes cs <;> simp

theorem splitSlashes_cons {c : Char} (hc : c ≠ '/') (rest : List Char) :
    ∃ first more, splitSlashes rest = first :: more ∧
      splitSlashes (c :: rest) = (c :: first) :: more := by
  cases hrest : splitSlashes rest with
  | nil => exact absurd hrest (splitSlashes_ne_nil rest)
  | cons first more =>
    refine ⟨first, more, rfl, ?_⟩
    rw [splitSlashes.eq_3 c rest hc, hrest]

theorem joinSlashes_splitSlashes (cs : List Char) : joinSlashes (splitSlashes cs) = cs := by
  induction cs with
  | nil => rfl
  | cons c rest ih =>
    by_cases hc : c = '/'
    · subst hc
      rw [splitSlashes, joinSlashes_cons _ (splitSlashes_ne_nil rest), ih, List.nil_append]
    · obtain ⟨first, more, hrest, hcons⟩ := splitSlashes_cons hc rest
      rw [hcons]
      rw [hrest] at ih
      cases more with
      | nil => exact congrArg (c :: ·) ih
      | cons next more => exact congrArg (c :: ·) ih

theorem not_mem_of_mem_splitSlashes {cs piece : List Char} (h : piece ∈ splitSlashes cs) :
    '/' ∉ piece := by
  induction cs generalizing piece with
  | nil =>
    rw [splitSlashes, List.mem_singleton] at h
    simp [h]
  | cons c rest ih =>
    by_cases hc : c = '/'
    · subst hc
      rw [splitSlashes, List.mem_cons] at h
      rcases h with rfl | h
      · exact List.not_mem_nil
      · exact ih h
    · obtain ⟨first, more, hrest, hcons⟩ := splitSlashes_cons hc rest
      rw [hrest] at ih
      rw [hcons] at h
      rcases List.mem_cons.1 h with rfl | h
      · rw [List.mem_cons, not_or]
        exact ⟨Ne.symm hc, ih List.mem_cons_self⟩
      · exact ih (List.mem_cons_of_mem _ h)

/-- The pieces of two texts with a slash between them. -/
theorem splitSlashes_append (a b : List Char) :
    splitSlashes (a ++ '/' :: b) = splitSlashes a ++ splitSlashes b := by
  induction a with
  | nil => rfl
  | cons c a ih =>
    by_cases hc : c = '/'
    · subst hc
      rw [List.cons_append, splitSlashes, splitSlashes, ih, List.cons_append]
    · obtain ⟨first, more, hrest, hcons⟩ := splitSlashes_cons hc a
      obtain ⟨first', more', hrest', hcons'⟩ := splitSlashes_cons hc (a ++ '/' :: b)
      rw [ih, hrest, List.cons_append] at hrest'
      obtain ⟨rfl, rfl⟩ := List.cons.inj hrest'
      rw [List.cons_append, hcons', hcons, List.cons_append]

theorem splitSlashes_piece {piece : List Char} (h : '/' ∉ piece) : splitSlashes piece = [piece] := by
  induction piece with
  | nil => rfl
  | cons c rest ih =>
    rw [List.mem_cons, not_or] at h
    obtain ⟨first, more, hrest, hcons⟩ := splitSlashes_cons (Ne.symm h.1) rest
    rw [ih h.2] at hrest
    obtain ⟨rfl, rfl⟩ := List.cons.inj hrest
    exact hcons

theorem splitSlashes_joinSlashes {pieces : List (List Char)} (hne : pieces ≠ [])
    (h : ∀ piece ∈ pieces, '/' ∉ piece) : splitSlashes (joinSlashes pieces) = pieces := by
  induction pieces with
  | nil => exact absurd rfl hne
  | cons piece rest ih =>
    rw [List.forall_mem_cons] at h
    cases rest with
    | nil => exact splitSlashes_piece h.1
    | cons next rest =>
      rw [joinSlashes, splitSlashes_append, splitSlashes_piece h.1,
        ih (List.cons_ne_nil _ _) h.2, List.singleton_append]

theorem joinSlashes_append {a b : List (List Char)} (ha : a ≠ []) (hb : b ≠ []) :
    joinSlashes (a ++ b) = joinSlashes a ++ '/' :: joinSlashes b := by
  induction a with
  | nil => exact absurd rfl ha
  | cons piece rest ih =>
    cases rest with
    | nil => exact joinSlashes_cons piece hb
    | cons next rest =>
      rw [List.cons_append, joinSlashes_cons piece (by simp), ih (List.cons_ne_nil _ _),
        joinSlashes, List.append_assoc]
      rfl

/-! ## Names -/

/-- A text that names one entry of a directory. -/
structure IsName (name : String) : Prop where
  ne_empty : name ≠ ""
  ne_here : name ≠ "."
  ne_up : name ≠ ".."
  no_slash : '/' ∉ name.toList

theorem isName_iff (name : String) :
    IsName name ↔ name ≠ "" ∧ name ≠ "." ∧ name ≠ ".." ∧ '/' ∉ name.toList :=
  ⟨fun h => ⟨h.1, h.2, h.3, h.4⟩, fun h => ⟨h.1, h.2.1, h.2.2.1, h.2.2.2⟩⟩

instance (name : String) : Decidable (IsName name) := decidable_of_iff' _ (isName_iff name)

variable {name : String}

theorem IsName.toList_ne_nil (h : IsName name) : name.toList ≠ [] := fun hnil =>
  h.ne_empty (String.toList_inj.1 hnil)

theorem IsName.toList_ne_here (h : IsName name) : name.toList ≠ ['.'] := fun hhere =>
  h.ne_here (String.toList_inj.1 hhere)

theorem IsName.toList_ne_up (h : IsName name) : name.toList ≠ ['.', '.'] := fun hup =>
  h.ne_up (String.toList_inj.1 hup)

theorem IsName.pieces (h : IsName name) : splitSlashes name.toList = [name.toList] :=
  splitSlashes_piece h.no_slash

theorem IsName.componentOf? (h : IsName name) : componentOf? name.toList = some (.name name) := by
  have hskip : (name.toList.isEmpty || name.toList == ['.']) = false := by
    rw [Bool.or_eq_false_iff, List.isEmpty_eq_false_iff, beq_eq_false_iff_ne]
    exact ⟨h.toList_ne_nil, h.toList_ne_here⟩
  rw [Path.componentOf?, if_neg (by simp [hskip]), if_neg (by simpa using h.toList_ne_up),
    String.ofList_toList]

/-- Pieces that a path may have without going anywhere. -/
def isIdle (piece : List Char) : Bool := piece.isEmpty || piece == ['.']

theorem componentOf?_of_idle {piece : List Char} (h : isIdle piece = true) :
    componentOf? piece = none := if_pos h

theorem isSome_componentOf? {piece : List Char} (h : isIdle piece = false) :
    (componentOf? piece).isSome = true := by
  rw [componentOf?, if_neg (by rw [← isIdle, h]; exact Bool.false_ne_true)]
  split <;> rfl

theorem IsName.not_idle (h : IsName name) : isIdle name.toList = false := by
  rw [isIdle, Bool.or_eq_false_iff, List.isEmpty_eq_false_iff, beq_eq_false_iff_ne]
  exact ⟨h.toList_ne_nil, h.toList_ne_here⟩

/-! ## Joining -/

/-- The pieces of a path. -/
def pieces (p : Path) : List (List Char) := splitSlashes p.text.toList

/-- The pieces of a path without an empty one at the end, which a joined path takes the place of. -/
def stems (p : Path) : List (List Char) :=
  if p.pieces.getLast? = some [] then p.pieces.dropLast else p.pieces

/-- A path that does not stand for itself when it is joined to another. -/
def IsRelative (child : String) : Prop := child.toList.head? ≠ some '/'

instance (child : String) : Decidable (IsRelative child) := inferInstanceAs (Decidable (_ ≠ _))

theorem IsName.isRelative (h : IsName name) : IsRelative name := fun hhead =>
  h.no_slash (List.mem_of_mem_head? hhead)

theorem pieces_eq_of_getLast? {p : Path} (h : p.text.toList.getLast? = some '/') :
    ∃ front, p.text.toList = front ++ ['/'] ∧ p.pieces = splitSlashes front ++ [[]] := by
  obtain ⟨front, hfront⟩ := List.getLast?_eq_some_iff.1 h
  refine ⟨front, hfront, ?_⟩
  rw [pieces, hfront, splitSlashes_append]
  rfl

/-- The last piece is empty only if the text is, or ends in a slash. -/
theorem getLast?_pieces_ne {p : Path} (hne : p.text.toList ≠ [])
    (h : p.text.toList.getLast? ≠ some '/') : p.pieces.getLast? ≠ some [] := by
  intro hlast
  obtain ⟨front, hfront⟩ := List.getLast?_eq_some_iff.1 hlast
  have htext := joinSlashes_splitSlashes p.text.toList
  rw [← pieces, hfront] at htext
  cases front with
  | nil => exact hne htext.symm
  | cons first more =>
    rw [joinSlashes_append (List.cons_ne_nil _ _) (List.cons_ne_nil _ _)] at htext
    rw [← htext] at h
    exact h (by simp [joinSlashes])

/-- **Joining** puts the pieces of the second path behind those of the first. -/
theorem pieces_join (base : Path) {child : String} (h : IsRelative child) :
    (base.join child).pieces = base.stems ++ splitSlashes child.toList := by
  unfold join
  rw [if_neg (by simpa [IsRelative] using h)]
  by_cases hempty : base.text.toList = []
  · have htext : base.text = "" := String.toList_inj.1 hempty
    rw [if_pos (by simp [htext]), pieces, htext, stems, pieces, htext]
    rfl
  · by_cases hlast : base.text.toList.getLast? = some '/'
    · obtain ⟨front, hfront, hpieces⟩ := pieces_eq_of_getLast? hlast
      rw [if_pos (by simp [hlast]), stems, if_pos (by simp [hpieces]), pieces, String.toList_append,
        hfront, List.append_assoc, List.singleton_append, splitSlashes_append, hpieces,
        List.dropLast_concat]
    · have htext : base.text.isEmpty = false := by
        rw [String.isEmpty_eq_false_iff]
        rintro heq
        exact hempty (by rw [heq]; rfl)
      rw [if_neg (by simp [htext, hlast]), stems, if_neg (getLast?_pieces_ne hempty hlast), pieces,
        String.toList_append, String.toList_append, List.append_assoc,
        show ("/" : String).toList ++ child.toList = '/' :: child.toList from rfl,
        splitSlashes_append]
      rfl

/-! ## Taking apart -/

/-- A piece that goes somewhere starts no run of slashes and points. -/
theorem trimStart_of_not_idle {piece : List Char} (hslash : '/' ∉ piece)
    (hidle : isIdle piece = false) (rest : List Char) :
    trimStart (piece ++ rest) = piece ++ rest := by
  rw [isIdle, Bool.or_eq_false_iff, List.isEmpty_eq_false_iff, beq_eq_false_iff_ne] at hidle
  match piece with
  | [] => exact absurd rfl hidle.1
  | [c] =>
    rw [List.mem_singleton] at hslash
    refine trimStart.eq_4 _ (fun _ h => hslash (List.cons.inj h).1.symm) (fun _ h => ?_) fun h => ?_
    · exact hidle.2 (by rw [(List.cons.inj h).1])
    · exact hidle.2 (by rw [(List.cons.inj h).1])
  | c :: d :: more =>
    rw [List.mem_cons, List.mem_cons, not_or, not_or] at hslash
    refine trimStart.eq_4 _ (fun _ h => hslash.1 (List.cons.inj h).1.symm) (fun _ h => ?_) nofun
    exact hslash.2.1 (List.cons.inj (List.cons.inj h).2).1.symm

theorem trimStart_joinSlashes {ps : List (List Char)} (h : ∀ p ∈ ps, '/' ∉ p) :
    trimStart (joinSlashes ps) = joinSlashes (ps.dropWhile isIdle) := by
  induction ps with
  | nil => rfl
  | cons p rest ih =>
    rw [List.forall_mem_cons] at h
    have hrest := ih h.2
    cases hidle : isIdle p with
    | false =>
      rw [List.dropWhile_cons_of_neg (by simp [hidle])]
      cases rest with
      | nil =>
        rw [joinSlashes]
        simpa using trimStart_of_not_idle h.1 hidle []
      | cons next rest => exact trimStart_of_not_idle h.1 hidle _
    | true =>
      rw [List.dropWhile_cons_of_pos hidle, ← hrest]
      rw [isIdle, Bool.or_eq_true, List.isEmpty_iff, beq_iff_eq] at hidle
      cases rest with
      | nil => rcases hidle with rfl | rfl <;> rfl
      | cons next rest => rcases hidle with rfl | rfl <;> rfl

theorem dropWhile_piece {piece : List Char} (h : '/' ∉ piece) (rest : List Char) :
    (piece ++ rest).dropWhile (· != '/') = rest.dropWhile (· != '/') := by
  induction piece with
  | nil => rfl
  | cons c piece ih =>
    rw [List.mem_cons, not_or] at h
    rw [List.cons_append, List.dropWhile_cons_of_pos (by simpa using Ne.symm h.1), ih h.2]

/-- One component is dropped with the idle pieces behind it. -/
theorem dropComponents_succ {piece : List Char} {ps : List (List Char)} (hpiece : piece ≠ [])
    (hslash : '/' ∉ piece) (hps : ∀ p ∈ ps, '/' ∉ p) (n : Nat) :
    dropComponents (n + 1) (joinSlashes (piece :: ps)) =
      dropComponents n (joinSlashes (ps.dropWhile isIdle)) := by
  have hhead : ∀ rest, (piece ++ rest).head? ≠ some '/' := by
    intro rest hhead
    cases piece with
    | nil => exact hpiece rfl
    | cons c piece => exact hslash (List.mem_cons.2 (.inl (Option.some.inj hhead).symm))
  have hdrop : ∀ cs : List Char, cs.head? ≠ some '/' →
      dropComponents (n + 1) cs = dropComponents n (trimStart (cs.dropWhile (· != '/'))) := by
    intro cs hcs
    rw [dropComponents]
    rintro tail rfl
    exact hcs rfl
  cases ps with
  | nil =>
    rw [joinSlashes, hdrop _ (by simpa using hhead [])]
    have hall := dropWhile_piece hslash []
    rw [List.append_nil] at hall
    rw [hall]
    rfl
  | cons next ps =>
    rw [joinSlashes, hdrop _ (hhead _), dropWhile_piece hslash,
      List.dropWhile_cons_of_neg (by simp), trimStart, trimStart_joinSlashes hps]

theorem dropWhile_isIdle_cons {piece : List Char} (h : isIdle piece = false)
    (ps : List (List Char)) : (piece :: ps).dropWhile isIdle = piece :: ps :=
  List.dropWhile_cons_of_neg (by simp [h])

/-- Behind as many components as the first pieces have, the other pieces are left. -/
theorem dropComponents_append {ps row : List (List Char)} (hps : ∀ p ∈ ps, '/' ∉ p)
    (hrow : ∀ p ∈ row, '/' ∉ p) (hidle : ∀ p ∈ row, isIdle p = false) :
    dropComponents (ps.filterMap componentOf?).length
        (joinSlashes ((ps ++ row).dropWhile isIdle)) = joinSlashes row := by
  induction ps with
  | nil =>
    rw [List.nil_append, List.filterMap_nil, List.length_nil, dropComponents]
    cases row with
    | nil => rfl
    | cons p row => rw [dropWhile_isIdle_cons (hidle p List.mem_cons_self)]
  | cons p ps ih =>
    rw [List.forall_mem_cons] at hps
    cases hp : isIdle p with
    | true =>
      rw [List.filterMap_cons_none (componentOf?_of_idle hp), List.cons_append,
        List.dropWhile_cons_of_pos hp]
      exact ih hps.2
    | false =>
      obtain ⟨c, hc⟩ := Option.isSome_iff_exists.1 (isSome_componentOf? hp)
      have hne : p ≠ [] := by
        rintro rfl
        cases hp
      rw [List.filterMap_cons_some hc, List.length_cons, List.cons_append,
        dropWhile_isIdle_cons hp, dropComponents_succ hne hps.1, ih hps.2]
      intro q hq
      rcases List.mem_append.1 hq with hq | hq
      · exact hps.2 q hq
      · exact hrow q hq

theorem trimEndReversed_of {cs : List Char} (hslash : cs.head? ≠ some '/')
    (hpoint : ∀ rest, cs ≠ '.' :: '/' :: rest) : trimEndReversed cs = cs :=
  trimEndReversed.eq_3 cs (fun rest h => hslash (by rw [h]; rfl)) hpoint

/-- A text that ends in a name has nothing to trim. -/
theorem trimEnd_append_name (text : List Char) (h : IsName name) :
    trimEnd (text ++ name.toList) = text ++ name.toList := by
  rw [trimEnd, trimEndReversed_of, List.reverse_reverse]
  · rw [List.reverse_append, List.head?_append, List.head?_reverse]
    cases hlast : name.toList.getLast? with
    | none => exact absurd (List.getLast?_eq_none_iff.1 hlast) h.toList_ne_nil
    | some c =>
      rintro hc
      obtain rfl : c = '/' := Option.some.inj hc
      exact h.no_slash (List.mem_of_getLast? hlast)
  · intro rest hrest
    rw [List.reverse_append] at hrest
    match hrev : name.toList.reverse with
    | [] => exact h.toList_ne_nil (List.reverse_eq_nil_iff.1 hrev)
    | [c] =>
      rw [hrev, List.singleton_append] at hrest
      obtain rfl := (List.cons.inj hrest).1
      exact h.toList_ne_here (List.reverse_injective hrev)
    | c :: d :: more =>
      rw [hrev, List.cons_append, List.cons_append] at hrest
      obtain rfl := (List.cons.inj (List.cons.inj hrest).2).1
      exact h.no_slash (List.mem_reverse.1 (by rw [hrev]; simp))

theorem trimEnd_joinSlashes {row : List String} (h : ∀ name ∈ row, IsName name) :
    trimEnd (joinSlashes (row.map String.toList)) = joinSlashes (row.map String.toList) := by
  rcases List.eq_nil_or_concat row with rfl | ⟨front, name, rfl⟩
  · rfl
  have hname := h name (by simp)
  obtain ⟨text, htext⟩ : ∃ text, joinSlashes ((front.concat name).map String.toList) =
      text ++ name.toList := by
    rw [List.concat_eq_append, List.map_append, List.map_singleton]
    cases front with
    | nil => exact ⟨[], rfl⟩
    | cons first front =>
      rw [joinSlashes_append (by simp) (by simp)]
      exact ⟨joinSlashes ((first :: front).map String.toList) ++ ['/'], by simp [joinSlashes]⟩
  rw [htext, trimEnd_append_name text hname]

end HclOverlay.Path
