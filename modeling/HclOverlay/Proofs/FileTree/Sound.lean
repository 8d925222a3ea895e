import HclOverlay.Proofs.Outcome
import HclOverlay.Proofs.Path.Locations
import HclOverlay.Proofs.Tables
import Mathlib.Data.List.Induction

/-!
# File trees of a disk

A tree that is the content of a disk has names for names, one node at a location, and a directory
above everything. In such a tree a path is resolved to the location it leads to.

* `fileAt?` — what a tree is as far as its files go.
* `Sound` — the trees of disks; `Sound.lookup?_append` — everything above something is a directory.
* `resolve_location` — **a path that is resolved is resolved to its location**; `Reached` says what
  stands there or above.
* `stat_eq_ok`, `isDirectory_iff`, `readText_eq_ok` and their companions — what a look has seen.
* `filesBelow`, `walk_eq_ok`, `names_eq_ok` — what a list of files has seen.
-/

namespace HclOverlay

namespace FileTree

open HclOverlay.Path (IsName Component)

variable {t : FileTree} {l : Location}

/-- The bytes of a file. -/
def Node.bytes? : Node → Option ByteArray
  | .file bytes => some bytes
  | .directory => none

/-- The bytes of the file at a location. -/
def fileAt? (t : FileTree) (l : Location) : Option ByteArray := (t.lookup? l).bind Node.bytes?

theorem fileAt?_eq_some {bytes : ByteArray} :
    t.fileAt? l = some bytes ↔ t.lookup? l = some (.file bytes) := by
  rw [fileAt?, Option.bind_eq_some_iff]
  constructor
  · rintro ⟨_ | _, hl, hn⟩
    · cases hn
      exact hl
    · cases hn
  · exact fun h => ⟨_, h, rfl⟩

theorem fileAt?_of_directory (h : t.lookup? l = some .directory) : t.fileAt? l = none := by
  rw [fileAt?, h]
  rfl

theorem within_iff {base l : Location} : within base l = true ↔ base <+: l :=
  List.isPrefixOf_iff_prefix

/-! ## Sound trees -/

/-- The trees of disks. -/
structure Sound (t : FileTree) : Prop where
  names : ∀ e ∈ t.nodes, e.1 ≠ [] ∧ ∀ name ∈ e.1, IsName name ∧ name.utf8ByteSize ≤ nameLimit
  nodup : t.nodes.keys.Nodup
  parents : ∀ e ∈ t.nodes, t.lookup? e.1.dropLast = some .directory

/-- Whether a node is a directory. -/
def Node.isDirectory : Node → Bool
  | .directory => true
  | .file _ => false

theorem lookup?_directory_iff : t.lookup? l = some .directory ↔ (t.lookup? l).any Node.isDirectory := by
  rcases t.lookup? l with _ | ⟨_⟩ | _ <;> simp [Node.isDirectory]

instance (t : FileTree) : Decidable t.Sound :=
  decidable_of_iff
    ((∀ e ∈ t.nodes, e.1 ≠ [] ∧ ∀ name ∈ e.1, IsName name ∧ name.utf8ByteSize ≤ nameLimit) ∧
      t.nodes.keys.Nodup ∧ ∀ e ∈ t.nodes, (t.lookup? e.1.dropLast).any Node.isDirectory)
    ⟨fun h => ⟨h.1, h.2.1, fun e he => lookup?_directory_iff.2 (h.2.2 e he)⟩,
      fun h => ⟨h.1, h.2, fun e he => lookup?_directory_iff.1 (h.3 e he)⟩⟩

variable {n : Node}

theorem mem_nodes_of_lookup? (hl : l ≠ []) (h : t.lookup? l = some n) : (l, n) ∈ t.nodes := by
  cases l with
  | nil => exact absurd rfl hl
  | cons a r => exact Table.mem_of_find? h

namespace Sound

variable (ht : t.Sound)

include ht

theorem lookup?_of_mem (h : (l, n) ∈ t.nodes) : t.lookup? l = some n := by
  cases l with
  | nil => exact absurd rfl (ht.names _ h).1
  | cons a r => exact Table.find?_of_mem ht.nodup h

theorem name_of_lookup? (h : t.lookup? l = some n) :
    ∀ name ∈ l, IsName name ∧ name.utf8ByteSize ≤ nameLimit := by
  cases l with
  | nil => nofun
  | cons a r => exact (ht.names _ (mem_nodes_of_lookup? (List.cons_ne_nil a r) h)).2

theorem isName (h : t.lookup? l = some n) : ∀ name ∈ l, IsName name :=
  fun name hname => (ht.name_of_lookup? h name hname).1

theorem lookup?_dropLast (h : t.lookup? l = some n) : t.lookup? l.dropLast = some .directory := by
  cases l with
  | nil => rfl
  | cons a r => exact ht.parents _ (mem_nodes_of_lookup? (List.cons_ne_nil a r) h)

/-- Everything above something is a directory. -/
theorem lookup?_append {k : Location} (h : t.lookup? (l ++ k) = some n) (hk : k ≠ []) :
    t.lookup? l = some .directory := by
  induction k using List.reverseRecOn generalizing n with
  | nil => exact absurd rfl hk
  | append_singleton k name ih =>
    have hparent := ht.lookup?_dropLast h
    rw [← List.append_assoc, List.dropLast_concat] at hparent
    by_cases hk : k = []
    · rwa [hk, List.append_nil] at hparent
    · exact ih hparent hk

end Sound

/-! ## Resolving -/

/-- A location that paths lead to: a directory, or one step below a directory. -/
inductive Reached (t : FileTree) : Location → Prop
  | directory {l : Location} (h : t.lookup? l = some .directory) : Reached t l
  | entry {l : Location} {name : String} (h : t.lookup? l = some .directory) (hname : IsName name)
      (hsize : name.utf8ByteSize ≤ nameLimit) : Reached t (l ++ [name])

theorem Reached.parent (ht : t.Sound) (h : t.Reached l) :
    t.lookup? l.dropLast = some .directory := by
  cases h with
  | directory h => exact ht.lookup?_dropLast h
  | entry h => rwa [List.dropLast_concat]

theorem Reached.name (ht : t.Sound) (h : t.Reached l) :
    ∀ name ∈ l, IsName name ∧ name.utf8ByteSize ≤ nameLimit := by
  cases h with
  | directory h => exact ht.name_of_lookup? h
  | @entry l name h hname hsize =>
    intro other hother
    rcases List.mem_append.1 hother with hother | hother
    · exact ht.name_of_lookup? h other hother
    · rw [List.mem_singleton.1 hother]
      exact ⟨hname, hsize⟩

theorem Reached.ne_nil (h : t.Reached l) (hl : t.lookup? l ≠ some .directory) : l ≠ [] := by
  rintro rfl
  exact hl rfl

/-- The location a piece of a path leads to from another one. -/
def walkPiece (l : Location) (piece : List Char) : Location :=
  match Path.componentOf? piece with
  | none => l
  | some c => c.walk l

theorem foldl_walkPiece (l : Location) (ps : List (List Char)) :
    ps.foldl walkPiece l = (ps.filterMap Path.componentOf?).foldl Component.walk l := by
  induction ps generalizing l with
  | nil => rfl
  | cons p ps ih =>
    rw [List.foldl_cons, ih, walkPiece]
    cases hp : Path.componentOf? p with
    | none => rw [List.filterMap_cons_none hp]
    | some c => rw [List.filterMap_cons_some hp, List.foldl_cons]

/-- What a piece of a path is, by its text. -/
theorem piece_cases {piece : List Char} (h : '/' ∉ piece) :
    ((String.ofList piece = "" ∨ String.ofList piece = ".") ∧ Path.componentOf? piece = none) ∨
      (String.ofList piece = ".." ∧ Path.componentOf? piece = some .up) ∨
      (IsName (String.ofList piece) ∧
        Path.componentOf? piece = some (.name (String.ofList piece))) := by
  have htext : ∀ s : String, String.ofList piece = s ↔ piece = s.toList := fun s =>
    ⟨fun h => by rw [← h, String.toList_ofList], fun h => by rw [h, String.ofList_toList]⟩
  by_cases hempty : piece = []
  · subst hempty
    exact .inl ⟨.inl rfl, rfl⟩
  · by_cases hhere : piece = ['.']
    · subst hhere
      exact .inl ⟨.inr rfl, rfl⟩
    · by_cases hup : piece = ['.', '.']
      · subst hup
        exact .inr (.inl ⟨rfl, rfl⟩)
      · have hname : IsName (String.ofList piece) := by
          refine ⟨?_, ?_, ?_, by rwa [String.toList_ofList]⟩ <;> rw [Ne, htext]
          exacts [hempty, hhere, hup]
        have hcomponent := hname.componentOf?
        rw [String.toList_ofList] at hcomponent
        exact .inr (.inr ⟨hname, hcomponent⟩)

theorem step_idle {part : String} (hl : t.lookup? l = some .directory)
    (h : part = "" ∨ part = ".") : t.step l part = .ok l := by
  rw [step, hl]
  rcases h with rfl | rfl <;> rfl

theorem step_up (hl : t.lookup? l = some .directory) : t.step l ".." = .ok l.dropLast := by
  rw [step, hl]
  rfl

theorem step_name {name : String} (hl : t.lookup? l = some .directory) (h : IsName name) :
    t.step l name =
      if nameLimit < name.utf8ByteSize then .error .tooLong else .ok (l ++ [name]) := by
  rw [step, hl]
  simp [h.ne_empty, h.ne_here, h.ne_up]

/-- One step along a path. -/
theorem step_eq_ok (ht : t.Sound) {l' : Location} {piece : List Char} (hpiece : '/' ∉ piece)
    (h : t.step l (String.ofList piece) = .ok l') :
    t.lookup? l = some .directory ∧ l' = walkPiece l piece ∧ t.Reached l' := by
  have hl : t.lookup? l = some .directory := by
    unfold step at h
    split at h
    · assumption
    · cases h
    · cases h
  refine ⟨hl, ?_⟩
  rw [walkPiece]
  rcases piece_cases hpiece with ⟨htext, hc⟩ | ⟨htext, hc⟩ | ⟨hname, hc⟩
  · rw [step_idle hl htext] at h
    cases h
    rw [hc]
    exact ⟨rfl, .directory hl⟩
  · rw [htext, step_up hl] at h
    cases h
    rw [hc]
    exact ⟨rfl, .directory (ht.lookup?_dropLast hl)⟩
  · rw [step_name hl hname] at h
    split at h
    · cases h
    · next hsize =>
      cases h
      rw [hc]
      exact ⟨rfl, .entry hl hname (Nat.le_of_not_lt hsize)⟩

theorem foldlM_step_eq_ok (ht : t.Sound) {ps : List (List Char)} (hps : ∀ p ∈ ps, '/' ∉ p)
    {l' : Location} (hl : t.Reached l)
    (h : (ps.map String.ofList).foldlM t.step l = .ok l') :
    l' = ps.foldl walkPiece l ∧ t.Reached l' := by
  induction ps generalizing l with
  | nil =>
    cases h
    exact ⟨rfl, hl⟩
  | cons p ps ih =>
    rw [List.forall_mem_cons] at hps
    rw [List.map_cons, List.foldlM_cons] at h
    obtain ⟨next, hstep, h⟩ := except_bind_eq_ok h
    obtain ⟨-, rfl, hnext⟩ := step_eq_ok ht hps.1 hstep
    exact ih hps.2 hnext h

theorem eq_parts_of_walkableParts {p : Path} {parts : List String}
    (h : walkableParts p = .ok parts) : parts = p.parts := by
  rw [walkableParts] at h
  split at h
  · cases h
  split at h <;> cases h
  rfl

theorem resolve_eq_ok {p : Path} (h : t.resolve p = .ok l) :
    walkableParts p = .ok p.parts ∧ p.text ≠ "" ∧
      (p.pieces.map String.ofList).foldlM t.step [] = .ok l := by
  obtain ⟨parts, hparts, h⟩ := except_bind_eq_ok h
  obtain rfl := eq_parts_of_walkableParts hparts
  rw [follow, Path.parts_eq] at h
  by_cases hempty : p.text.isEmpty = true
  · rw [if_pos hempty] at h
    cases h
  · rw [if_neg hempty, if_neg (by simp [Path.pieces_ne_nil])] at h
    exact ⟨hparts, by simpa using hempty, h⟩

/-- **A path that is resolved is resolved to its location.** -/
theorem resolve_location (ht : t.Sound) {p : Path} (h : t.resolve p = .ok l) :
    l = p.location ∧ t.Reached l := by
  obtain ⟨-, -, h⟩ := resolve_eq_ok h
  have hroot : t.Reached [] := .directory rfl
  obtain ⟨rfl, hl⟩ := foldlM_step_eq_ok ht (fun q hq => Path.not_mem_pieces hq) hroot h
  exact ⟨foldl_walkPiece [] p.pieces, hl⟩

/-! ## Looking -/

section Looking

variable {p : Path}

theorem stat_eq_ok (ht : t.Sound) (h : t.stat p = .ok n) :
    t.resolve p = .ok p.location ∧ t.lookup? p.location = some n := by
  obtain ⟨l, hp, h⟩ := except_bind_eq_ok h
  obtain ⟨rfl, -⟩ := resolve_location ht hp
  refine ⟨hp, ?_⟩
  split at h
  · next hl =>
    cases h
    exact hl
  · cases h

theorem stat_of_resolve {l : Location} (hp : t.resolve p = .ok l) :
    t.stat p = match t.lookup? l with
      | some n => .ok n
      | none => .error .missing := by
  rw [stat, hp]
  rfl

theorem isDirectory_iff (ht : t.Sound) :
    t.isDirectory p = true ↔
      t.resolve p = .ok p.location ∧ t.lookup? p.location = some .directory := by
  unfold isDirectory
  constructor
  · intro h
    split at h
    · next hp => exact stat_eq_ok ht hp
    · cases h
  · rintro ⟨hp, hl⟩
    rw [stat_of_resolve hp, hl]

theorem isFile_iff (ht : t.Sound) :
    t.isFile p = true ↔ t.resolve p = .ok p.location ∧ ∃ bytes, t.fileAt? p.location = some bytes := by
  unfold isFile
  constructor
  · intro h
    split at h
    · next bytes hp =>
      obtain ⟨hp, hl⟩ := stat_eq_ok ht hp
      exact ⟨hp, bytes, fileAt?_eq_some.2 hl⟩
    · cases h
  · rintro ⟨hp, bytes, hl⟩
    rw [stat_of_resolve hp, fileAt?_eq_some.1 hl]

theorem there_iff (ht : t.Sound) :
    t.there p = true ↔ t.resolve p = .ok p.location ∧ ∃ n, t.lookup? p.location = some n := by
  unfold there
  constructor
  · intro h
    split at h
    · next n hp =>
      obtain ⟨hp, hl⟩ := stat_eq_ok ht hp
      exact ⟨hp, n, hl⟩
    · cases h
  · rintro ⟨hp, n, hl⟩
    rw [stat_of_resolve hp, hl]

theorem readBytes_eq_ok (ht : t.Sound) {bytes : ByteArray} (h : t.readBytes p = .ok bytes) :
    t.fileAt? p.location = some bytes := by
  obtain ⟨n, hp, h⟩ := except_bind_eq_ok h
  obtain ⟨-, hl⟩ := stat_eq_ok ht hp
  cases n with
  | directory => cases h
  | file found =>
    cases h
    exact fileAt?_eq_some.2 hl

theorem readText_eq_ok (ht : t.Sound) {text : String} (h : t.readText p = .ok text) :
    ∃ bytes, t.fileAt? p.location = some bytes ∧ String.fromUTF8? bytes = some text := by
  obtain ⟨bytes, hp, h⟩ := except_bind_eq_ok h
  refine ⟨bytes, readBytes_eq_ok ht hp, ?_⟩
  split at h
  · next found hs =>
    cases h
    exact hs
  · cases h

/-! ## Directories -/

/-- The rows of names that lead from a location to the files below it. -/
def filesBelow (t : FileTree) (l : Location) : List (List String) := t.nodes.filterMap (fileBelow? l)

theorem prefix_of_fileBelow? {e : Location × Node} {row : List String}
    (h : fileBelow? l e = some row) : e.1 = l ++ row := by
  unfold fileBelow? at h
  split at h
  · exact (List.isPrefixOf?_eq_some_iff_append_eq.1 h).symm
  · cases h

theorem mem_filesBelow (ht : t.Sound) {row : List String} (hrow : l ++ row ≠ []) :
    row ∈ t.filesBelow l ↔ ∃ bytes, t.fileAt? (l ++ row) = some bytes := by
  rw [filesBelow, List.mem_filterMap]
  constructor
  · rintro ⟨⟨k, n⟩, hmem, hbelow⟩
    obtain rfl : k = l ++ row := prefix_of_fileBelow? hbelow
    cases n with
    | directory => cases hbelow
    | file bytes => exact ⟨bytes, fileAt?_eq_some.2 (ht.lookup?_of_mem hmem)⟩
  · rintro ⟨bytes, h⟩
    refine ⟨_, mem_nodes_of_lookup? hrow (fileAt?_eq_some.1 h), ?_⟩
    rw [fileBelow?, List.isPrefixOf?_eq_some_iff_append_eq]

/-- Below a directory, files are as many rows of names. -/
theorem names_of_mem_filesBelow (ht : t.Sound) (hl : t.lookup? l = some .directory)
    {row : List String} (h : row ∈ t.filesBelow l) :
    row ≠ [] ∧ (∀ name ∈ row, IsName name) ∧ ∃ bytes, t.fileAt? (l ++ row) = some bytes := by
  have hne : l ++ row ≠ [] := by
    intro hnil
    obtain ⟨rfl, rfl⟩ := List.append_eq_nil_iff.1 hnil
    rw [filesBelow, List.mem_filterMap] at h
    obtain ⟨e, hmem, hbelow⟩ := h
    exact (ht.names _ hmem).1 (prefix_of_fileBelow? hbelow)
  obtain ⟨bytes, hbytes⟩ := (mem_filesBelow ht hne).1 h
  refine ⟨?_, fun name hname => ?_, bytes, hbytes⟩
  · rintro rfl
    rw [List.append_nil, fileAt?_of_directory hl] at hbytes
    cases hbytes
  · exact ht.isName (fileAt?_eq_some.1 hbytes) name (List.mem_append_right l hname)

theorem nodup_filesBelow (ht : t.Sound) (l : Location) : (t.filesBelow l).Nodup := by
  have hkeys : t.nodes.Pairwise fun e e' => e.1 ≠ e'.1 := List.pairwise_map.1 ht.nodup
  refine List.pairwise_filterMap.2 (hkeys.imp fun hne row hrow row' hrow' heq => hne ?_)
  rw [prefix_of_fileBelow? hrow, prefix_of_fileBelow? hrow', heq]

/-- What a walk gives: the file that the path leads to, or the files below the directory. -/
theorem walk_eq_ok (ht : t.Sound) {files : List Path} (h : t.walk p = .ok files) :
    t.resolve p = .ok p.location ∧
      ((t.lookup? p.location ≠ some .directory ∧ files = [p]) ∨
        (t.lookup? p.location = some .directory ∧
          files = Path.sort ((t.filesBelow p.location).map p.below))) := by
  obtain ⟨n, hp, h⟩ := except_bind_eq_ok h
  obtain ⟨hresolve, hl⟩ := stat_eq_ok ht hp
  refine ⟨hresolve, ?_⟩
  cases n with
  | file bytes =>
    cases h
    exact .inl ⟨by rw [hl]; simp, rfl⟩
  | directory =>
    dsimp only at h
    rw [hresolve] at h
    cases h
    exact .inr ⟨hl, rfl⟩

/-- The names of the entries of a directory. -/
theorem names_eq_ok (ht : t.Sound) {names : List String} (h : t.names p = .ok names) :
    t.resolve p = .ok p.location ∧ t.lookup? p.location = some .directory ∧
      names = t.nodes.filterMap (childOf? p.location) := by
  obtain ⟨n, hp, h⟩ := except_bind_eq_ok h
  obtain ⟨hresolve, hl⟩ := stat_eq_ok ht hp
  cases n with
  | file bytes => cases h
  | directory =>
    dsimp only at h
    rw [hresolve] at h
    cases h
    exact ⟨hresolve, hl, rfl⟩

end Looking

end FileTree

end HclOverlay
