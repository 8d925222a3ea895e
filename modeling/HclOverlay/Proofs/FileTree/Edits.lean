import HclOverlay.FileTree.Edit
import HclOverlay.Proofs.FileTree.Walking
import Mathlib.Data.List.DropRight

/-!
# What edits do to a tree

Every edit leaves most of a tree alone, whether it succeeds or fails: writing puts one file at one
location, making directories changes no file at all, and removing a directory takes away what lies
at and below its location.

* `lookup?_put`, `lookup?_eraseAt` and `Sound.put`, `Sound.eraseAt` — trees one change later.
* `Frame` — nothing but a zone of locations changes; `Confined` — and directories are added on some
  roads only.
* `confined_createDirectories` — making directories adds those on the way of the path.
* `writeFile_cases`, `copyFile_cases`, `removeDirectory_cases` — what edits can do.
-/

namespace HclOverlay

namespace FileTree

open HclOverlay.Path (IsName steps_ancestor way_subset)

variable {t t' : FileTree} {l k : Location} {n : Node}

/-! ## One change -/

theorem lookup?_put (hl : l ≠ []) (n : Node) (k : Location) :
    (t.put l n).lookup? k = if k = l then some n else t.lookup? k := by
  split
  · next h => rw [h, lookup?_put_self t n hl]
  · next h => rw [lookup?_put_of_ne t n h]

theorem fileAt?_put_file (hl : l ≠ []) (bytes : ByteArray) (k : Location) :
    (t.put l (.file bytes)).fileAt? k = if k = l then some bytes else t.fileAt? k := by
  rw [fileAt?, lookup?_put hl]
  split <;> rfl

/-- Something new, or a file in the place of another, stands under a directory. -/
theorem Sound.put (ht : t.Sound) (hl : t.Reached l) (hnew : t.lookup? l ≠ some .directory)
    (n : Node) : (t.put l n).Sound := by
  have hne := hl.ne_nil hnew
  refine ⟨fun e he => ?_, Table.nodup_keys_insert ht.nodup, fun e he => ?_⟩
  · rcases Table.mem_insert he with rfl | he
    · exact ⟨hne, hl.name ht⟩
    · exact ht.names e he
  · have hparent : t.lookup? e.1.dropLast = some .directory := by
      rcases Table.mem_insert he with rfl | he
      · exact hl.parent ht
      · exact ht.parents e he
    rw [lookup?_put hne, if_neg]
    · exact hparent
    · rintro h
      exact hnew (h ▸ hparent)

theorem lookup?_eraseAt (hl : l ≠ []) (k : Location) :
    (t.eraseAt l).lookup? k = if l <+: k then none else t.lookup? k := by
  cases k with
  | nil => rw [lookup?_root, lookup?_root, if_neg (by simpa using hl)]
  | cons a r =>
    have hfind := Table.find?_filter (t := t.nodes) (fun k => !within l k) (a :: r)
    refine hfind.trans ?_
    by_cases h : l <+: a :: r
    · rw [if_neg (by simpa using within_iff.2 h), if_pos h]
    · rw [if_pos (by simpa using fun h' => h (within_iff.1 h')), if_neg h]
      rfl

theorem fileAt?_eraseAt (hl : l ≠ []) (k : Location) :
    (t.eraseAt l).fileAt? k = if l <+: k then none else t.fileAt? k := by
  rw [fileAt?, lookup?_eraseAt hl]
  split <;> rfl

theorem Sound.eraseAt (ht : t.Sound) (hl : l ≠ []) : (t.eraseAt l).Sound := by
  refine ⟨fun e he => ht.names e (List.mem_of_mem_filter he), ?_, fun e he => ?_⟩
  · exact (List.filter_sublist.map _).nodup ht.nodup
  · obtain ⟨hmem, hkeep⟩ := List.mem_filter.1 he
    rw [lookup?_eraseAt hl, if_neg, ht.parents e hmem]
    intro hbelow
    have hwithin := within_iff.2 (hbelow.trans (List.dropLast_prefix e.1))
    simp [hwithin] at hkeep

/-! ## Frames -/

/-- Nothing but a zone of locations has changed, except that directories may have been added. -/
structure Frame (zone : Location → Prop) (t t' : FileTree) : Prop where
  file : ∀ l, ¬zone l → t'.fileAt? l = t.fileAt? l
  directory : ∀ l, ¬zone l → t.lookup? l = some .directory → t'.lookup? l = some .directory
  sound : t'.Sound

namespace Frame

variable {zone zone' : Location → Prop} {t'' : FileTree}

theorem refl (zone : Location → Prop) (ht : t.Sound) : Frame zone t t :=
  ⟨fun _ _ => rfl, fun _ _ h => h, ht⟩

theorem trans (h : Frame zone t t') (h' : Frame zone t' t'') : Frame zone t t'' where
  file l hl := (h'.file l hl).trans (h.file l hl)
  directory l hl hd := h'.directory l hl (h.directory l hl hd)
  sound := h'.sound

theorem mono (h : Frame zone t t') (hsub : ∀ l, zone l → zone' l) : Frame zone' t t' where
  file l hl := h.file l fun hz => hl (hsub l hz)
  directory l hl := h.directory l fun hz => hl (hsub l hz)
  sound := h.sound

end Frame

/-- What changes beside its way leaves a path open. -/
theorem Opens.frame {zone : Location → Prop} (h : t.Opens p) (hframe : Frame zone t t')
    (hway : ∀ k ∈ p.way, ¬zone k) : t'.Opens p := fun k hk =>
  hframe.directory k (hway k hk) (h k hk)

/-- A frame where directories have been added on some roads only. -/
structure Confined (zone road : Location → Prop) (t t' : FileTree) : Prop
    extends Frame zone t t' where
  made : ∀ l, ¬zone l → t'.lookup? l = some .directory →
    t.lookup? l = some .directory ∨ road l

namespace Confined

variable {zone zone' road road' : Location → Prop} {t'' : FileTree}

theorem refl (zone road : Location → Prop) (ht : t.Sound) : Confined zone road t t :=
  ⟨.refl zone ht, fun _ _ h => .inl h⟩

theorem trans (h : Confined zone road t t') (h' : Confined zone road t' t'') :
    Confined zone road t t'' where
  toFrame := h.toFrame.trans h'.toFrame
  made l hl hd := (h'.made l hl hd).elim (h.made l hl) .inr

/-- Roads matter outside the zone only. -/
theorem mono (h : Confined zone road t t') (hsub : ∀ l, zone l → zone' l)
    (hroad : ∀ l, road l → zone' l ∨ road' l) : Confined zone' road' t t' where
  toFrame := h.toFrame.mono hsub
  made l hl hd := (h.made l (fun hz => hl (hsub l hz)) hd).imp_right fun hr =>
    (hroad l hr).resolve_left hl

/-- Where no directory is added, none is added off the roads. -/
theorem weaken (h : Confined zone (fun _ => False) t t') : Confined zone road t t' :=
  h.mono (fun _ hl => hl) fun _ => False.elim

/-- **What has changed**: a place in the zone, or there is a new directory on a road. -/
theorem cases (h : Confined zone road t t') (l : Location) :
    t'.lookup? l = t.lookup? l ∨ zone l ∨
      (t.lookup? l = none ∧ t'.lookup? l = some .directory ∧ road l) := by
  by_cases hl : zone l
  · exact .inr (.inl hl)
  have hfile := h.file l hl
  have hdirectory := h.directory l hl
  have hmade := h.made l hl
  rw [fileAt?, fileAt?] at hfile
  rcases hold : t.lookup? l with _ | ⟨bytes⟩ | _ <;>
    rcases hnew : t'.lookup? l with _ | ⟨bytes'⟩ | _ <;> rw [hold, hnew] at hfile
  · exact .inl rfl
  · cases hfile
  · rcases hmade hnew with hdir | hroad
    · rw [hold] at hdir
      cases hdir
    · exact .inr (.inr ⟨rfl, rfl, hroad⟩)
  · cases hfile
  · cases hfile
    exact .inl rfl
  · cases hfile
  · rw [hdirectory hold] at hnew
    cases hnew
  · cases hfile
  · exact .inl rfl

/-- A file is put. -/
theorem put (ht : t.Sound) (hl : t.Reached l) (hnew : t.lookup? l ≠ some .directory)
    (bytes : ByteArray) (hzone : zone l) : Confined zone road t (t.put l (.file bytes)) := by
  have hsame : ∀ k, ¬zone k → (t.put l (.file bytes)).lookup? k = t.lookup? k := by
    intro k hk
    rw [lookup?_put (hl.ne_nil hnew), if_neg]
    rintro rfl
    exact hk hzone
  refine ⟨⟨fun k hk => ?_, fun k hk hd => ?_, ht.put hl hnew _⟩, fun k hk hd => .inl ?_⟩
  · rw [fileAt?, fileAt?, hsame k hk]
  · rw [hsame k hk, hd]
  · rw [← hsame k hk, hd]

/-- A directory is added. -/
theorem putDirectory (ht : t.Sound) (hl : t.Reached l) (hnew : t.lookup? l = none)
    (hroad : road l) : Confined zone road t (t.put l .directory) := by
  have hnone : t.lookup? l ≠ some .directory := by
    rw [hnew]
    exact nofun
  refine ⟨⟨fun k _ => ?_, fun k _ hd => ?_, ht.put hl hnone _⟩, fun k _ hd => ?_⟩
  · rw [fileAt?, fileAt?, lookup?_put (hl.ne_nil hnone)]
    split
    · next hk =>
      rw [hk, hnew]
      rfl
    · rfl
  · rw [lookup?_put (hl.ne_nil hnone)]
    split
    · rfl
    · exact hd
  · rw [lookup?_put (hl.ne_nil hnone)] at hd
    split at hd
    · next hk => exact .inr (hk ▸ hroad)
    · exact .inl hd

/-- A directory is removed with everything below it. -/
theorem eraseAt (ht : t.Sound) (hl : l ≠ []) (hzone : ∀ k, l <+: k → zone k) :
    Confined zone road t (t.eraseAt l) := by
  have hsame : ∀ k, ¬zone k → (t.eraseAt l).lookup? k = t.lookup? k :=
    fun k hk => by rw [lookup?_eraseAt hl, if_neg fun h => hk (hzone k h)]
  refine ⟨⟨fun k hk => ?_, fun k hk hd => ?_, ht.eraseAt hl⟩, fun k hk hd => .inl ?_⟩
  · rw [fileAt?, fileAt?, hsame k hk]
  · rw [hsame k hk, hd]
  · rw [← hsame k hk, hd]

end Confined

/-! ## Making directories -/

section Directories

variable {p : Path}

/-- What is left of a path without the empty parts at its end are pieces. -/
theorem rdropWhile_parts (p : Path) : p.parts.rdropWhile (· == "") =
    if p.text.isEmpty then [] else (p.pieces.rdropWhile (·.isEmpty)).map String.ofList := by
  rw [Path.parts_eq]
  split
  · rfl
  · have hempty : ((· == "") ∘ String.ofList) = fun piece : List Char => piece.isEmpty := by
      funext piece
      cases piece with
      | nil => rfl
      | cons c piece =>
        rw [Function.comp_apply, List.isEmpty_cons, beq_eq_false_iff_ne]
        exact fun h => by simpa using congrArg String.toList h
    rw [List.rdropWhile, List.rdropWhile, ← List.map_reverse, List.dropWhile_map, hempty,
      List.map_reverse]

/-- Empty pieces at the end are no steps. -/
theorem filterMap_rdropWhile (pieces : List (List Char)) :
    (pieces.rdropWhile (·.isEmpty)).filterMap Path.componentOf? =
      pieces.filterMap Path.componentOf? := by
  induction pieces using List.reverseRecOn with
  | nil => rfl
  | append_singleton pieces piece ih =>
    by_cases hempty : piece.isEmpty = true
    · have hidle : Path.componentOf? piece = none :=
        Path.componentOf?_of_idle (by simp [Path.isIdle, hempty])
      rw [List.rdropWhile_concat_pos _ _ _ hempty, ih, List.filterMap_append,
        List.filterMap_cons_none hidle, List.filterMap_nil, List.append_nil]
    · rw [List.rdropWhile_concat_neg _ _ _ hempty]

/-- **The location of a directory to be made** is that of its path. -/
theorem resolveNew_location (ht : t.Sound) (h : t.resolveNew p = .ok l) :
    l = p.location ∧ t.Reached l := by
  obtain ⟨parts, hparts, h⟩ := except_bind_eq_ok h
  obtain rfl := eq_parts_of_walkableParts hparts
  change t.follow (p.parts.rdropWhile (· == "")) = .ok l at h
  rw [follow, rdropWhile_parts] at h
  split at h
  · cases h
  split at h
  · cases h
  have hslash : ∀ q ∈ p.pieces.rdropWhile (·.isEmpty), '/' ∉ q :=
    fun q hq => Path.not_mem_pieces ((List.rdropWhile_prefix _ _).subset hq)
  obtain ⟨rfl, hl⟩ := foldlM_step_eq_ok ht hslash (.directory rfl) h
  refine ⟨?_, hl⟩
  rw [foldl_walkPiece, filterMap_rdropWhile, Path.location, Path.steps]

theorem confined_createDirectory (ht : t.Sound) (zone : Location → Prop) (p : Path) :
    Confined zone (· = p.location) t (outcome (createDirectory p) t).2 := by
  simp only [createDirectory, outcome_bind, outcome_get]
  cases hp : t.resolveNew p with
  | error e => exact .refl _ _ ht
  | ok l =>
    obtain ⟨rfl, hl⟩ := resolveNew_location ht hp
    simp only [outcome_lift]
    cases hnode : t.lookup? p.location with
    | some n => exact .refl _ _ ht
    | none => exact .putDirectory ht hl hnode rfl

theorem confined_createIfNew (ht : t.Sound) (zone : Location → Prop) (p : Path) :
    Confined zone (· = p.location) t (outcome (createIfNew p) t).2 := by
  have hcreate := confined_createDirectory ht zone p
  rw [createIfNew, outcome_tryCatch]
  rcases houtcome : outcome (createDirectory p) t with ⟨e | u, t'⟩ <;> rw [houtcome] at hcreate
  · change Confined zone _ t (outcome _ t').2
    split
    · simp only [outcome_bind, outcome_get]
      split <;> exact hcreate
    · exact hcreate
  · exact hcreate

theorem confined_createChain (ht : t.Sound) (zone : Location → Prop) (ps : List Path) :
    Confined zone (· ∈ ps.map Path.location) t (outcome (createChain ps) t).2 := by
  induction ps generalizing t with
  | nil => exact .refl _ _ ht
  | cons p above ih =>
    have hone : ∀ {t}, t.Sound → Confined zone (· ∈ (p :: above).map Path.location) t
        (outcome (createIfNew p) t).2 := fun ht =>
      (confined_createIfNew ht zone p).mono (fun _ hl => hl) fun l hl => .inr (hl ▸ List.mem_cons_self)
    have hfirst := hone ht
    rw [createChain, outcome_tryCatch]
    rcases houtcome : outcome (createIfNew p) t with ⟨e | u, t'⟩ <;> rw [houtcome] at hfirst
    · change Confined zone _ t (outcome _ t').2
      split
      · have habove : Confined zone (· ∈ (p :: above).map Path.location) t'
            (outcome (createChain above) t').2 :=
          (ih hfirst.sound).mono (fun _ hl => hl) fun l hl => .inr (List.mem_cons_of_mem _ hl)
        rw [outcome_bind]
        rcases hchain : outcome (createChain above) t' with ⟨e | u, t''⟩ <;> rw [hchain] at habove
        · exact hfirst.trans habove
        · exact (hfirst.trans habove).trans (hone habove.sound)
      · exact hfirst
    · exact hfirst

/-- **Making directories** changes no file and adds nothing but the directories, however it ends. -/
theorem confined_createDirectories (ht : t.Sound) (zone : Location → Prop) (p : Path) :
    Confined zone (· ∈ p.way) t (outcome (createDirectories p) t).2 := by
  refine (confined_createChain ht zone p.ancestors).mono (fun _ hl => hl) fun l hl => .inr ?_
  obtain ⟨q, hq, rfl⟩ := List.mem_map.1 hl
  exact way_subset (steps_ancestor hq) q.location_mem_way

end Directories

/-! ## Writing and removing -/

/-- What writing a file can do. -/
theorem writeFile_cases (ht : t.Sound) (p : Path) (bytes : ByteArray) :
    (∃ e, outcome (writeFile p bytes) t = (.error e, t)) ∨
      (outcome (writeFile p bytes) t = (.ok (), t.put p.location (.file bytes)) ∧
        t.resolve p = .ok p.location ∧ t.Reached p.location ∧
        t.lookup? p.location ≠ some .directory) := by
  simp only [writeFile, outcome_bind, outcome_get]
  cases hp : t.resolve p with
  | error e => exact .inl ⟨e, rfl⟩
  | ok l =>
    obtain ⟨rfl, hl⟩ := resolve_location ht hp
    simp only [outcome_lift]
    split
    · exact .inl ⟨_, rfl⟩
    · next hnot => exact .inr ⟨rfl, trivial, hl, hnot⟩

/-- What copying a file can do. -/
theorem copyFile_cases (ht : t.Sound) (p target : Path) :
    (∃ e, outcome (copyFile p target) t = (.error e, t)) ∨
      ∃ bytes, t.fileAt? p.location = some bytes ∧
        outcome (copyFile p target) t = outcome (writeFile target bytes) t := by
  simp only [copyFile, outcome_bind, outcome_get]
  cases hp : t.readBytes p with
  | error e => exact .inl ⟨e, rfl⟩
  | ok bytes => exact .inr ⟨bytes, readBytes_eq_ok ht hp, rfl⟩

/-- The last part of a path that a name was joined to. -/
theorem getLast?_parts_join (base : Path) {name : String} (h : IsName name) :
    ((base.join name).parts.filter (· != "")).getLast? = some name := by
  have htext : (base.join name).text.isEmpty = false := by
    rw [String.isEmpty_eq_false_iff]
    intro hempty
    have hpieces := Path.pieces_join base h.isRelative
    rw [Path.pieces, hempty, h.pieces] at hpieces
    have hlast := congrArg List.getLast? hpieces
    rw [List.getLast?_concat] at hlast
    exact h.toList_ne_nil (Option.some.inj hlast).symm
  rw [Path.parts_eq, if_neg (by simp [htext]), Path.pieces_join base h.isRelative, h.pieces,
    List.map_append, List.filter_append]
  simp [h.ne_empty, String.ofList_toList]

/-- What removing a directory can do that is named under another path. -/
theorem removeDirectory_cases (ht : t.Sound) (base : Path) {name : String} (h : IsName name) :
    (∃ e, outcome (removeDirectory (base.join name)) t = (.error e, t)) ∨
      (outcome (removeDirectory (base.join name)) t =
          (.ok (), t.eraseAt (base.location ++ [name])) ∧
        t.lookup? (base.location ++ [name]) = some .directory) := by
  simp only [removeDirectory, outcome_bind, outcome_get]
  cases hp : t.stat (base.join name) with
  | error e => exact .inl ⟨e, rfl⟩
  | ok n =>
    obtain ⟨hresolve, hl⟩ := stat_eq_ok ht hp
    rw [Path.location_join_name base h] at hl hresolve
    simp only [outcome_lift]
    cases n with
    | file bytes => exact .inl ⟨_, rfl⟩
    | directory =>
      right
      simp only [outcome_bind, hresolve, outcome_lift, getLast?_parts_join base h]
      split
      · next hhere => exact absurd (Option.some.inj hhere) h.ne_here
      · next hup => exact absurd (Option.some.inj hup) h.ne_up
      · exact ⟨rfl, hl⟩

end FileTree

end HclOverlay
