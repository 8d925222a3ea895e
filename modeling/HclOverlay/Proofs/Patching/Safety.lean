import HclOverlay.Proofs.Documents.Shape
import HclOverlay.Proofs.Evaluation.Data
import HclOverlay.Proofs.Patching.Refinement

/-!
# Why patches fail

A patch that was read from an overlay is meant to fail only when no file declares its resource. It
also fails when the text of a value that it writes is not read as an expression. Here it is shown
that there is no third way, and when the second one is taken: for data exactly when an object in it
starts with the key `for`, for an expression that is kept when its text is none.

* `Patch.Sound`, `Overlay.sound_of_read` — the names and values of patches that were read.
* `Value.isReadable` — whether the text of a value can be read.
* `ModuleFile.write_of_block` — writing one attribute.
* `Patching.rendered`, `Patching.EndsBy` — the values rendered on the way, and how patches end by
  them: for the attributes of a patch and for patches in order, both by induction along the run.
* `applyPatches_recoverable_iff` — **why patches fail**.
-/

namespace HclOverlay

open Hcl Hcl.Reader

/-! ## Patches that were read -/

/-- A patch whose attributes have identifiers as their names, and values that are data or are kept
as text as a whole. -/
def Patch.Sound (p : Patch) : Prop :=
  ∀ attr ∈ p.attributes, Text.isIdentifier attr.1 = true ∧ attr.2.value.IsWhole

theorem patchAttribute_isWhole (e : Expr) : (Overlay.patchAttribute e).value.IsWhole :=
  Expr.isWhole_value _

theorem body_shaped_of_mem_blocks {d : Document} (hd : d.Shaped) {b : Block}
    (hb : b ∈ d.blocks) : ∀ s ∈ b.body, s.Shaped := by
  obtain ⟨s, hs, heq⟩ := List.mem_filterMap.1 hb
  have hshaped := hd.structures s hs
  cases hshaped with
  | attr h => cases heq
  | block head layout distinct body =>
    cases heq
    exact body

section Every

variable {P : Patch → Prop} {text : String} {path : Path} {p q : Patch} {u v : List Notice}

/-- What one structure of a block adds to a patch: a source or an attribute. -/
theorem Overlay.of_addStructure (hsource : ∀ p s, P p → P { p with source := some s })
    (hattr : ∀ (p : Patch) (a : Attribute), a.Shaped → P p →
      P { p with attributes := p.attributes.insert a.name (patchAttribute a.value) })
    {s : Structure} (hs : s.Shaped) (hp : P p)
    (h : outcome (addStructure text path p s) u = (.ok q, v)) : P q := by
  cases s with
  | block b =>
    obtain ⟨x, w, -, h⟩ := outcome_bind_eq_ok h
    cases h
    exact hp
  | attr a =>
    unfold addStructure at h
    dsimp only at h
    split at h
    · obtain ⟨filter, w, -, h⟩ := outcome_bind_eq_ok h
      cases h
      exact hsource p filter hp
    · have hq := hattr p a hs.of_attr hp
      split at h
      · obtain ⟨x, w, -, h⟩ := outcome_bind_eq_ok h
        cases h
        exact hq
      · cases h
        exact hq

/-- What holds of a patch that says nothing, and still holds with a source or an attribute added,
holds of every patch that was read. -/
theorem Overlay.every_of_read (hnew : ∀ type name, P ⟨type, name, none, []⟩)
    (hsource : ∀ p s, P p → P { p with source := some s })
    (hattr : ∀ (p : Patch) (a : Attribute), a.Shaped → P p →
      P { p with attributes := p.attributes.insert a.name (patchAttribute a.value) })
    {patches : List Patch} {notices : List Notice}
    (h : (Overlay.read text path).run = (.ok patches, notices)) : ∀ p ∈ patches, P p := by
  have hblock : ∀ {b : Block} {p : Patch} {u v : List Notice}, (∀ s ∈ b.body, s.Shaped) →
      outcome (patchOf text path b) u = (.ok p, v) → P p := by
    intro b p u v hb hpatch
    unfold patchOf at hpatch
    split at hpatch
    · cases hpatch
    · exact outcome_foldlM_eq_ok (p := P)
        (fun s hs _ _ _ _ hacc hstep => of_addStructure hsource hattr (hb s hs) hacc hstep)
        (hnew _ _) hpatch
  obtain ⟨d, u, hd, h⟩ := outcome_bind_eq_ok (show outcome (Overlay.read text path) [] = _ from h)
  have hshaped : d.Shaped := by
    have hread : readDocument text path = .ok d := congrArg Prod.fst hd
    unfold readDocument at hread
    split at hread
    · next heq =>
      cases hread
      exact Document.shaped_of_read? heq
    · cases hread
  intro p hp
  obtain ⟨b, hb, v, w, hpatch⟩ := outcome_mapM_eq_ok h p hp
  exact hblock (body_shaped_of_mem_blocks hshaped (List.mem_of_mem_filter hb)) hpatch

end Every

/-- Patches that were read from an overlay are sound. -/
theorem Overlay.sound_of_read {text : String} {path : Path} {patches : List Patch}
    {notices : List Notice} (h : (Overlay.read text path).run = (.ok patches, notices)) :
    ∀ p ∈ patches, p.Sound := by
  refine Overlay.every_of_read (P := Patch.Sound) (fun type name => nofun) (fun p s hp => hp) ?_ h
  intro p a ha hp attr hattr
  rcases Table.mem_insert hattr with rfl | hattr
  · exact ⟨ha.name, patchAttribute_isWhole a.value⟩
  · exact hp attr hattr

/-- No attribute comes twice in a patch that was read. -/
theorem Overlay.nodup_of_read {text : String} {path : Path} {patches : List Patch}
    {notices : List Notice} (h : (Overlay.read text path).run = (.ok patches, notices)) :
    ∀ p ∈ patches, p.attributes.keys.Nodup :=
  Overlay.every_of_read (P := fun p => p.attributes.keys.Nodup) (fun _ _ => List.nodup_nil)
    (fun _ _ hp => hp) (fun _ _ _ hp => Table.nodup_keys_insert hp) h

/-! ## Values that can be written -/

/-- Whether the text of a value is an expression: kept text must be one, and an object must not
start with the key `for`. -/
def Value.isReadable : Value → Bool
  | .unevaluated source => (Expr.read? source.toList).isSome
  | v => !v.opensFor

/-- The text of a value is read or not at any indentation. -/
theorem Value.isSome_read?_chars {v : Value} (hv : v.IsWhole)
    (hnumbers : ∀ n ∈ v.numbers, n.isReadable = true) {indent : List Char}
    (hi : ∀ c ∈ indent, isBlankChar c = true) :
    (Expr.read? (v.chars indent)).isSome = v.isReadable := by
  rcases hv with hv | hv
  · cases v with
    | unevaluated source => rfl
    | _ => cases hv
  · rw [Value.read?_chars ((Value.plain_iff v).2 ⟨hv, hnumbers⟩) hi]
    have hreadable : v.isReadable = !v.opensFor := by
      cases v with
      | unevaluated source => exact hv.elim
      | _ => rfl
    rw [hreadable]
    cases v.opensFor <;> rfl

/-- The failure of a patch that gives an attribute a value whose text is no expression. -/
def Patching.unreadable (path : Path) (key : ResourceKey) (name : String) : Failure :=
  .parse ⟨path, none,
    .unreadable ("patched value for '" ++ key.text ++ "." ++ name ++ "': " ++ Overlay.unreadable)⟩

/-- The value that is written is data, or an expression that is kept as text as a whole. -/
theorem ModuleFile.isWhole_newValue (b : Block) {attr : String × PatchAttribute}
    (h : attr.2.value.IsWhole) : (newValue b attr.1 attr.2).IsWhole := by
  refine Value.IsWhole.combine (fun v hv => ?_) h _
  obtain ⟨a, -, rfl⟩ := Option.map_eq_some_iff.1 hv
  exact a.value.isWhole_value

/-- Writing an attribute renders a value in the block, and all depends on whether this can be
read. -/
theorem ModuleFile.write_of_block {f : ModuleFile} {h : BlockHandle} (key : ResourceKey)
    {attr : String × PatchAttribute} {b : Block} (hb : f.block? h = some b)
    (hname : Text.isIdentifier attr.1 = true) (hvalue : attr.2.value.IsWhole)
    (hnumbers : ∀ n ∈ (newValue b attr.1 attr.2).numbers, n.isReadable = true) :
    if (newValue b attr.1 attr.2).isReadable then ∃ g, f.write h key attr.1 attr.2 = .ok g
    else f.write h key attr.1 attr.2 = .error (Patching.unreadable f.path key attr.1) := by
  have hread := Value.isSome_read?_chars (isWhole_newValue b hvalue) hnumbers
    (indentFor_blank f b attr.1)
  unfold ModuleFile.write
  rw [hb]
  dsimp only
  split
  · next hr =>
    rw [hr] at hread
    obtain ⟨e, he⟩ := Option.isSome_iff_exists.1 hread
    have hrendered : f.readRendered key attr.1
        ((newValue b attr.1 attr.2).chars (f.indentFor b attr.1)) = .ok e := by
      rw [ModuleFile.readRendered, he]
    rw [hrendered]
    exact ⟨_, rfl⟩
  · next hr =>
    rw [Bool.eq_false_iff.2 hr] at hread
    have hnone := Option.isNone_iff_eq_none.1 (by simpa using hread)
    have hrendered : f.readRendered key attr.1
        ((newValue b attr.1 attr.2).chars (f.indentFor b attr.1)) =
        .error (Patching.unreadable f.path key attr.1) := by
      rw [ModuleFile.readRendered, hnone]
      rfl
    rw [hrendered]
    rfl

/-! ## Values that are rendered -/

namespace Patching

/-- The values that are rendered for the attributes of a patch, up to and including the first that
cannot be written. -/
def renderedIn (rank : Nat) (handle : BlockHandle) (key : ResourceKey) (files : ModuleFiles) :
    List (String × PatchAttribute) → List Value
  | [] => []
  | attr :: rest =>
    match files[rank]? with
    | none => []
    | some (_, file) =>
      ((file.block? handle).map fun b => ModuleFile.newValue b attr.1 attr.2).toList ++
        match file.write handle key attr.1 attr.2 with
        | .ok file => renderedIn rank handle key (setFile files rank file) rest
        | .error _ => []

/-- The values that are rendered while patches are applied in order, up to the first failure. -/
def rendered (files : ModuleFiles) : List Patch → List Value
  | [] => []
  | p :: rest =>
    match (locate files p.key).1 with
    | none => []
    | some (rank, handle) =>
      renderedIn rank handle p.key files p.attributes ++
        match writeAll rank handle p.key files p.attributes with
        | (.ok _, files) => rendered files rest
        | (.error _, _) => []

/-- How patches end: well or with a missing resource if all values can be read, otherwise with a
value that cannot. -/
def EndsBy (values : List Value) (result : Except Failure Unit) : Prop :=
  if values.all Value.isReadable then
    result = .ok () ∨ ∃ key, result = .error (.resourceNotFound key)
  else ∃ path key name, result = .error (unreadable path key name)

theorem EndsBy.nil_ok : EndsBy [] (.ok ()) := .inl rfl

theorem EndsBy.nil_notFound (key : ResourceKey) : EndsBy [] (.error (.resourceNotFound key)) :=
  .inr ⟨key, rfl⟩

/-- The attributes of one patch end as the values rendered for them say. -/
theorem writeAll_endsBy (rank : Nat) (handle : BlockHandle) (key : ResourceKey)
    {attrs : List (String × PatchAttribute)}
    (hattrs : ∀ attr ∈ attrs, Text.isIdentifier attr.1 = true ∧ attr.2.value.IsWhole)
    {files : ModuleFiles}
    (hnumbers : ∀ v ∈ renderedIn rank handle key files attrs, ∀ n ∈ v.numbers,
      n.isReadable = true) :
    EndsBy (renderedIn rank handle key files attrs) (writeAll rank handle key files attrs).1 := by
  induction attrs generalizing files with
  | nil => exact .nil_ok
  | cons attr rest ih =>
    rw [renderedIn] at hnumbers ⊢
    rw [writeAll]
    rcases hentry : files[rank]? with _ | ⟨path, file⟩
    · exact .nil_notFound key
    · simp only [hentry] at hnumbers ⊢
      cases hblock : file.block? handle with
      | none =>
        have hwrite : file.write handle key attr.1 attr.2 = .error (.resourceNotFound key) := by
          rw [ModuleFile.write, hblock]
        rw [hwrite]
        exact .nil_notFound key
      | some b =>
        simp only [hblock, Option.map_some, Option.toList_some] at hnumbers ⊢
        have hwrite := ModuleFile.write_of_block key hblock
          (hattrs attr List.mem_cons_self).1 (hattrs attr List.mem_cons_self).2
          (hnumbers _ (List.mem_append_left _ (List.mem_singleton_self _)))
        -- the writes go on behind a value that can be read, and end with any other
        split at hwrite
        · next hreadable =>
          obtain ⟨g, hg⟩ := hwrite
          rw [hg] at hnumbers ⊢
          have hrest := ih (fun attr h => hattrs attr (List.mem_cons_of_mem _ h))
            (fun v hv => hnumbers v (List.mem_append_right _ hv))
          unfold EndsBy at hrest ⊢
          rwa [List.singleton_append, List.all_cons, hreadable, Bool.true_and]
        · next hreadable =>
          rw [hwrite]
          unfold EndsBy
          rw [List.append_nil, List.all_cons, Bool.eq_false_iff.2 hreadable, Bool.false_and]
          exact ⟨_, _, _, rfl⟩

theorem EndsBy.all_of_ok {values : List Value} (h : EndsBy values (.ok ())) :
    values.all Value.isReadable = true := by
  unfold EndsBy at h
  split at h
  · assumption
  · obtain ⟨path, key, name, heq⟩ := h
    cases heq

/-- Patches end as the values rendered for them say. -/
theorem patchAll_endsBy {patches : List Patch} (hpatches : ∀ p ∈ patches, p.Sound)
    {files : ModuleFiles}
    (hnumbers : ∀ v ∈ rendered files patches, ∀ n ∈ v.numbers, n.isReadable = true) :
    EndsBy (rendered files patches) (patchAll files patches).1 := by
  induction patches generalizing files with
  | nil => exact .nil_ok
  | cons p rest ih =>
    rw [rendered] at hnumbers ⊢
    rw [patchAll]
    rcases hloc : (locate files p.key).1 with _ | ⟨rank, handle⟩
    · exact .nil_notFound p.key
    · simp only [hloc] at hnumbers ⊢
      have hfirst := writeAll_endsBy rank handle p.key (hpatches p List.mem_cons_self)
        fun v hv => hnumbers v (List.mem_append_left _ hv)
      rcases hwrite : writeAll rank handle p.key files p.attributes with ⟨f | u, next⟩
      · rw [hwrite] at hfirst
        simp only [List.append_nil]
        exact hfirst
      · rw [hwrite] at hfirst hnumbers
        have hrest := ih (fun q hq => hpatches q (List.mem_cons_of_mem _ hq))
          (fun v hv => hnumbers v (List.mem_append_right _ hv))
        unfold EndsBy at hrest ⊢
        rw [List.all_append, hfirst.all_of_ok, Bool.true_and]
        exact hrest

end Patching

/-- **Why patches fail.** Patches that were read from an overlay are applied, or end with a missing
resource, if and only if the text of every value rendered on the way is an expression: no object of
data starts with the key `for`, and every expression that was kept is still one as it is printed.
Otherwise they end with the value that cannot be read, never with anything else. The numbers must be
written so that they can be read, as those of 64 bits are: `Number.isReadable_of_isHeld`. -/
theorem applyPatches_recoverable_iff {text : String} {path : Path} {patches : List Patch}
    {notices : List Notice} (hread : (Overlay.read text path).run = (.ok patches, notices))
    (files : ModuleFiles)
    (hnumbers : ∀ v ∈ Patching.rendered files patches, ∀ n ∈ v.numbers, n.isReadable = true) :
    let result := ((applyPatches patches).run files).1
    ((∀ v ∈ Patching.rendered files patches, v.isReadable = true) ↔
      result = .ok () ∨ ∃ key, result = .error (.resourceNotFound key)) ∧
    ((∃ v ∈ Patching.rendered files patches, v.isReadable = false) →
      ∃ path key name, result = .error (Patching.unreadable path key name)) := by
  intro result
  obtain ⟨found, heq⟩ := Patching.run_applyPatches files patches
  have hresult : result = (Patching.patchAll files patches).1 := congrArg Prod.fst heq
  have hends := Patching.patchAll_endsBy (Overlay.sound_of_read hread) hnumbers
  rw [← hresult] at hends
  unfold Patching.EndsBy at hends
  split at hends
  · next hall =>
    rw [List.all_eq_true] at hall
    refine ⟨⟨fun _ => hends, fun _ => hall⟩, ?_⟩
    rintro ⟨v, hv, hfalse⟩
    rw [hall v hv] at hfalse
    cases hfalse
  · next hnot =>
    refine ⟨⟨fun hall => absurd (List.all_eq_true.2 hall) hnot, fun hgood => ?_⟩, fun _ => hends⟩
    obtain ⟨p, key, name, hbad⟩ := hends
    rw [hbad] at hgood
    rcases hgood with hgood | ⟨k, hgood⟩
    · cases hgood
    · cases hgood

/-- Data and an expression that is kept can be written, but no object that starts with `for`. -/
theorem applyPatches_recoverable_iff_for :
    let patchesOf := fun text => (Overlay.read text ⟨"o"⟩).run.1.toOption.getD []
    let good := patchesOf "patch k w \x7b\n  a = [\x7b \"b c\" = 1 \x7d]\n  d = f(x)\n\x7d\n"
    let bad := patchesOf "patch k w \x7b\n  a = \x7b \"for\" = 1 \x7d\n\x7d\n"
    let files := (readFiles [(⟨"main.tf"⟩, "resource k w \x7b\n\x7d\n")]).run.1.toOption.getD []
    (((applyPatches good).run files).1 = .ok () ∨
        ∃ key, ((applyPatches good).run files).1 = .error (.resourceNotFound key)) ∧
      ∃ path key name,
        ((applyPatches bad).run files).1 = .error (Patching.unreadable path key name) := by
  intro patchesOf good bad files
  have hgood : (Overlay.read "patch k w \x7b\n  a = [\x7b \"b c\" = 1 \x7d]\n  d = f(x)\n\x7d\n"
      ⟨"o"⟩).run.1.isOk = true := by decide +kernel
  have hbad : (Overlay.read "patch k w \x7b\n  a = \x7b \"for\" = 1 \x7d\n\x7d\n"
      ⟨"o"⟩).run.1.isOk = true := by decide +kernel
  have hnumbers : ∀ patches ∈ [good, bad], ∀ v ∈ Patching.rendered files patches,
      ∀ n ∈ v.numbers, n.isReadable = true := by decide +kernel
  refine ⟨(applyPatches_recoverable_iff (eq_ok_of_isOk hgood) files
      (hnumbers good List.mem_cons_self)).1.1 ?_,
    (applyPatches_recoverable_iff (eq_ok_of_isOk hbad) files
      (hnumbers bad (List.mem_cons_of_mem _ List.mem_cons_self))).2 ?_⟩
  · decide +kernel
  · decide +kernel

end HclOverlay
