import HclOverlay.Proofs.Patching.Files
import Mathlib.Data.List.DropRight

/-!
# What the files of a module say

Patching is meant to change what the files say and nothing else about them. What they say is the
value of every attribute, in order, with the layout, the comments and the spelling of values left
out; on that level a patch is a simple function.

* `Entry`, `Top`, `View` — bodies, files and modules as far as they say something.
* `patchBody` — **the meaning of a patch on a body**: each attribute in turn takes its new value
  in place, or comes directly behind the last attribute.
* `View.patch` — the same on the files: only the first block that declares the resource, in the
  first file that has one, changes.
* `View.written` — the values that patches write.
* `map_setAttribute` — writing an attribute into a tree does to what it says what `putValue` does.
-/

namespace HclOverlay

open Hcl

/-! ## Bodies -/

/-- What a structure of a body says: an attribute its value, a nested block all of itself. -/
inductive Entry where
  | attr (name : String) (value : Value)
  | block (b : Block)

namespace Entry

/-- What a structure says. -/
def ofStructure : Structure → Entry
  | .attr a => .attr a.name a.value.value
  | .block b => .block b

/-- Whether an entry is an attribute. -/
def isAttr : Entry → Bool
  | .attr .. => true
  | .block _ => false

/-- The value of an entry, if it is an attribute of the given name. -/
def value? (name : String) : Entry → Option Value
  | .attr other v => if other == name then some v else none
  | .block _ => none

end Entry

/-- The value that a body has for an attribute. -/
def valueIn? (name : String) (body : List Entry) : Option Value := body.findSome? (·.value? name)

/-- A body with a value put in: in the place of the attribute if it is there, else directly behind
the last attribute, which is the front if there is none. -/
def putValue (name : String) (v : Value) (body : List Entry) : List Entry :=
  if (valueIn? name body).isSome then
    body.replaceF fun e => (e.value? name).map fun _ => .attr name v
  else body.rdropWhile (!·.isAttr) ++ .attr name v :: body.rtakeWhile (!·.isAttr)

/-- The value that an attribute of a patch gives to a body. -/
def valueFor (body : List Entry) (attr : String × PatchAttribute) : Value :=
  attr.2.strategy.combine (valueIn? attr.1 body) attr.2.value

/-- A body after the attributes of a patch, one after the other. -/
def patchBody (body : List Entry) (attrs : List (String × PatchAttribute)) : List Entry :=
  attrs.foldl (fun body attr => putValue attr.1 (valueFor body attr) body) body

/-- The values that the attributes of a patch give to a body, one after the other. -/
def writtenIn (body : List Entry) : List (String × PatchAttribute) → List Value
  | [] => []
  | attr :: rest =>
    valueFor body attr :: writtenIn (putValue attr.1 (valueFor body attr) body) rest

/-! ## Files -/

/-- What a structure at the top level of a file says. -/
inductive Top where
  | attr (name : String) (value : Value)
  | block (kind : String) (labels : List String) (body : List Entry)

namespace Top

/-- What a structure at the top level says. -/
def ofStructure : Structure → Top
  | .attr a => .attr a.name a.value.value
  | .block b => .block b.kind b.labelTexts (b.body.map Entry.ofStructure)

/-- The key of the resource that a structure declares: `resource` blocks with two labels do. -/
def key? : Top → Option ResourceKey
  | .block kind [type, name] _ => if kind = "resource" then some (.of type name) else none
  | _ => none

/-- The body of a structure, if it is a block that declares the given resource. -/
def bodyOf? (key : ResourceKey) : Top → Option (List Entry)
  | .block kind labels body => if (block kind labels body).key? = some key then some body else none
  | .attr .. => none

/-- A structure with a patch applied, if it declares the resource of the patch. -/
def patched? (p : Patch) : Top → Option Top
  | .block kind labels body =>
    if (block kind labels body).key? = some p.key then
      some (.block kind labels (patchBody body p.attributes))
    else none
  | .attr .. => none

end Top

/-- What the files of a module say, by path, in load order. -/
abbrev View := List (Path × List Top)

namespace View

/-- What files say. -/
def ofFiles (files : ModuleFiles) : View :=
  files.map fun e => (e.1, e.2.document.structures.map Top.ofStructure)

/-- **The meaning of a patch**: in the first file that declares its resource, the first block that
does takes its attributes; everything else stays. -/
def patch (view : View) (p : Patch) : View :=
  view.replaceF fun file =>
    if file.2.any (·.key? = some p.key) then some (file.1, file.2.replaceF (Top.patched? p))
    else none

/-- The body of the first block that declares a resource. -/
def bodyOf? (view : View) (key : ResourceKey) : Option (List Entry) :=
  view.findSome? fun file => file.2.findSome? (Top.bodyOf? key)

/-- The values that patches write, up to a patch whose resource nothing declares. -/
def written (view : View) : List Patch → List Value
  | [] => []
  | p :: rest =>
    match view.bodyOf? p.key with
    | none => []
    | some body => writtenIn body p.attributes ++ (view.patch p).written rest

end View

/-! ## Lists of which one member changes -/

theorem replaceF_append_cons {α : Type} {p : α → Option α} {pre : List α} {a b : α}
    (post : List α) (hpre : ∀ x ∈ pre, p x = none) (ha : p a = some b) :
    (pre ++ a :: post).replaceF p = pre ++ b :: post := by
  induction pre with
  | nil => exact List.replaceF_cons_of_some p ha
  | cons x pre ih =>
    rw [List.cons_append, List.replaceF_cons_of_none p (hpre x List.mem_cons_self),
      ih fun y hy => hpre y (List.mem_cons_of_mem x hy), List.cons_append]

theorem findSome?_append_cons {α β : Type} {p : α → Option β} {pre : List α} {a : α} {b : β}
    (post : List α) (hpre : ∀ x ∈ pre, p x = none) (ha : p a = some b) :
    (pre ++ a :: post).findSome? p = some b := by
  induction pre with
  | nil => rw [List.nil_append, List.findSome?_cons, ha]
  | cons x pre ih =>
    rw [List.cons_append, List.findSome?_cons, hpre x List.mem_cons_self]
    exact ih fun y hy => hpre y (List.mem_cons_of_mem x hy)

/-! ## Writing an attribute -/

@[simp] theorem Entry.isAttr_ofStructure (s : Structure) :
    (Entry.ofStructure s).isAttr = s.attribute?.isSome := by
  cases s <;> rfl

@[simp] theorem Entry.value?_attr (name : String) (a : Attribute) :
    (Entry.ofStructure (.attr a)).value? name =
      if a.name == name then some a.value.value else none := rfl

@[simp] theorem Entry.value?_block (name : String) (b : Block) :
    (Entry.ofStructure (.block b)).value? name = none := rfl

/-- The value that a body has for an attribute is that of its first attribute of this name. -/
theorem valueIn?_map (name : String) (body : List Structure) :
    valueIn? name (body.map Entry.ofStructure) =
      ((attributesOf body).find? (·.name == name)).map (·.value.value) := by
  induction body with
  | nil => rfl
  | cons s rest ih =>
    rw [valueIn?, List.map_cons, List.findSome?_cons]
    cases s with
    | attr a =>
      rw [attributesOf_attr, List.find?_cons, Entry.value?_attr]
      cases a.name == name with
      | true => rfl
      | false => exact ih
    | block b => exact ih

theorem map_replaceAttribute (name : String) (e : Expr) (body : List Structure) :
    (replaceAttribute name e body).map Entry.ofStructure =
      (body.map Entry.ofStructure).replaceF
        (fun entry => (entry.value? name).map fun _ => .attr name e.value) := by
  induction body with
  | nil => rfl
  | cons s rest ih =>
    rw [List.map_cons, List.replaceF_cons]
    cases s with
    | attr a =>
      rw [replaceAttribute, Entry.value?_attr]
      cases a.name == name with
      | true => rfl
      | false => exact congrArg (Entry.ofStructure (.attr a) :: ·) ih
    | block b => exact congrArg (Entry.ofStructure (.block b) :: ·) ih

/-- An attribute is inserted between the last attribute and the structures behind it. -/
theorem insertAttribute_eq (new : Attribute) (body : List Structure) :
    ∃ front back, body = front ++ back ∧ insertAttribute new body = front ++ .attr new :: back ∧
      attributesOf back = [] ∧ ∀ h : front ≠ [], (front.getLast h).attribute?.isSome := by
  induction body with
  | nil => exact ⟨[], [], rfl, rfl, rfl, by simp⟩
  | cons s rest ih =>
    unfold insertAttribute
    split
    · next hrest =>
      have hrest : attributesOf rest = [] := List.isEmpty_iff.1 hrest
      cases s with
      | attr a => exact ⟨[.attr a], rest, rfl, rfl, hrest, by simp [Structure.attribute?]⟩
      | block b =>
        refine ⟨[], .block b :: rest, rfl, rfl, ?_, by simp⟩
        simpa [attributesOf, Structure.attribute?] using hrest
    · next hrest =>
      obtain ⟨front, back, rfl, hins, hback, hfront⟩ := ih
      have hne : front ≠ [] := by
        rintro rfl
        exact hrest (List.isEmpty_iff.2 hback)
      refine ⟨s :: front, back, rfl, by rw [hins, List.cons_append], hback, fun h => ?_⟩
      rw [List.getLast_cons hne]
      exact hfront hne

/-- Where a list splits into what `rdropWhile` leaves and what `rtakeWhile` takes. -/
theorem rdropWhile_append_of {α : Type} {p : α → Bool} {front back : List α}
    (hback : ∀ x ∈ back, p x = true) (hfront : ∀ h : front ≠ [], ¬ p (front.getLast h) = true) :
    (front ++ back).rdropWhile p = front ∧ (front ++ back).rtakeWhile p = back := by
  induction back using List.reverseRecOn with
  | nil =>
    rw [List.append_nil]
    exact ⟨List.rdropWhile_eq_self_iff.2 hfront, List.rtakeWhile_eq_nil_iff.2 hfront⟩
  | append_singleton back x ih =>
    have hx : p x = true := hback x (by simp)
    obtain ⟨hd, ht⟩ := ih fun y hy => hback y (by simp [hy])
    rw [← List.append_assoc, List.rdropWhile_concat_pos p _ x hx, List.rtakeWhile_concat_pos p _ x hx,
      hd, ht]
    exact ⟨rfl, rfl⟩

theorem map_insertAttribute (new : Attribute) (body : List Structure) :
    (insertAttribute new body).map Entry.ofStructure =
      (body.map Entry.ofStructure).rdropWhile (!·.isAttr) ++
        .attr new.name new.value.value :: (body.map Entry.ofStructure).rtakeWhile (!·.isAttr) := by
  obtain ⟨front, back, rfl, hins, hback, hfront⟩ := insertAttribute_eq new body
  have hnone : ∀ e ∈ back.map Entry.ofStructure, (!e.isAttr) = true := by
    intro e he
    obtain ⟨s, hs, rfl⟩ := List.mem_map.1 he
    have : s.attribute? = none := List.filterMap_eq_nil_iff.1 hback s hs
    simp [this]
  have hlast : ∀ h : front.map Entry.ofStructure ≠ [],
      ¬ (!((front.map Entry.ofStructure).getLast h).isAttr) = true := by
    intro h
    rw [List.getLast_map, Entry.isAttr_ofStructure, hfront]
    simp
  obtain ⟨hdrop, htake⟩ := rdropWhile_append_of hnone hlast
  rw [hins, List.map_append, List.map_append, List.map_cons, hdrop, htake]
  rfl

/-- Reflowing a body changes nothing that it says. -/
theorem map_reflow (indent : Trivia) (body : List Structure) :
    (reflow indent body).map Entry.ofStructure = body.map Entry.ofStructure := by
  rw [reflow, List.map_map]
  refine List.map_congr_left fun s _ => ?_
  cases s <;> rfl

/-- **Writing an attribute** does to what a body says exactly what `putValue` does. -/
theorem map_setAttribute (indent : Trivia) (oneLine : Bool) (name : String) (e : Expr)
    (body : List Structure) :
    (setAttribute indent oneLine name e body).map Entry.ofStructure =
      putValue name e.value (body.map Entry.ofStructure) := by
  rw [setAttribute, putValue, valueIn?_map]
  have hany : (attributesOf body).any (·.name == name) =
      (((attributesOf body).find? (·.name == name)).map (·.value.value)).isSome := by
    rw [Option.isSome_map, Bool.eq_iff_iff, List.any_eq_true, List.find?_isSome]
  rw [hany]
  split
  · exact map_replaceAttribute name e body
  · rw [map_insertAttribute]
    cases oneLine with
    | true => rw [if_pos rfl, map_reflow]
    | false => rfl

end HclOverlay
