import HclOverlay.Proofs.Patching.Independence
import Mathlib.Data.List.Forall2

/-!
# The order of patches

Patches of different resources put different blocks in different places, so their order leaves no
trace at all. Patches of one resource write to one block, where a new attribute goes behind those
that are there; so their order shows in the text. It does not show in the values, as long as no
attribute is written by both.

* `valuesIn`, `nestedIn` — what a body says **without the order of its attributes**.
* `valuesIn_patchBody` — the values of one name depend on what is written under this name alone.
* `View.patch_patch` — two patches of one resource are one patch with the attributes of both.
* `View.Alike` — files that say the same, but for the order of attributes.
* `patches_commute` — **the order of two patches** with different targets.
-/

namespace HclOverlay

open Hcl

/-! ## Bodies without an order -/

/-- The nested block that an entry is. -/
def Entry.block? : Entry → Option Block
  | .attr .. => none
  | .block b => some b

/-- The values that a body has for an attribute, in order; more than one if the name is repeated. -/
def valuesIn (name : String) (body : List Entry) : List Value := body.filterMap (·.value? name)

/-- The nested blocks of a body, in order. -/
def nestedIn (body : List Entry) : List Block := body.filterMap Entry.block?

/-- The values of a name after an attribute of a patch was written under it. -/
def rewriteFirst (values : List Value) (attr : String × PatchAttribute) : List Value :=
  attr.2.strategy.combine values.head? attr.2.value :: values.tail

section Bodies

variable {name other : String} {v : Value} {body body' : List Entry}
  {attrs front back : List (String × PatchAttribute)}

theorem valueIn?_eq_head? (name : String) (body : List Entry) :
    valueIn? name body = (valuesIn name body).head? :=
  List.head?_filterMap.symm

theorem Entry.value?_of_ne (h : other ≠ name) (v : Value) :
    (Entry.attr name v).value? other = none :=
  if_neg (by simpa using h.symm)

/-- An entry with a value for one name has none for another name, and is no block. -/
theorem Entry.eq_attr_of_value? {e : Entry} (h : e.value? name = some v) : e = .attr name v := by
  cases e with
  | attr other w =>
    rw [Entry.value?] at h
    split at h
    · next hname =>
      rw [eq_of_beq hname, Option.some.inj h]
    · cases h
  | block b => cases h

theorem valuesIn_append (name : String) (front back : List Entry) :
    valuesIn name (front ++ back) = valuesIn name front ++ valuesIn name back :=
  List.filterMap_append

theorem nestedIn_append (front back : List Entry) :
    nestedIn (front ++ back) = nestedIn front ++ nestedIn back :=
  List.filterMap_append

theorem valuesIn_attr (name : String) (v : Value) (body : List Entry) (other : String) :
    valuesIn other (.attr name v :: body) =
      if other = name then v :: valuesIn other body else valuesIn other body := by
  rw [valuesIn, List.filterMap_cons]
  by_cases h : other = name
  · subst h
    rw [Entry.value?, if_pos (beq_self_eq_true _), if_pos rfl]
    rfl
  · rw [Entry.value?_of_ne h, if_neg h]
    rfl

theorem nestedIn_attr (name : String) (v : Value) (body : List Entry) :
    nestedIn (.attr name v :: body) = nestedIn body := rfl

/-- A value is put in the place of the first one of its name, or between two entries if there is
none. -/
theorem putValue_cases (name : String) (v : Value) (body : List Entry) :
    (∃ front w back, body = front ++ .attr name w :: back ∧ valuesIn name front = [] ∧
        putValue name v body = front ++ .attr name v :: back) ∨
      ∃ front back, body = front ++ back ∧ valuesIn name body = [] ∧
        putValue name v body = front ++ .attr name v :: back := by
  rw [putValue]
  split
  · next h =>
    obtain ⟨w, hw⟩ := Option.isSome_iff_exists.1 h
    obtain ⟨front, e, back, rfl, he, hfront⟩ := List.findSome?_eq_some_iff.1 hw
    obtain rfl := Entry.eq_attr_of_value? he
    refine .inl ⟨front, w, back, rfl, List.filterMap_eq_nil_iff.2 hfront, ?_⟩
    refine replaceF_append_cons back (fun x hx => ?_) ?_
    · rw [hfront x hx, Option.map_none]
    · rw [he, Option.map_some]
  · next h =>
    rw [Option.not_isSome_iff_eq_none, valueIn?_eq_head?, List.head?_eq_none_iff] at h
    exact .inr ⟨_, _, List.rdropWhile_append_rtakeWhile.symm, h, rfl⟩

/-- **Putting a value** changes the first value of its name. -/
theorem valuesIn_putValue (name : String) (v : Value) (body : List Entry) (other : String) :
    valuesIn other (putValue name v body) =
      if other = name then v :: (valuesIn name body).tail else valuesIn other body := by
  by_cases hname : other = name
  · subst hname
    rw [if_pos rfl]
    rcases putValue_cases other v body with ⟨front, w, back, rfl, hnone, hput⟩ |
      ⟨front, back, rfl, hnone, hput⟩
    · simp [hput, valuesIn_append, valuesIn_attr, hnone]
    · have hsides := List.append_eq_nil_iff.1 ((valuesIn_append other front back).symm.trans hnone)
      simp [hput, valuesIn_append, valuesIn_attr, hsides]
  · rw [if_neg hname]
    rcases putValue_cases name v body with ⟨front, w, back, rfl, -, hput⟩ |
      ⟨front, back, rfl, -, hput⟩
    · simp [hput, valuesIn_append, valuesIn_attr, hname]
    · simp [hput, valuesIn_append, valuesIn_attr, hname]

theorem nestedIn_putValue (name : String) (v : Value) (body : List Entry) :
    nestedIn (putValue name v body) = nestedIn body := by
  rcases putValue_cases name v body with ⟨front, w, back, rfl, -, hput⟩ |
    ⟨front, back, rfl, -, hput⟩
  · rw [hput, nestedIn_append, nestedIn_append, nestedIn_attr, nestedIn_attr]
  · rw [hput, nestedIn_append, nestedIn_append, nestedIn_attr]

theorem valueFor_eq (body : List Entry) (attr : String × PatchAttribute) :
    valueFor body attr :: (valuesIn attr.1 body).tail =
      rewriteFirst (valuesIn attr.1 body) attr := by
  rw [valueFor, valueIn?_eq_head?, rewriteFirst]

/-- **The values of one name** depend on what is written under this name alone. -/
theorem valuesIn_patchBody (name : String) (body : List Entry)
    (attrs : List (String × PatchAttribute)) :
    valuesIn name (patchBody body attrs) =
      (attrs.filter (·.1 == name)).foldl rewriteFirst (valuesIn name body) := by
  induction attrs generalizing body with
  | nil => rfl
  | cons attr rest ih =>
    rw [patchBody, List.foldl_cons, ← patchBody, ih, valuesIn_putValue]
    by_cases hname : name = attr.1
    · subst hname
      rw [if_pos rfl, valueFor_eq, List.filter_cons_of_pos (by simp), List.foldl_cons]
    · rw [if_neg hname, List.filter_cons_of_neg (by simpa using Ne.symm hname)]

theorem nestedIn_patchBody (body : List Entry) (attrs : List (String × PatchAttribute)) :
    nestedIn (patchBody body attrs) = nestedIn body := by
  induction attrs generalizing body with
  | nil => rfl
  | cons attr rest ih => rw [patchBody, List.foldl_cons, ← patchBody, ih, nestedIn_putValue]

/-- Under each name at most one of two lists writes something. -/
theorem filter_append_comm (h : ∀ a ∈ front, ∀ b ∈ back, a.1 ≠ b.1) (name : String) :
    (front ++ back).filter (·.1 == name) = (back ++ front).filter (·.1 == name) := by
  rw [List.filter_append, List.filter_append]
  by_cases hfront : ∃ a ∈ front, a.1 = name
  · obtain ⟨a, ha, rfl⟩ := hfront
    have hback : back.filter (·.1 == a.1) = [] := by
      refine List.filter_eq_nil_iff.2 fun b hb heq => h a ha b hb ?_
      exact (eq_of_beq heq).symm
    rw [hback, List.append_nil, List.nil_append]
  · have hfront : front.filter (·.1 == name) = [] := by
      refine List.filter_eq_nil_iff.2 fun a ha heq => hfront ⟨a, ha, eq_of_beq heq⟩
    rw [hfront, List.append_nil, List.nil_append]

theorem patchBody_append (body : List Entry) (front back : List (String × PatchAttribute)) :
    patchBody body (front ++ back) = patchBody (patchBody body front) back :=
  List.foldl_append

/-! ## The values that are written -/

theorem writtenIn_append (body : List Entry) (front back : List (String × PatchAttribute)) :
    writtenIn body (front ++ back) =
      writtenIn body front ++ writtenIn (patchBody body front) back := by
  induction front generalizing body with
  | nil => rfl
  | cons attr rest ih =>
    rw [List.cons_append, writtenIn, writtenIn, ih, List.cons_append]
    rfl

/-- What is written depends on the values of the names that are written. -/
theorem writtenIn_congr (h : ∀ attr ∈ attrs, valuesIn attr.1 body = valuesIn attr.1 body') :
    writtenIn body attrs = writtenIn body' attrs := by
  induction attrs generalizing body body' with
  | nil => rfl
  | cons attr rest ih =>
    obtain ⟨hattr, hrest⟩ := List.forall_mem_cons.1 h
    have hvalue : valueFor body attr = valueFor body' attr := by
      rw [valueFor, valueFor, valueIn?_eq_head?, valueIn?_eq_head?, hattr]
    rw [writtenIn, writtenIn, hvalue]
    refine congrArg (valueFor body' attr :: ·) (ih fun attr' hattr' => ?_)
    rw [valuesIn_putValue, valuesIn_putValue, hattr, hrest attr' hattr']

/-- Writes under other names do not matter for what is written. -/
theorem writtenIn_append_of_disjoint (h : ∀ a ∈ front, ∀ b ∈ back, a.1 ≠ b.1)
    (body : List Entry) :
    writtenIn body (front ++ back) = writtenIn body front ++ writtenIn body back := by
  rw [writtenIn_append]
  refine congrArg (writtenIn body front ++ ·) (writtenIn_congr fun b hb => ?_)
  have hfront : front.filter (·.1 == b.1) = [] :=
    List.filter_eq_nil_iff.2 fun a ha heq => h a ha b hb (eq_of_beq heq)
  rw [valuesIn_patchBody, hfront, List.foldl_nil]

end Bodies

/-! ## Two patches of one resource -/

section Lists

variable {α β : Type} {f g h : α → Option α}

/-- Two changes of the same member are one. -/
theorem replaceF_replaceF (hnone : ∀ x, f x = none → g x = none ∧ h x = none)
    (hsome : ∀ x y, f x = some y → ∃ z, g y = some z ∧ h x = some z) (l : List α) :
    (l.replaceF f).replaceF g = l.replaceF h := by
  induction l with
  | nil => rfl
  | cons x l ih =>
    cases hx : f x with
    | none =>
      rw [List.replaceF_cons_of_none f hx, List.replaceF_cons_of_none g (hnone x hx).1,
        List.replaceF_cons_of_none h (hnone x hx).2, ih]
    | some y =>
      obtain ⟨z, hy, hz⟩ := hsome x y hx
      rw [List.replaceF_cons_of_some f hx, List.replaceF_cons_of_some g hy,
        List.replaceF_cons_of_some h hz]

/-- What is found in the member that changes is what becomes of what was found there before. -/
theorem findSome?_replaceF {k : α → Option β} {m : β → β} (hnone : ∀ x, f x = none → k x = none)
    (hsome : ∀ x y, f x = some y → ∃ b, k x = some b ∧ k y = some (m b)) (l : List α) :
    (l.replaceF f).findSome? k = (l.findSome? k).map m := by
  induction l with
  | nil => rfl
  | cons x l ih =>
    cases hx : f x with
    | none =>
      rw [List.replaceF_cons_of_none f hx, List.findSome?_cons, List.findSome?_cons, hnone x hx]
      exact ih
    | some y =>
      obtain ⟨b, hb, hy⟩ := hsome x y hx
      rw [List.replaceF_cons_of_some f hx, List.findSome?_cons, List.findSome?_cons, hb, hy]
      rfl

/-- Two changes of the same member leave lists that differ in this member. -/
theorem forall₂_replaceF {R : α → α → Prop} (hrefl : ∀ x, R x x)
    (hnone : ∀ x, f x = none → g x = none)
    (hsome : ∀ x y, f x = some y → ∃ z, g x = some z ∧ R y z) (l : List α) :
    List.Forall₂ R (l.replaceF f) (l.replaceF g) := by
  induction l with
  | nil => exact .nil
  | cons x l ih =>
    cases hx : f x with
    | none =>
      rw [List.replaceF_cons_of_none f hx, List.replaceF_cons_of_none g (hnone x hx)]
      exact .cons (hrefl x) ih
    | some y =>
      obtain ⟨z, hz, hyz⟩ := hsome x y hx
      rw [List.replaceF_cons_of_some f hx, List.replaceF_cons_of_some g hz]
      exact .cons hyz (List.forall₂_same.2 fun x _ => hrefl x)

end Lists

namespace Top

variable {p q : Patch} {t t' : Top}

/-- The body of a block does not enter the key of its resource. -/
theorem key?_block_congr (kind : String) (labels : List String) (body body' : List Entry) :
    (block kind labels body).key? = (block kind labels body').key? := by
  match labels with
  | [] | [_] | [_, _] | _ :: _ :: _ :: _ => rfl

/-- What a patch does to a structure that declares its resource, and to no other one. -/
theorem patched?_eq_some :
    t.patched? p = some t' ↔ ∃ kind labels body, t = .block kind labels body ∧
      t.key? = some p.key ∧ t' = .block kind labels (patchBody body p.attributes) := by
  cases t with
  | attr name v => simp [patched?]
  | block kind labels body =>
    rw [patched?]
    split
    · next hkey => simp [hkey, eq_comm]
    · next hkey => simp [hkey]

theorem patched?_eq_none : t.patched? p = none ↔ t.key? ≠ some p.key := by
  cases t with
  | attr name v => simp [patched?, key?]
  | block kind labels body => simp [patched?]

/-- Structures that say the same, but for the order of the attributes in the body of a block. -/
inductive Alike : Top → Top → Prop
  | attr (name : String) (v : Value) : Alike (.attr name v) (.attr name v)
  | block (kind : String) (labels : List String) {body body' : List Entry}
      (values : ∀ name, valuesIn name body = valuesIn name body')
      (nested : nestedIn body = nestedIn body') :
      Alike (.block kind labels body) (.block kind labels body')

theorem Alike.refl (t : Top) : t.Alike t := by
  cases t with
  | attr name v => exact .attr name v
  | block kind labels body => exact .block kind labels (fun _ => rfl) rfl

end Top

namespace View

variable {p q : Patch}

/-- Files that say the same, but for the order of the attributes in the bodies of blocks. -/
def Alike (view view' : View) : Prop :=
  List.Forall₂ (fun file file' => file.1 = file'.1 ∧ List.Forall₂ Top.Alike file.2 file'.2)
    view view'

/-- The patch that writes the attributes of two patches. -/
def both (p q : Patch) : Patch := { p with attributes := p.attributes ++ q.attributes }

theorem patched?_both (hkey : p.key = q.key) (tops : List Top) :
    (tops.replaceF (Top.patched? p)).replaceF (Top.patched? q) =
      tops.replaceF (Top.patched? (both p q)) := by
  refine replaceF_replaceF (fun t ht => ?_) (fun t t' ht => ?_) tops
  · rw [Top.patched?_eq_none] at ht
    exact ⟨Top.patched?_eq_none.2 (hkey ▸ ht), Top.patched?_eq_none.2 ht⟩
  · obtain ⟨kind, labels, body, rfl, hdeclares, rfl⟩ := Top.patched?_eq_some.1 ht
    refine ⟨.block kind labels (patchBody (patchBody body p.attributes) q.attributes),
      Top.patched?_eq_some.2 ⟨kind, labels, _, rfl, ?_, rfl⟩,
      Top.patched?_eq_some.2 ⟨kind, labels, body, rfl, hdeclares, ?_⟩⟩
    · rw [Top.key?_block_congr kind labels _ body, hdeclares, hkey]
    · rw [both, patchBody_append]

/-- A patch does not change which structures declare a resource. -/
theorem any_key?_patched (p : Patch) (key : ResourceKey) (tops : List Top) :
    (tops.replaceF (Top.patched? p)).any (·.key? = some key) = tops.any (·.key? = some key) := by
  induction tops with
  | nil => rfl
  | cons t tops ih =>
    cases ht : t.patched? p with
    | none => rw [List.replaceF_cons_of_none _ ht, List.any_cons, List.any_cons, ih]
    | some t' =>
      obtain ⟨kind, labels, body, rfl, -, rfl⟩ := Top.patched?_eq_some.1 ht
      rw [List.replaceF_cons_of_some _ ht, List.any_cons, List.any_cons,
        Top.key?_block_congr kind labels _ body]

/-- **Two patches of one resource** are one patch. -/
theorem patch_patch (hkey : p.key = q.key) (view : View) :
    (view.patch p).patch q = view.patch (both p q) := by
  refine replaceF_replaceF (fun file hfile => ?_) (fun file file' hfile => ?_) view
  · split at hfile
    · cases hfile
    · next hnone =>
      rw [hkey] at hnone
      exact ⟨if_neg hnone, if_neg (by rwa [← hkey] at hnone)⟩
  · split at hfile
    · next hany =>
      cases hfile
      refine ⟨(file.1, (file.2.replaceF (Top.patched? p)).replaceF (Top.patched? q)), if_pos ?_, ?_⟩
      · rw [any_key?_patched, ← hkey]
        exact hany
      · rw [patched?_both hkey]
        exact if_pos hany
    · cases hfile

/-- Where a structure declares a resource, there is a body for it. -/
theorem exists_bodyOf? {key : ResourceKey} {tops : List Top}
    (h : tops.any (·.key? = some key) = true) :
    ∃ body, tops.findSome? (Top.bodyOf? key) = some body := by
  rw [← Option.isSome_iff_exists, Option.isSome_iff_ne_none, Ne, List.findSome?_eq_none_iff]
  intro hnone
  obtain ⟨t, ht, hkey⟩ := List.any_eq_true.1 h
  have hkey : t.key? = some key := of_decide_eq_true hkey
  have hbody := hnone t ht
  cases t with
  | attr name v => cases hkey
  | block kind labels body =>
    rw [Top.bodyOf?, if_pos hkey] at hbody
    cases hbody

/-- The body of a resource after a patch of it. -/
theorem bodyOf?_patch (view : View) (p : Patch) :
    (view.patch p).bodyOf? p.key =
      (view.bodyOf? p.key).map fun body => patchBody body p.attributes := by
  have htops : ∀ tops : List Top, (tops.replaceF (Top.patched? p)).findSome? (Top.bodyOf? p.key) =
      (tops.findSome? (Top.bodyOf? p.key)).map fun body => patchBody body p.attributes := by
    refine findSome?_replaceF (fun t ht => ?_) fun t t' ht => ?_
    · exact bodyOf?_of_key?_ne (Top.patched?_eq_none.1 ht)
    · obtain ⟨kind, labels, body, rfl, hdeclares, rfl⟩ := Top.patched?_eq_some.1 ht
      refine ⟨body, if_pos hdeclares, if_pos ?_⟩
      rw [Top.key?_block_congr kind labels _ body, hdeclares]
  refine findSome?_replaceF (fun file hfile => ?_) (fun file file' hfile => ?_) view
  · split at hfile
    · cases hfile
    · next hnone =>
      refine List.findSome?_eq_none_iff.2 fun t ht => bodyOf?_of_key?_ne fun hkey => hnone ?_
      exact List.any_eq_true.2 ⟨t, ht, decide_eq_true hkey⟩
  · split at hfile
    · next hany =>
      cases hfile
      obtain ⟨body, hbody⟩ := exists_bodyOf? hany
      refine ⟨body, hbody, ?_⟩
      rw [htops, hbody, Option.map_some]
    · cases hfile

/-- The values that two patches of one resource write, if they share no attribute. -/
theorem written_two (hkey : p.key = q.key)
    (hdisjoint : ∀ a ∈ p.attributes, ∀ b ∈ q.attributes, a.1 ≠ b.1) (view : View) :
    view.written [p, q] =
      match view.bodyOf? p.key with
      | none => []
      | some body => writtenIn body p.attributes ++ writtenIn body q.attributes := by
  rw [written]
  cases hbody : view.bodyOf? p.key with
  | none => rfl
  | some body =>
    dsimp only
    rw [written, ← hkey, bodyOf?_patch, hbody, Option.map_some]
    dsimp only
    rw [written, List.append_nil, ← writtenIn_append, writtenIn_append_of_disjoint hdisjoint]

/-- Patches of one resource that give the same values leave files that say the same. -/
theorem alike_patch (hkey : p.key = q.key)
    (hvalues : ∀ name body, valuesIn name (patchBody body p.attributes) =
      valuesIn name (patchBody body q.attributes)) (view : View) :
    (view.patch p).Alike (view.patch q) := by
  have htops : ∀ tops : List Top,
      List.Forall₂ Top.Alike (tops.replaceF (Top.patched? p)) (tops.replaceF (Top.patched? q)) := by
    refine forall₂_replaceF Top.Alike.refl (fun t ht => ?_) fun t t' ht => ?_
    · rw [Top.patched?_eq_none] at ht
      exact Top.patched?_eq_none.2 (hkey ▸ ht)
    · obtain ⟨kind, labels, body, rfl, hdeclares, rfl⟩ := Top.patched?_eq_some.1 ht
      refine ⟨_, Top.patched?_eq_some.2 ⟨kind, labels, body, rfl, hkey ▸ hdeclares, rfl⟩, ?_⟩
      refine .block kind labels (fun name => hvalues name body) ?_
      rw [nestedIn_patchBody, nestedIn_patchBody]
  refine forall₂_replaceF (fun file => ⟨rfl, List.forall₂_same.2 fun t _ => .refl t⟩)
    (fun file hfile => ?_) (fun file file' hfile => ?_) view
  · split at hfile
    · cases hfile
    · next hnone =>
      rw [hkey] at hnone
      exact if_neg hnone
  · split at hfile
    · next hany =>
      cases hfile
      rw [hkey] at hany
      exact ⟨_, if_pos hany, rfl, htops file.2⟩
    · cases hfile

/-- **Two patches of one resource** that share no attribute say the same in both orders. -/
theorem alike_patch_patch (hkey : p.key = q.key)
    (hdisjoint : ∀ a ∈ p.attributes, ∀ b ∈ q.attributes, a.1 ≠ b.1) (view : View) :
    ((view.patch p).patch q).Alike ((view.patch q).patch p) := by
  rw [patch_patch hkey, patch_patch hkey.symm]
  refine @alike_patch (both p q) (both q p) hkey (fun name body => ?_) view
  rw [valuesIn_patchBody, valuesIn_patchBody]
  exact congrArg (List.foldl rewriteFirst _) (filter_append_comm hdisjoint name)

/-- The order of the patches does not matter for what they write. -/
theorem mem_written_comm (hkey : p.key = q.key)
    (hdisjoint : ∀ a ∈ p.attributes, ∀ b ∈ q.attributes, a.1 ≠ b.1) {view : View} {v : Value}
    (hv : v ∈ view.written [q, p]) : v ∈ view.written [p, q] := by
  rw [written_two hkey.symm (fun b hb a ha => (hdisjoint a ha b hb).symm), ← hkey] at hv
  rw [written_two hkey hdisjoint]
  cases hbody : view.bodyOf? p.key with
  | none =>
    rw [hbody] at hv
    exact hv
  | some body =>
    rw [hbody] at hv
    exact List.mem_append.2 (List.mem_append.1 hv).symm

end View

/-! ## The result -/

/-- **The order of two patches** with different targets. Take files as they were read or as writes
left them. Patches of different resources are applied in both orders or in none, and leave the same
files. Patches of one resource that share no attribute, if they are applied in both orders and what
they write is read back as itself, leave files that say the same: in each block the same attributes
with the same values. -/
theorem patches_commute {files : ModuleFiles} (hfiles : ∀ e ∈ files, e.2.Made) (p q : Patch) :
    let pq := (applyPatches [p, q]).run files
    let qp := (applyPatches [q, p]).run files
    (p.key ≠ q.key → (pq.1 = .ok () ↔ qp.1 = .ok ()) ∧ (pq.1 = .ok () → pq.2.1 = qp.2.1)) ∧
      (p.key = q.key → (∀ a ∈ p.attributes, ∀ b ∈ q.attributes, a.1 ≠ b.1) →
        pq.1 = .ok () → qp.1 = .ok () →
        (∀ v ∈ (View.ofFiles files).written [p, q], v.ReadsBack) →
        (View.ofFiles pq.2.1).Alike (View.ofFiles qp.2.1)) := by
  intro pq qp
  have hindexed : ∀ e ∈ files, e.2.Indexed := fun e he => (hfiles e he).indexed
  obtain ⟨notices, hpq⟩ := Patching.run_applyPatches files [p, q]
  obtain ⟨notices', hqp⟩ := Patching.run_applyPatches files [q, p]
  simp only [pq, qp, hpq, hqp]
  have hswap : ∀ {p q : Patch}, p.key ≠ q.key → (Patching.patchAll files [p, q]).1 = .ok () →
      Patching.patchAll files [q, p] = Patching.patchAll files [p, q] := by
    intro p q hne hok
    have hrun : Patching.patchAll files [p, q] = (.ok (), (Patching.patchAll files [p, q]).2) :=
      Prod.ext hok rfl
    have hdifferent : [p, q].Pairwise fun p q => p.key ≠ q.key := List.pairwise_pair.2 hne
    exact (patchAll_perm (.swap q p []) hdifferent hindexed hrun).trans hrun.symm
  refine ⟨fun hne => ⟨⟨fun hok => ?_, fun hok => ?_⟩, fun hok => ?_⟩, ?_⟩
  · rw [hswap hne hok, hok]
  · rw [hswap hne.symm hok, hok]
  · rw [hswap hne hok]
  · intro hkey hdisjoint hok hok' hback
    have hback' : ∀ v ∈ (View.ofFiles files).written [q, p], v.ReadsBack :=
      fun v hv => hback v (View.mem_written_comm hkey hdisjoint hv)
    rw [view_patchAll hindexed (Prod.ext hok rfl) hback,
      view_patchAll hindexed (Prod.ext hok' rfl) hback']
    exact View.alike_patch_patch hkey hdisjoint _

/-- Two blocks of one file, the first of them on one line, and two patches of the first. -/
theorem patches_commute_in_file :
    let source := "resource k w \x7b b = 1 \x7d\nresource k v \x7b\x7d\n"
    let f := (ModuleFile.read source ⟨"main.tf"⟩).run.1.toOption.getD
      ⟨⟨""⟩, "", ⟨[], [], true⟩, .empty, false⟩
    let one (name : String) : Table String PatchAttribute := [(name, ⟨.merge, .string "x"⟩)]
    let p : Patch := ⟨"k", "w", none, one "a"⟩
    let q : Patch := ⟨"k", "v", none, one "a"⟩
    let r : Patch := ⟨"k", "w", none, one "c"⟩
    let after (patches : List Patch) := (applyPatches patches).run [(⟨"main.tf"⟩, f)]
    (after [p, q]).1 = .ok () ∧ (after [q, p]).1 = .ok () ∧
      (after [p, q]).2.1 = (after [q, p]).2.1 ∧
      (after [p, r]).2.1.map (·.2.text) =
        ["resource k w \x7b\n  b = 1\n  a = \"x\"\n  c = \"x\"\n\x7d\nresource k v \x7b\x7d\n"] ∧
      (after [r, p]).2.1.map (·.2.text) =
        ["resource k w \x7b\n  b = 1\n  c = \"x\"\n  a = \"x\"\n\x7d\nresource k v \x7b\x7d\n"] ∧
      (View.ofFiles (after [p, r]).2.1).Alike (View.ofFiles (after [r, p]).2.1) := by
  intro source f one p q r after
  obtain ⟨hread, hpq, hpr, hrp, hstring, htext, htext'⟩ :
      (ModuleFile.read source ⟨"main.tf"⟩).run.1.isOk = true ∧
      (after [p, q]).1.isOk = true ∧ (after [p, r]).1.isOk = true ∧ (after [r, p]).1.isOk = true ∧
      (∀ v ∈ (View.ofFiles [(⟨"main.tf"⟩, f)]).written [p, r], v.asString?.isSome = true) ∧
      (after [p, r]).2.1.map (·.2.text) =
        ["resource k w \x7b\n  b = 1\n  a = \"x\"\n  c = \"x\"\n\x7d\nresource k v \x7b\x7d\n"] ∧
      (after [r, p]).2.1.map (·.2.text) =
        ["resource k w \x7b\n  b = 1\n  c = \"x\"\n  a = \"x\"\n\x7d\nresource k v \x7b\x7d\n"] := by
    decide +kernel
  have hfile := eq_ok_of_isOk (d := ⟨⟨""⟩, "", ⟨[], [], true⟩, .empty, false⟩) hread
  have hmade : ∀ e ∈ [((⟨"main.tf"⟩ : Path), f)], e.2.Made := by
    intro e he
    rw [List.mem_singleton.1 he]
    exact .read hfile
  obtain ⟨hends, hfiles⟩ := (patches_commute hmade p q).1 (by decide)
  have hok : (after [p, q]).1 = .ok () := congrArg Prod.fst (eq_ok_of_isOk (d := ()) hpq)
  refine ⟨hok, hends.1 hok, hfiles hok, htext, htext', ?_⟩
  refine (patches_commute hmade p r).2 rfl (by decide)
    (congrArg Prod.fst (eq_ok_of_isOk (d := ()) hpr))
    (congrArg Prod.fst (eq_ok_of_isOk (d := ()) hrp)) fun v hv => ?_
  cases v with
  | string s => exact Value.readsBack_of_plain trivial rfl rfl rfl
  | _ => exact absurd (hstring _ hv) Bool.false_ne_true

end HclOverlay
