import HclOverlay.Proofs.Documents.Shape
import HclOverlay.Proofs.Patching.Refinement

/-!
# Writes keep the shape of documents

An attribute that is written stands where an attribute can stand: it is indented by blanks, its name
is a name, and it is new to its body unless it takes the place of the one that has its name. So the
documents of files have the shape of documents that were read, however often they are patched.

* `distinct_iff` — no attribute twice, as a statement about the list of names.
* `replaceAttribute_shaped`, `insertAttribute_shaped`, `setAttribute_shaped` — one body.
* `ModuleFile.Shaped.write`, `Patched.shaped` — files.
-/

namespace HclOverlay

open Hcl Hcl.Reader

/-! ## Names of attributes -/

/-- The names of the attributes of a body, in order. -/
def namesOf (body : List Structure) : List String := (attributesOf body).map (·.name)

theorem distinct_iff (names : List String) (body : List Structure) :
    Distinct names body ↔ (namesOf body).Nodup ∧ ∀ name ∈ namesOf body, name ∉ names := by
  induction body generalizing names with
  | nil => simp [Distinct, namesOf]
  | cons s rest ih =>
    cases s with
    | block b => exact ih names
    | attr a =>
      have hnames : namesOf (.attr a :: rest) = a.name :: namesOf rest := rfl
      rw [Distinct, ih, hnames, List.nodup_cons]
      simp only [List.mem_cons, not_or, forall_eq_or_imp]
      constructor
      · rintro ⟨hnew, hnodup, hrest⟩
        exact ⟨⟨fun hmem => (hrest a.name hmem).1 rfl, hnodup⟩, hnew, fun n hn => (hrest n hn).2⟩
      · rintro ⟨⟨hmem, hnodup⟩, hnew, hrest⟩
        refine ⟨hnew, hnodup, fun n hn => ⟨?_, hrest n hn⟩⟩
        rintro rfl
        exact hmem hn

theorem namesOf_append (front back : List Structure) :
    namesOf (front ++ back) = namesOf front ++ namesOf back := by
  simp [namesOf, attributesOf]

theorem namesOf_replaceAttribute (name : String) (e : Expr) (body : List Structure) :
    namesOf (replaceAttribute name e body) = namesOf body := by
  induction body with
  | nil => rfl
  | cons s rest ih =>
    cases s with
    | block b => exact ih
    | attr a =>
      rw [replaceAttribute]
      split
      · next hname =>
        have hname : a.name = name := beq_iff_eq.1 hname
        exact congrArg (· :: namesOf rest) hname.symm
      · exact congrArg (a.name :: ·) ih

theorem namesOf_reflow (indent : Trivia) (body : List Structure) :
    namesOf (reflow indent body) = namesOf body := by
  induction body with
  | nil => rfl
  | cons s rest ih =>
    cases s with
    | block b => exact ih
    | attr a => exact congrArg (a.name :: ·) ih

theorem namesOf_modifyNthBlock (f : Block → Block) (n : Nat) (body : List Structure) :
    namesOf (modifyNthBlock f n body) = namesOf body := by
  induction body generalizing n with
  | nil => cases n <;> rfl
  | cons s rest ih =>
    cases s with
    | attr a => exact congrArg (a.name :: ·) (ih n)
    | block b =>
      cases n with
      | zero => rfl
      | succ n => exact ih n

/-! ## One body -/

section Bodies

variable {name : String} {body : List Structure} {layout : Layout}

/-- On the line of its block, a body has blanks around a single attribute. -/
theorem shaped_oneLine_iff (blanks : Trivia) (body : List Structure) :
    (Layout.oneLine blanks).Shaped body ↔
      Skips false blanks ∧ ∀ a, body = [.attr a] →
        Skips false a.before ∧ ∀ t ∈ a.after, Skips false t := by
  match body with
  | [] => exact ⟨fun h => ⟨h, nofun⟩, fun h => h.1⟩
  | [.attr a] =>
    refine ⟨fun h => ⟨h.1, fun b hb => ?_⟩, fun h => ⟨h.1, h.2 a rfl⟩⟩
    cases hb
    exact h.2
  | [.block b] => exact ⟨fun h => ⟨h, nofun⟩, fun h => h.1⟩
  | .attr a :: t :: rest => exact ⟨fun h => ⟨h, nofun⟩, fun h => h.1⟩
  | .block b :: t :: rest => exact ⟨fun h => ⟨h, nofun⟩, fun h => h.1⟩

theorem replaceAttribute_shaped (hname : Text.isIdentifier name = true) (e : Expr)
    (hbody : ∀ s ∈ body, s.Shaped) : ∀ s ∈ replaceAttribute name e body, s.Shaped := by
  induction body with
  | nil => nofun
  | cons s rest ih =>
    have hrest := ih fun t ht => hbody t (List.mem_cons_of_mem s ht)
    have hs := hbody s List.mem_cons_self
    cases s with
    | block b => exact List.forall_mem_cons.2 ⟨hs, hrest⟩
    | attr a =>
      rw [replaceAttribute]
      split
      · refine List.forall_mem_cons.2 ⟨.attr ?_, fun t ht => hbody t (List.mem_cons_of_mem _ ht)⟩
        exact ⟨hs.of_attr.before, hname, .skip rfl .nil, .skip rfl .nil, hs.of_attr.after⟩
      · exact List.forall_mem_cons.2 ⟨hs, hrest⟩

theorem replaceAttribute_layout (e : Expr) (h : layout.Shaped body) :
    layout.Shaped (replaceAttribute name e body) := by
  cases layout with
  | lines opening closing => exact h
  | oneLine blanks =>
    rw [shaped_oneLine_iff] at h ⊢
    refine ⟨h.1, fun a ha => ?_⟩
    match body with
    | [] => cases ha
    | .block b :: rest => cases ha
    | .attr c :: rest =>
      rw [replaceAttribute] at ha
      split at ha
      · obtain ⟨hhead, rfl⟩ := List.cons.inj ha
        cases hhead
        exact h.2 c rfl
      · obtain ⟨hhead, hrest⟩ := List.cons.inj ha
        cases hhead
        have hnil : rest = [] := by
          cases rest with
          | nil => rfl
          | cons s rest =>
            cases s with
            | block b => cases hrest
            | attr d =>
              rw [replaceAttribute] at hrest
              split at hrest <;> cases hrest
        exact h.2 a (by rw [hnil])

theorem reflow_shaped {indent : Trivia} (hindent : Skips false indent)
    (hbody : ∀ s ∈ body, s.Shaped) : ∀ s ∈ reflow indent body, s.Shaped := by
  intro s hs
  obtain ⟨t, ht, rfl⟩ := List.mem_map.1 hs
  cases t with
  | block b => exact hbody _ ht
  | attr a =>
    have ha := (hbody _ ht).of_attr
    refine .attr ⟨hindent.to_true, ha.name, ha.gap, ha.lead, fun t ht => ?_⟩
    cases ht
    exact .trivia .nil

/-! ## Inserting an attribute -/

variable {new : Attribute}

theorem insertAttribute_shaped (hnew : new.Shaped) (hbody : ∀ s ∈ body, s.Shaped) :
    ∀ s ∈ insertAttribute new body, s.Shaped := by
  obtain ⟨front, back, rfl, hinsert, -⟩ := insertAttribute_eq new body
  rw [hinsert]
  intro s hs
  rcases List.mem_append.1 hs with hs | hs
  · exact hbody s (List.mem_append_left _ hs)
  · rcases List.mem_cons.1 hs with rfl | hs
    · exact .attr hnew
    · exact hbody s (List.mem_append_right _ hs)

theorem insertAttribute_nodup (hnew : new.name ∉ namesOf body) (hbody : (namesOf body).Nodup) :
    (namesOf (insertAttribute new body)).Nodup := by
  obtain ⟨front, back, rfl, hinsert, -⟩ := insertAttribute_eq new body
  have hcons : namesOf (.attr new :: back) = new.name :: namesOf back := rfl
  rw [namesOf_append] at hnew hbody
  rw [hinsert, namesOf_append, hcons, List.perm_middle.nodup_iff]
  exact List.nodup_cons.2 ⟨hnew, hbody⟩

/-- An attribute that is alone in its body stands there without trivia of its own behind it. -/
theorem insertAttribute_layout (hbefore : Skips false new.before) (hafter : new.after = none)
    {old : List Structure} (h : layout.Shaped old) :
    layout.Shaped (insertAttribute new body) := by
  cases layout with
  | lines opening closing => exact h
  | oneLine blanks =>
    rw [shaped_oneLine_iff] at h ⊢
    refine ⟨h.1, fun a ha => ?_⟩
    obtain ⟨front, back, -, hinsert, -⟩ := insertAttribute_eq new body
    rw [hinsert] at ha
    have halone : front = [] := by
      cases front with
      | nil => rfl
      | cons s front => simp at ha
    rw [halone] at ha
    cases ha
    exact ⟨hbefore, fun t ht => by rw [hafter] at ht; cases ht⟩

end Bodies

/-- **Writing an attribute** keeps the shape of a block. -/
theorem setAttribute_shaped {b : Block} (hb : (Structure.block b).Shaped) {indent : Trivia}
    (hindent : Skips false indent) (oneLine : Bool) {name : String}
    (hname : Text.isIdentifier name = true) (e : Expr) :
    (Structure.block { b with body := setAttribute indent oneLine name e b.body }).Shaped := by
  cases hb with
  | block head layout distinct body =>
    have hhead : ∀ ss, Block.Headed { b with body := ss } := fun _ =>
      ⟨head.before, head.kind, head.gap, head.apart, head.labels, head.after⟩
    rw [distinct_iff] at distinct
    unfold setAttribute
    split
    · refine .block (hhead _) (replaceAttribute_layout e layout) ?_
        (replaceAttribute_shaped hname e body)
      rw [distinct_iff, namesOf_replaceAttribute]
      exact distinct
    · next hany =>
      have hnew : name ∉ namesOf b.body := by
        intro hmem
        obtain ⟨a, ha, heq⟩ := List.mem_map.1 hmem
        exact hany (List.any_eq_true.2 ⟨a, ha, beq_iff_eq.2 heq⟩)
      have hshaped : ∀ s ∈ if oneLine then reflow indent b.body else b.body, s.Shaped := by
        split
        · exact reflow_shaped hindent body
        · exact body
      have hnames : namesOf (if oneLine then reflow indent b.body else b.body) =
          namesOf b.body := by
        split
        · exact namesOf_reflow indent b.body
        · rfl
      refine .block (hhead _) (insertAttribute_layout hindent rfl layout) ?_
        (insertAttribute_shaped ⟨hindent.to_true, hname, .skip rfl .nil, .skip rfl .nil, nofun⟩
          hshaped)
      rw [distinct_iff]
      refine ⟨insertAttribute_nodup ?_ ?_, nofun⟩
      · rw [hnames]
        exact hnew
      · rw [hnames]
        exact distinct.1

/-! ## Files -/

theorem modifyNthBlock_shaped {f : Block → Block}
    (hf : ∀ b, (Structure.block b).Shaped → (Structure.block (f b)).Shaped) (n : Nat)
    {ss : List Structure} (hss : ∀ s ∈ ss, s.Shaped) : ∀ s ∈ modifyNthBlock f n ss, s.Shaped := by
  induction ss generalizing n with
  | nil => cases n <;> nofun
  | cons s rest ih =>
    rw [List.forall_mem_cons] at hss
    cases s with
    | attr a => exact List.forall_mem_cons.2 ⟨hss.1, ih n hss.2⟩
    | block b =>
      cases n with
      | zero => exact List.forall_mem_cons.2 ⟨hf b hss.1, hss.2⟩
      | succ n => exact List.forall_mem_cons.2 ⟨hss.1, ih n hss.2⟩

theorem indentFor_skips (f : ModuleFile) (b : Block) (name : String) :
    Skips false (f.indentFor b name) :=
  skips_of_all (indentFor_blank f b name)

/-- Writing keeps the shape of the document of a file. -/
theorem ModuleFile.shaped_write {f g : ModuleFile} (hf : f.document.Shaped) {h : BlockHandle}
    {key : ResourceKey} {name : String} {a : PatchAttribute} (hw : f.write h key name a = .ok g) :
    g.document.Shaped := by
  obtain ⟨b, e, -, -, hname, rfl⟩ := write_eq_ok hw
  refine ⟨modifyNthBlock_shaped (fun c hc => setAttribute_shaped hc (indentFor_skips f b name) _
    hname e) _ hf.structures, ?_, hf.closing, hf.unended⟩
  have hdistinct := hf.distinct
  rw [distinct_iff] at hdistinct ⊢
  rwa [show namesOf (f.put h b name e).document.structures = namesOf f.document.structures from
    namesOf_modifyNthBlock _ _ _]

/-- Documents of files keep their shape however often they are patched. -/
theorem Patched.shaped {files : ModuleFiles} (h : Patched files) :
    ∀ e ∈ files, e.2.document.Shaped :=
  Patched.every (P := fun f => f.document.Shaped)
    (fun hread => by
      obtain ⟨d, hd, rfl⟩ := ModuleFile.read_eq_ok hread
      exact Document.shaped_of_read? hd)
    (fun hf hw => ModuleFile.shaped_write hf hw) h

end HclOverlay
