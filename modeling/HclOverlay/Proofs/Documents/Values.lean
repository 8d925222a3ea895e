import HclOverlay.Proofs.Documents.Rereading
import HclOverlay.Proofs.Rendering.Reading

/-!
# Values of a document

* `Structure.values`, `Structure.labels` — the values and labels of a document, at any depth.
* `Follows.finishes` — no value goes on with what stands behind it.
-/

namespace HclOverlay.Hcl

open Reader

/-! ## All values and labels -/

mutual

/-- The values of the attributes of a structure and of the bodies in it. -/
def Structure.values : Structure → List Expr
  | .attr a => [a.value]
  | .block b => b.values
termination_by structural s => s

/-- The values of the attributes in a block. -/
def Block.values : Block → List Expr
  | ⟨_, _, _, _, _, body, _, _⟩ => valuesOf body
termination_by structural b => b

/-- The values of the attributes of structures, in order. -/
def valuesOf : List Structure → List Expr
  | [] => []
  | first :: rest => first.values ++ valuesOf rest
termination_by structural ss => ss

end

mutual

/-- The labels of the blocks in a structure. -/
def Structure.labels : Structure → List Label
  | .attr _ => []
  | .block b => b.allLabels
termination_by structural s => s

/-- The labels of a block and of the blocks in it. -/
def Block.allLabels : Block → List Label
  | ⟨_, _, _, labels, _, body, _, _⟩ => labels ++ labelsOf body
termination_by structural b => b

/-- The labels of the blocks among structures, in order. -/
def labelsOf : List Structure → List Label
  | [] => []
  | first :: rest => first.labels ++ labelsOf rest
termination_by structural ss => ss

end

variable {conv : List Char → List Char}

mutual

/-- A structure is read back if all its values and labels are. -/
theorem Structure.keptBy : (s : Structure) → (∀ e ∈ s.values, e.KeptBy conv) →
    (∀ l ∈ s.labels, l.Kept) → s.KeptBy conv
  | .attr a, hvalues, _ => .attr (hvalues a.value (List.mem_singleton_self _))
  | .block b, hvalues, hlabels => b.keptBy hvalues hlabels
termination_by structural s => s

theorem Block.keptBy : (b : Block) → (∀ e ∈ b.values, e.KeptBy conv) →
    (∀ l ∈ b.allLabels, l.Kept) → (Structure.block b).KeptBy conv
  | ⟨_, _, _, _, _, body, _, _⟩, hvalues, hlabels =>
    .block (fun l hl => hlabels l (List.mem_append_left _ hl))
      (keptBy_of_all body hvalues fun l hl => hlabels l (List.mem_append_right _ hl))
termination_by structural b => b

theorem keptBy_of_all : (ss : List Structure) → (∀ e ∈ valuesOf ss, e.KeptBy conv) →
    (∀ l ∈ labelsOf ss, l.Kept) → ∀ s ∈ ss, s.KeptBy conv
  | [], _, _ => nofun
  | first :: rest, hvalues, hlabels =>
    List.forall_mem_cons.2
      ⟨first.keptBy (fun e he => hvalues e (List.mem_append_left _ he))
          fun l hl => hlabels l (List.mem_append_left _ hl),
        keptBy_of_all rest (fun e he => hvalues e (List.mem_append_right _ he))
          fun l hl => hlabels l (List.mem_append_right _ hl)⟩
termination_by structural ss => ss

end

/-! ## What follows a value -/

/-- A text that starts with a comment or a line end, or is empty: nothing goes on there without
skipping it. -/
theorem continuesNothing_atLineEnd {rest : List Char} (h : AtLineEnd rest) :
    continuesNothing rest = true ∧ continuesCall rest = false ∧ Apart rest := by
  rcases h with rfl | h
  · exact ⟨rfl, rfl, nofun⟩
  · rcases startsLine_cases h with ⟨tail, rfl⟩ | ⟨tail, rfl⟩
    · exact ⟨rfl, rfl, apart_cons (by decide) (by decide)⟩
    · exact ⟨rfl, rfl, apart_cons (by decide) (by decide)⟩

theorem continuesNothing_comment {body : List Char} (h : lineComment? body = some (body, []))
    (rest : List Char) :
    continuesNothing (body ++ rest) = true ∧ continuesCall (body ++ rest) = false ∧
      Apart (body ++ rest) := by
  unfold lineComment? at h
  split at h
  · exact ⟨rfl, rfl, apart_cons (by decide) (by decide)⟩
  · exact ⟨rfl, rfl, apart_cons (by decide) (by decide)⟩
  · cases h

/-- Blanks set off what is in front of them. -/
theorem apart_blanks {t : Trivia} (ht : Skips false t) {y : List Char} (hy : Apart y) :
    Apart (t ++ y) := by
  intro c hc
  rcases head?_blanks ht hc with (rfl | rfl | rfl) | hc
  · decide
  · decide
  · decide
  · exact hy c hc

/-- What stands behind the value of an attribute does not go on with the value. -/
theorem Follows.finishes {rest : List Char} (h : Follows rest) : Value.Finishes rest := by
  cases h with
  | @line t rest ht hline hopens =>
    obtain ⟨w, mid, hwhite, hmid⟩ := hopens
    -- at the end of a line nothing goes on, whether or not a comment stands there
    have hstops : ∃ t' mid', blank (t ++ rest) = .ok (t', mid') ∧
        continuesNothing mid' = true ∧ continuesCall mid' = false ∧ Apart (t ++ rest) := by
      cases ht with
      | trivia ht =>
        obtain ⟨hnothing, hcall, hapart⟩ := continuesNothing_atLineEnd hline
        exact ⟨t, rest, ht.blank hline.ends, hnothing, hcall, apart_blanks ht hapart⟩
      | @comment t body ht hbody =>
        obtain ⟨hnothing, hcall, hapart⟩ := continuesNothing_comment hbody rest
        rw [List.append_assoc]
        exact ⟨t, body ++ rest, ht.blank (ends_comment hbody hline), hnothing, hcall,
          apart_blanks ht hapart⟩
    obtain ⟨t', mid', hblank, hnothing, hcall, hapart⟩ := hstops
    refine ⟨hapart, fun newlines => ?_⟩
    cases newlines with
    | false => exact ⟨t', mid', hblank, hnothing, hcall⟩
    | true =>
      refine ⟨t ++ w, mid, ht.white hline hwhite, ?_⟩
      cases mid with
      | nil => exact ⟨rfl, rfl⟩
      | cons c mid =>
        have hc : c ∉ Value.goingOn := by
          rcases hmid c rfl with hc | rfl
          · exact Value.not_mem_goingOn hc
          · decide
        exact ⟨Value.continuesNothing_of_not_mem hc, Value.continuesCall_of_not_mem hc⟩
  | @brace t ht rest =>
    have hbrace : '}' ∉ Value.goingOn := by decide
    refine ⟨apart_blanks ht (apart_cons (by decide) (by decide)), fun newlines => ?_⟩
    have hskips : Skips newlines t := by
      cases newlines with
      | false => exact ht
      | true => exact ht.to_true
    exact ⟨t, '}' :: rest, hskips.gap (ends_of_startsToken (by decide) newlines rest),
      Value.continuesNothing_of_not_mem hbrace, Value.continuesCall_of_not_mem hbrace⟩

/-! ## Plain values -/

/-- Whether an expression is the word `true`. -/
def Expr.isTrue : Expr → Bool
  | .bool true => true
  | _ => false

theorem Expr.keptBy_of_isTrue (hconv : ChangesEnds conv) {e : Expr} (h : e.isTrue = true) :
    e.KeptBy conv := by
  unfold isTrue at h
  split at h
  · intro rest hrest
    have htext : (Expr.bool true).print = ['t', 'r', 'u', 'e'] := rfl
    rw [htext, hconv.token (by decide) (by decide)]
    have hterm : term (exprWithin (['t', 'r', 'u', 'e'] ++ conv rest).length) .line
        (['t', 'r', 'u', 'e'] ++ conv rest) = .ok (.bool true, conv rest) :=
      Value.term_word ['t', 'r', 'u', 'e'] rfl hrest.finishes
    exact ⟨_, Value.exprStep_of_finishes hterm hrest.finishes, rfl⟩
  · cases h

theorem Label.kept_of_bare {l : Label} (h : l.quoted = false) : l.Kept := by
  intro hq
  rw [h] at hq
  cases hq

end HclOverlay.Hcl
