import HclOverlay.Proofs.Build.Scheduling

/-!
# Spellings of a source

A source may be written with the host of its registry or without. What it is compared by is what is
left of it without the longest prefix, and this depends on the set of registries alone: of two
prefixes of one text, the longer one starts with the shorter. So sources fall into classes, a filter
stands for its class, and a build plans alike for all spellings of a filter.

* `Strips` — a source without the longest registry prefix it starts with; `Strips.unique`.
* `strips_normalize` — **what is compared**, by induction on the registries.
* `same_equivalence`, `callsOf_congr` — sources fall into classes, and calls are selected by class.
* `Patch.Respells`, `Schedule.edits` — patches up to their filters, and plans up to those of their
  patches; `edits_ofPatches` reads the plans off the deliveries.
* `spelling_is_irrelevant` — **spellings make no difference** to matching and to planning.
-/

namespace HclOverlay

namespace Registries

variable {registries registries' : Registries} {source rest rest' : String}

/-! ## The longest prefix -/

/-- What is left of a source without the longest registry prefix that it starts with. -/
inductive Strips (registries : Registries) (source : String) : String → Prop
  /-- every other prefix of the source is a prefix of the one that is taken off -/
  | off {p rest : String} (mem : p ∈ registries) (eq : source = p ++ rest)
    (longest : ∀ q ∈ registries, q.toList <+: source.toList → q.toList <+: p.toList) :
    Strips registries source rest
  /-- nothing is taken off a source that starts with no registry prefix -/
  | whole (none : ∀ q ∈ registries, ¬ q.toList <+: source.toList) :
    Strips registries source source

/-- Only one text is left. -/
theorem Strips.unique (h : Strips registries source rest) (h' : Strips registries source rest') :
    rest = rest' := by
  cases h with
  | whole hnone =>
    cases h' with
    | whole => rfl
    | off mem eq => exact absurd ⟨rest'.toList, by rw [eq, String.toList_append]⟩ (hnone _ mem)
  | @off p _ mem eq longest =>
    have hp : p.toList <+: source.toList := ⟨rest.toList, by rw [eq, String.toList_append]⟩
    cases h' with
    | whole hnone => exact absurd hp (hnone p mem)
    | @off p' _ mem' eq' longest' =>
      have hp' : p'.toList <+: source.toList := ⟨rest'.toList, by rw [eq', String.toList_append]⟩
      -- each of the two prefixes starts with the other one
      obtain rfl : p = p' := String.toList_inj.1
        ((longest' p mem hp).eq_of_length_le (longest p' mem' hp').length_le)
      exact String.append_right_inj p |>.1 (eq.symm.trans eq')

/-- Neither the order of the registries nor their repetitions count. -/
theorem Strips.congr (h : Strips registries source rest)
    (hmem : ∀ p, p ∈ registries ↔ p ∈ registries') : Strips registries' source rest := by
  cases h with
  | whole hnone => exact .whole fun q hq => hnone q ((hmem q).2 hq)
  | off mem eq longest =>
    exact .off ((hmem _).1 mem) eq fun q hq hprefix => longest q ((hmem q).2 hq) hprefix

theorem rest?_eq_some_iff {p cs r : List Char} : rest? p cs = some r ↔ cs = p ++ r := by
  induction p generalizing cs with
  | nil => exact Option.some_inj
  | cons c p ih =>
    cases cs with
    | nil => simp [rest?]
    | cons d cs =>
      rw [rest?, List.cons_append, List.cons.injEq]
      split
      · next h => rw [ih, and_iff_right h.symm]
      · next h => exact iff_of_false (by simp) fun heq => h heq.1.symm

/-- What is found is one of the rests or what the search started from, and none of them is
shorter. -/
theorem shortestRest_spec (source best : List Char) (registries : Registries) :
    (shortestRest source best registries = best ∨
      ∃ p ∈ registries, source = p.toList ++ shortestRest source best registries) ∧
    (shortestRest source best registries).length ≤ best.length ∧
    ∀ p ∈ registries, ∀ r, source = p.toList ++ r →
      (shortestRest source best registries).length ≤ r.length := by
  induction registries generalizing best with
  | nil => exact ⟨.inl rfl, le_rfl, fun p hp => absurd hp List.not_mem_nil⟩
  | cons p more ih =>
    rw [shortestRest]
    cases hrest : rest? p.toList source with
    | none =>
      obtain ⟨hfound, hbest, hleast⟩ := ih best
      refine ⟨hfound.imp_right fun ⟨q, hq, heq⟩ => ⟨q, List.mem_cons_of_mem p hq, heq⟩, hbest,
        List.forall_mem_cons.2 ⟨fun r hr => ?_, hleast⟩⟩
      rw [rest?_eq_some_iff.2 hr] at hrest
      cases hrest
    | some r =>
      have hsource := rest?_eq_some_iff.1 hrest
      obtain ⟨hfound, hbest, hleast⟩ := ih (if r.length < best.length then r else best)
      have hboth : (if r.length < best.length then r else best).length ≤ r.length ∧
          (if r.length < best.length then r else best).length ≤ best.length := by
        split <;> omega
      dsimp only
      refine ⟨?_, hbest.trans hboth.2, List.forall_mem_cons.2 ⟨fun r' hr' => ?_, hleast⟩⟩
      · rcases hfound with heq | ⟨q, hq, heq⟩
        · rw [heq]
          split
          · exact .inr ⟨p, List.mem_cons_self, hsource⟩
          · exact .inl rfl
        · exact .inr ⟨q, List.mem_cons_of_mem p hq, heq⟩
      · obtain rfl := List.append_cancel_left (hsource.symm.trans hr')
        exact hbest.trans hboth.1

/-- **What is compared** is the source without its longest registry prefix. -/
theorem strips_normalize (registries : Registries) (source : String) :
    Strips registries source (registries.normalize source) := by
  obtain ⟨hfound, -, hleast⟩ := shortestRest_spec source.toList source.toList registries
  by_cases hstarts : ∃ q ∈ registries, q.toList <+: source.toList
  · -- if the search ended with the whole source, the prefix is empty, and still the longest one
    obtain ⟨p, hp, heq⟩ : ∃ p ∈ registries, source.toList =
        p.toList ++ shortestRest source.toList source.toList registries := by
      rcases hfound with hwhole | hpart
      · obtain ⟨q, hq, r, hr⟩ := hstarts
        have hlength := hleast q hq r hr.symm
        rw [hwhole, ← hr, List.length_append] at hlength
        refine ⟨q, hq, ?_⟩
        rw [hwhole, List.length_eq_zero_iff.1 (show q.toList.length = 0 by omega),
          List.nil_append]
      · exact hpart
    refine .off hp ?_ fun q hq hprefix => ?_
    · rw [normalize, ← String.toList_inj, String.toList_append, String.toList_ofList]
      exact heq
    · obtain ⟨r, hr⟩ := hprefix
      have hlength := hleast q hq r hr.symm
      refine List.prefix_of_prefix_length_le ⟨r, hr⟩ ⟨_, heq.symm⟩ ?_
      have htotal := congrArg List.length (hr.trans heq)
      rw [List.length_append, List.length_append] at htotal
      omega
  · have hwhole : registries.normalize source = source := by
      rcases hfound with hwhole | ⟨p, hp, heq⟩
      · rw [normalize, hwhole, String.ofList_toList]
      · exact absurd ⟨p, hp, _, heq.symm⟩ hstarts
    rw [hwhole]
    exact .whole fun q hq hprefix => hstarts ⟨q, hq, hprefix⟩

theorem normalize_congr (h : ∀ p, p ∈ registries ↔ p ∈ registries') :
    registries.normalize source = registries'.normalize source :=
  ((strips_normalize registries source).congr h).unique (strips_normalize registries' source)

/-! ## Classes of sources -/

theorem same_equivalence (registries : Registries) :
    Equivalence fun a b => registries.same a b = true where
  refl _ := (Build.same_iff registries).2 rfl
  symm h := (Build.same_iff registries).2 ((Build.same_iff registries).1 h).symm
  trans h h' := (Build.same_iff registries).2
    (((Build.same_iff registries).1 h).trans ((Build.same_iff registries).1 h'))

/-- A filter selects what its class selects. -/
theorem callsOf_congr {f g : String} (h : registries.same f g = true) (calls : List ModuleCall) :
    registries.callsOf calls f = registries.callsOf calls g := by
  refine List.filter_congr fun call _ => ?_
  rw [Bool.eq_iff_iff, Build.same_iff, Build.same_iff, (Build.same_iff registries).1 h]

/-- Calls with the very source of a filter are selected. -/
theorem verbatim_sublist_callsOf (registries : Registries) (calls : List ModuleCall) (f : String) :
    (calls.filter (·.source == f)).Sublist (registries.callsOf calls f) := by
  refine List.monotone_filter_right calls fun call h => ?_
  rw [Registries.same, h, Bool.true_or]

end Registries

/-! ## Plans without filters -/

/-- What a patch changes, without its filter. -/
def Patch.edit (p : Patch) : Patch := { p with source := none }

/-- Patches that change the same, with filters that are spelled differently at most. -/
structure Patch.Respells (registries : Registries) (p q : Patch) : Prop where
  edit : p.edit = q.edit
  source : p.source = q.source ∨
    ∃ f g, p.source = some f ∧ q.source = some g ∧ registries.same f g = true

namespace Build

/-- The call of a plan, and what its patches change, in order. -/
def Plan.edits (plan : Plan) : ModuleCall × List Patch := (plan.call, plan.patches.map Patch.edit)

/-- The names, calls and changes of the plans of a schedule, in order. -/
def Schedule.edits (s : Schedule) : Table String (ModuleCall × List Patch) :=
  s.plans.map (Prod.map id Plan.edits)

variable {registries : Registries} {calls : List ModuleCall} {p q : Patch}
variable {patches patches' : List Patch}

/-- The plans are gathered from the deliveries, whose filters do not count. -/
theorem edits_ofPatches (registries : Registries) (calls : List ModuleCall)
    (patches : List Patch) : (Schedule.ofPatches registries calls patches).edits =
      Table.gather (·.2.name) (fun d => (d.2, [])) (fun d plan => (plan.1, plan.2 ++ [d.1]))
        ((deliveries registries calls patches).map (Prod.map Patch.edit id)) := by
  rw [Schedule.edits, ofPatches_eq]
  refine Table.map_gather _ _ _ _ _ ?key ?start ?change _
  case key => exact fun _ => rfl
  case start => exact fun _ => rfl
  case change =>
    intro d plan
    rw [Plan.edits, List.map_append]
    rfl

theorem selected_of_respells (h : p.Respells registries q) :
    selected registries calls p = selected registries calls q := by
  rcases h.source with hsource | ⟨f, g, hf, hg, hsame⟩
  · exact List.filter_congr fun call _ => by rw [selects, selects, hsource]
  · rw [selected_of_some hf, selected_of_some hg, Registries.callsOf_congr hsame]

/-- Respelling filters leaves the deliveries as they are, up to the filters. -/
theorem map_deliveries_of_respells (h : List.Forall₂ (Patch.Respells registries) patches patches') :
    (deliveries registries calls patches).map (Prod.map Patch.edit id) =
      (deliveries registries calls patches').map (Prod.map Patch.edit id) := by
  induction h with
  | nil => rfl
  | @cons p q _ _ hpq _ ih =>
    have hfirst : ((selected registries calls p).map (p, ·)).map (Prod.map Patch.edit id) =
        ((selected registries calls q).map (q, ·)).map (Prod.map Patch.edit id) := by
      rw [selected_of_respells hpq, List.map_map, List.map_map]
      exact List.map_congr_left fun call _ => Prod.ext hpq.edit rfl
    rw [deliveries, List.flatMap_cons, List.map_append, hfirst, ← deliveries, ih]
    rw [deliveries, deliveries, List.flatMap_cons, List.map_append]

/-- **Spellings make no difference.** A source is compared without the longest of the registry
prefixes it starts with, whatever their order and repetitions; by this, sources fall into classes.
A filter selects the calls of its class in order, among them those with its very text, and the plans
of patches do not change, except for the filters, when filters are spelled differently. -/
theorem spelling_is_irrelevant (registries : Registries) :
    (∀ registries' : Registries, (∀ p, p ∈ registries ↔ p ∈ registries') → ∀ source,
      registries.normalize source = registries'.normalize source) ∧
    (∀ source, registries.Strips source (registries.normalize source)) ∧
    (Equivalence fun a b => registries.same a b = true) ∧
    (∀ calls f g, registries.same f g = true →
      registries.callsOf calls f = registries.callsOf calls g) ∧
    (∀ calls f, (registries.callsOf calls f).Sublist calls ∧
      (calls.filter (·.source == f)).Sublist (registries.callsOf calls f) ∧
      ∀ call, callNamed? calls f = some call → call ∈ registries.callsOf calls f) ∧
    ∀ calls patches patches', List.Forall₂ (Patch.Respells registries) patches patches' →
      (Schedule.ofPatches registries calls patches).edits =
        (Schedule.ofPatches registries calls patches').edits := by
  refine ⟨fun _ h _ => Registries.normalize_congr h, Registries.strips_normalize registries,
    Registries.same_equivalence registries, fun calls f g h => Registries.callsOf_congr h calls,
    fun calls f => ?_, fun calls patches patches' h => ?_⟩
  · have hverbatim := Registries.verbatim_sublist_callsOf registries calls f
    refine ⟨List.filter_sublist, hverbatim, fun call hcall => hverbatim.subset ?_⟩
    rw [callNamed?] at hcall
    have hsource := List.find?_some hcall
    exact List.mem_filter.2 ⟨List.mem_of_find?_eq_some hcall, hsource⟩
  · rw [edits_ofPatches, edits_ofPatches, map_deliveries_of_respells h]

/-- A prefix that starts with another one, and the second patch with the host of its registry. -/
theorem spelling_is_irrelevant_mirror :
    let registries : Registries := ["r/", "r/m/"]
    let calls : List ModuleCall := [⟨"a", "x", ⟨"/a"⟩⟩, ⟨"b", "r/m/x", ⟨"/b"⟩⟩, ⟨"c", "r/x", ⟨"/c"⟩⟩]
    let patches : List Patch := [⟨"k", "w", some "./y", []⟩, ⟨"k", "v", some "r/x", []⟩]
    let patches' : List Patch := [⟨"k", "w", some "./y", []⟩, ⟨"k", "v", some "r/m/x", []⟩]
    registries.normalize "r/m/x" = Registries.normalize ["r/m/", "r/", "r/m/"] "r/m/x" ∧
      registries.Strips "r/m/x" "x" ∧ registries.same "r/x" "r/m/x" = true ∧
      (registries.callsOf calls "r/x").map (·.name) = ["a", "b", "c"] ∧
      (Schedule.ofPatches registries calls patches).edits =
        (Schedule.ofPatches registries calls patches').edits ∧
      (Schedule.ofPatches registries calls patches).edits.keys = ["a", "b", "c"] := by
  intro registries calls patches patches'
  obtain ⟨hperm, hstrips, hequiv, -, -, hplans⟩ := spelling_is_irrelevant registries
  have hsame : registries.same "r/x" "r/m/x" = true := by decide +kernel
  refine ⟨hperm _ (by simp [registries, or_comm]) _, ?_, hsame, by decide +kernel, ?_,
    by decide +kernel⟩
  · have hx := hstrips "r/m/x"
    rwa [show registries.normalize "r/m/x" = "x" by decide +kernel] at hx
  · refine hplans calls patches patches' (.cons ⟨rfl, .inl rfl⟩ (.cons ⟨rfl, .inr ?_⟩ .nil))
    exact ⟨"r/x", "r/m/x", rfl, rfl, hsame⟩

end Build

end HclOverlay
