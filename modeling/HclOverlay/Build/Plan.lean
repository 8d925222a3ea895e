import HclOverlay.Module.Source
import HclOverlay.Overlay.Patch

/-!
# Planning

Every patch goes to the module calls that its source filter selects. A plan gathers the patches of
one module by its name, in the order of the patches.

* `Plan` — a module with its patches.
* `Schedule` — the plans, and the patches that reach no module.
* `Schedule.ofPatches` — the schedule for some patches, with notices about those left out.
-/

namespace HclOverlay.Build

/-- The patches of one module. -/
structure Plan where
  call : ModuleCall
  patches : List Patch

/-- Which module gets which patches. -/
structure Schedule where
  /-- plans by the name of the module, in the order in which patches first reach them -/
  plans : Table String Plan
  /-- source filters that select no module, with the number of their patches -/
  unresolved : Table String Nat
  /-- how many patches have no source filter -/
  skipped : Nat

namespace Schedule

/-- The schedule of no patches. -/
def empty : Schedule := ⟨[], [], 0⟩

/-- Gives a patch to a module. -/
def give (patch : Patch) (plans : Table String Plan) (call : ModuleCall) : Table String Plan :=
  plans.modify call.name ⟨call, []⟩ fun plan => { plan with patches := plan.patches ++ [patch] }

/-- Schedules one more patch. -/
def add (registries : Registries) (calls : List ModuleCall) (s : Schedule) (patch : Patch) :
    Schedule :=
  match patch.source with
  | none => { s with skipped := s.skipped + 1 }
  | some filter =>
    match registries.callsOf calls filter with
    | [] => { s with unresolved := s.unresolved.modify filter 0 (· + 1) }
    | selected => { s with plans := selected.foldl (give patch) s.plans }

/-- The schedule for some patches. -/
def ofPatches (registries : Registries) (calls : List ModuleCall) (patches : List Patch) :
    Schedule :=
  patches.foldl (add registries calls) empty

/-- Notices about the patches that reach no module: first each patch without a source filter, then
each filter that selects nothing. -/
def notices (s : Schedule) (patches : List Patch) : List Notice :=
  (patches.filter (·.source.isNone)).map (fun p => .noSourceFilter p.key) ++
    s.unresolved.map fun (filter, count) => .unresolvedPatches filter count

end Schedule

end HclOverlay.Build
