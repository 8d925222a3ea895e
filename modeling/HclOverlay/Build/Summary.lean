import HclOverlay.Build.Run

/-!
# Builds with a summary

`execute` runs a build and says how it went: a line for each module that was patched or failed, for
each filter without a module, and the counts that are not zero. A build with failed modules fails
after the summary, when everything that could be written has been written.
-/

namespace HclOverlay.Build

open Work

/-- The line for something counted, unless there is none of it. -/
def countLine (before : String) (count : Nat) (after : String) : List String :=
  if count = 0 then [] else [before ++ toString count ++ after]

/-- The lines that sum up a report. -/
def Report.summary (r : Report) : List String :=
  r.patched.map (fun (name, files) =>
      "Patched module " ++ name ++ " (" ++ toString files ++ " file(s))") ++
    r.failed.map (fun (name, failure) => "Failed module " ++ name ++ ": " ++ failure.message) ++
    r.unresolved.map (fun source => "Warning: no module found for source " ++ source) ++
    countLine "Skipped " r.skipped " patch(es) without a source" ++
    countLine "Updated " r.redirected " manifest entr(ies)"

/-- Runs a build and prints its summary. -/
def execute (here : Path) (args : Arguments) : Work Unit := do
  let report ← run here args
  say ""
  report.summary.forM say
  if !report.failed.isEmpty then throw (.modulesFailed report.failed.length)
  else if !report.patched.isEmpty then
    say "Build completed. Run 'plan' to see the changes."

end HclOverlay.Build
