import HclOverlay.Proofs.Build.Redirects
import HclOverlay.Proofs.Manifest.Redirecting

/-!
# Updating the manifest

The manifest is read, redirected and, if anything has changed, written in the place of the old one.
Writing over a file that was read cannot fail, and it moves nothing, so the path leads to the file
that was written. What is written is the manifest with other directories and nothing else changed;
what is read from it again is the same up to the floats, which the text may not bring back.

* `resolve_put_file`, `readText_put_file` — looking after a file was overwritten.
* `outcome_updateManifest` — **how an update ends**, from what was read.
* `redirection_is_exact` — **what an update changes**, and that a second one changes nothing.
-/

namespace HclOverlay.Build

open Work FileTree HclOverlay.Path

/-! ## Overwriting a file -/

section Overwriting

variable {t : FileTree} {l : Location} {old bytes : ByteArray}

theorem ne_nil_of_file (h : t.lookup? l = some (.file old)) : l ≠ [] := by
  rintro rfl
  cases h

/-- Directories are where they were. -/
theorem step_put_file (h : t.lookup? l = some (.file old)) :
    (t.put l (.file bytes)).step = t.step := by
  funext k part
  rw [step, step, lookup?_put (ne_nil_of_file h)]
  by_cases hk : k = l
  · rw [if_pos hk, hk, h]
  · rw [if_neg hk]

theorem resolve_put_file (h : t.lookup? l = some (.file old)) (p : Path) :
    (t.put l (.file bytes)).resolve p = t.resolve p := by
  simp only [resolve, follow, step_put_file h]

end Overwriting

variable {t : FileTree} {p : Path} {text : String}

theorem lookup?_of_readText (ht : t.Sound) (h : t.readText p = .ok text) :
    t.resolve p = .ok p.location ∧ ∃ bytes, t.lookup? p.location = some (.file bytes) := by
  obtain ⟨bytes, hbytes, -⟩ := except_bind_eq_ok h
  obtain ⟨n, hp, hbytes⟩ := except_bind_eq_ok hbytes
  obtain ⟨hresolve, hl⟩ := stat_eq_ok ht hp
  cases n with
  | directory => cases hbytes
  | file found => exact ⟨hresolve, found, hl⟩

/-- A text that was written over a file is read. -/
theorem readText_put_file (ht : t.Sound) (h : t.readText p = .ok text) (new : String) :
    (t.put p.location (.file new.toByteArray)).readText p = .ok new := by
  obtain ⟨hresolve, bytes, hl⟩ := lookup?_of_readText ht h
  have hstat : (t.put p.location (.file new.toByteArray)).stat p = .ok (.file new.toByteArray) := by
    rw [stat_of_resolve ((resolve_put_file hl p).trans hresolve),
      lookup?_put_self _ _ (ne_nil_of_file hl)]
  have hbytes : (t.put p.location (.file new.toByteArray)).readBytes p = .ok new.toByteArray := by
    rw [readBytes, hstat]
    rfl
  rw [FileTree.readText, hbytes, except_bind_ok, fromUTF8?_toByteArray]
  rfl

/-! ## Updates -/

/-- A session in which a file was overwritten. -/
def overwrite (s : Session) (p : Path) (text : String) : Session :=
  let node : Node := .file text.toByteArray
  { s with tree := s.tree.put p.location node }

variable {s : Session}

theorem outcome_writeFile (hs : s.tree.Sound) (h : s.tree.readText p = .ok text) (new : String) :
    outcome (onFile p (writeFile p new.toByteArray)) s = (.ok (), overwrite s p new) := by
  obtain ⟨hresolve, old, hl⟩ := lookup?_of_readText hs h
  have hrun : (writeFile p new.toByteArray).run s.tree =
      (.ok (), s.tree.put p.location (.file new.toByteArray)) := by
    show outcome (writeFile p new.toByteArray) s.tree = _
    simp only [writeFile, outcome_bind, outcome_get, hresolve, outcome_lift, hl, outcome_set]
  simp only [onFile, outcome_bind, outcome_get, hrun, outcome_set]
  rfl

theorem outcome_readText (h : s.tree.readText p = .ok text) :
    outcome (Work.readText p) s = (.ok text, s) := by
  have htree : outcome tree s = (.ok s.tree, s) := rfl
  simp only [Work.readText, look, outcome_bind, htree, h]
  rfl

variable {root : Path} {m : Manifest}

/-- **An update** of a manifest that can be read ends well; it writes if anything has changed. -/
theorem outcome_updateManifest (hs : s.tree.Sound)
    (htext : s.tree.readText (manifestPath root) = .ok text) (hm : Manifest.read? text = some m)
    (r : Manifest.Redirection) :
    outcome (updateManifest root r) s = (.ok (r.count m),
      if r.count m = 0 then s else overwrite s (manifestPath root) (r.manifest m).print) := by
  obtain ⟨hresolve, bytes, hl⟩ := lookup?_of_readText hs htext
  have hthere : s.tree.there (manifestPath root) = true := (there_iff hs).2 ⟨hresolve, _, hl⟩
  have htree : outcome tree s = (.ok s.tree, s) := rfl
  simp only [updateManifest, outcome_bind, htree, hthere, Bool.not_true, Bool.false_eq_true,
    if_false, outcome_readText htext, hm]
  by_cases hcount : r.count m = 0
  · rw [if_pos hcount, if_neg (not_not.2 hcount)]
    rfl
  · rw [if_neg hcount, if_pos hcount, outcome_bind, outcome_writeFile hs htext]
    rfl

theorem sound_overwrite (hs : s.tree.Sound) (h : s.tree.readText p = .ok text) (new : String) :
    (overwrite s p new).tree.Sound := by
  obtain ⟨hresolve, old, hl⟩ := lookup?_of_readText hs h
  have hfile : s.tree.lookup? p.location ≠ some .directory := by
    rw [hl]
    nofun
  exact hs.put (resolve_location hs hresolve).2 hfile _

/-- **Redirection is exact.** An update of a manifest that can be read ends with the number of
entries that have another directory than before, by the rules, and nothing else of the manifest is
changed. If there are none, nothing is written; otherwise this manifest is printed over the old one,
and it is read from there up to its floats, or as it is if all that was read before is read from its
own text as itself. A second update changes nothing. -/
theorem redirection_is_exact (hs : s.tree.Sound)
    (htext : s.tree.readText (manifestPath root) = .ok text) (hm : Manifest.read? text = some m)
    (r : Manifest.Redirection) :
    let first := outcome (updateManifest root r) s
    let second := outcome (updateManifest root r) first.2
    ∃ (m' : Manifest) (n : Nat) (text' : String),
      List.Forall₂ r.Directs m.entries m'.entries ∧ m'.others = m.others ∧
      n = (m.entries.zip m'.entries).countP (fun e => e.2.dir != e.1.dir) ∧
      first.1 = .ok n ∧ first.2.tree.readText (manifestPath root) = .ok text' ∧
      (n = 0 → first.2 = s) ∧
      (n ≠ 0 → text' = m'.print ∧ Manifest.read? text' = some m'.echo ∧
        ∀ l, l ≠ (manifestPath root).location → first.2.tree.lookup? l = s.tree.lookup? l) ∧
      ((∀ v, Json.read? text.toList = some v → v.echo = v) → Manifest.read? text' = some m') ∧
      second = (.ok 0, first.2) := by
  intro first second
  have hfirst := outcome_updateManifest hs htext hm r
  have hdirects := (r.directs_manifest m).2 rfl
  by_cases hcount : r.count m = 0
  · rw [if_pos hcount, hcount] at hfirst
    -- nothing changes, so nothing is written
    have hsame : r.manifest m = m := Manifest.manifest_of_count hcount
    have hstays : first.2 = s := congrArg Prod.snd hfirst
    refine ⟨r.manifest m, 0, text, hdirects, rfl, hcount.symm.trans (r.count_eq m),
      congrArg Prod.fst hfirst, by rw [hstays, htext], fun _ => hstays, fun h => absurd rfl h,
      fun _ => by rw [hm, hsame], ?_⟩
    show outcome (updateManifest root r) first.2 = _
    rw [hstays]
    exact hfirst
  · rw [if_neg hcount] at hfirst
    have hwritten : first.2 = overwrite s (manifestPath root) (r.manifest m).print :=
      congrArg Prod.snd hfirst
    have htext' : first.2.tree.readText (manifestPath root) = .ok (r.manifest m).print := by
      rw [hwritten]
      exact readText_put_file hs htext _
    have hread := ((Manifest.faithful_of_read? hm).manifest r).read?_print
    refine ⟨r.manifest m, r.count m, (r.manifest m).print, hdirects, rfl, r.count_eq m,
      congrArg Prod.fst hfirst, htext', fun h => absurd h hcount, fun _ => ⟨rfl, hread, ?_⟩, ?_, ?_⟩
    · intro l hl
      rw [hwritten]
      exact lookup?_put_of_ne _ _ hl
    · intro hecho
      rw [hread, ((Manifest.steady_of_read? hm hecho).manifest r).echo_eq]
    · -- the second update finds every entry where the rules want it
      have hsound : first.2.tree.Sound := by
        rw [hwritten]
        exact sound_overwrite hs htext _
      have hsecond := outcome_updateManifest hsound htext' hread r
      rwa [r.count_echo_manifest m, if_pos rfl] at hsecond

/-- A module moves to its copy, another one back, and a float drifts: it is neither printed as it
was written nor read as it is printed. -/
theorem redirection_is_exact_float :
    let text := "\x7b\"Modules\": [\x7b\"Key\": \"m\", \"Dir\": \"m\", \"w\": 1e-28\x7d, " ++
      "\x7b\"Key\": \"n\", \"Dir\": \"out/n\"\x7d]\x7d"
    let printed (weight : String) := "\x7b\n  \"Modules\": [\n    \x7b\n      \"Key\": \"m\",\n" ++
      "      \"Source\": \"\",\n      \"Dir\": \"out/m\",\n      \"w\": " ++ weight ++
      "\n    \x7d,\n    \x7b\n      \"Key\": \"n\",\n      \"Source\": \"\",\n" ++
      "      \"Dir\": \"n\"\n    \x7d\n  ]\n\x7d\n"
    let s : Session := ⟨⟨[(["r"], .directory), (["r", ".terraform"], .directory),
      (["r", ".terraform", "modules"], .directory),
      (["r", ".terraform", "modules", "modules.json"], .file text.toByteArray)]⟩, [], []⟩
    let r : Manifest.Redirection := ⟨⟨"out"⟩, ["m"], [("n", "n"), ("n", "elsewhere")]⟩
    let first := outcome (updateManifest ⟨"/r"⟩ r) s
    first.1 = .ok 2 ∧
      first.2.tree.readText (manifestPath ⟨"/r"⟩) = .ok (printed "1.0000000000000001e-28") ∧
      (Manifest.read? (printed "1.0000000000000001e-28")).map Manifest.print =
        some (printed "9.999999999999999e-29") ∧
      outcome (updateManifest ⟨"/r"⟩ r) first.2 = (.ok 0, first.2) := by
  intro text printed s r first
  have hs : s.tree.Sound := by decide +kernel
  obtain ⟨_, htext, rfl⟩ :
      ∃ found, s.tree.readText (manifestPath ⟨"/r"⟩) = .ok found ∧ found = text :=
    exists_ok (by decide +kernel)
  obtain ⟨hread, hagain⟩ :
      (Manifest.read? text).map (fun m => (r.count m, (r.manifest m).print)) =
        some (2, printed "1.0000000000000001e-28") ∧
      (Manifest.read? (printed "1.0000000000000001e-28")).map Manifest.print =
        some (printed "9.999999999999999e-29") := by
    decide +kernel
  obtain ⟨m, hm, hprinted⟩ := Option.map_eq_some_iff.1 hread
  obtain ⟨hcount, hprint⟩ := Prod.mk.inj hprinted
  obtain ⟨⟨entries, others⟩, n, text', hdirects, hothers, hn, hfirst, htext', -, hchanged, -,
    hsecond⟩ := redirection_is_exact hs htext hm r
  -- the rules leave no choice, so this is the manifest that was evaluated
  obtain rfl := (r.directs_manifest m).1 hdirects
  obtain rfl : others = m.others := hothers
  rw [← r.count_eq m, hcount] at hn
  obtain rfl := hn
  rw [(hchanged (by decide)).1] at htext'
  exact ⟨hfirst, htext'.trans (congrArg Except.ok hprint), hagain, hsecond⟩

end HclOverlay.Build
