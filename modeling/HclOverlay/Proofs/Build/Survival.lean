import HclOverlay.Proofs.Build.Redirects

/-!
# What the manifest keeps

The manifest belongs to another tool. A build may send modules to other directories in it, and must
lose nothing else: entries and their order, and members that it does not know, at the top and in each
entry. So the text that it writes has to be read as the very manifest that was written.

* `manifestOf_updateManifest` — the manifest after an update, from the text before it.
* `manifest_survives` — **manifests survive** the printer and an update, if their numbers are
  integers.
-/

namespace HclOverlay.Build

open Work FileTree HclOverlay.Path

variable {t t' : FileTree} {root : Path} {r : Manifest.Redirection} {text : String} {m : Manifest}

/-- After an update there is the redirected manifest, as it was printed or untouched. -/
theorem manifestOf_updateManifest (ht : t.Sound) (htext : t.readText (manifestPath root) = .ok text)
    (hm : Manifest.read? text = some m)
    (hprinted : Manifest.read? (r.manifest m).print = some (r.manifest m)) {n : Nat}
    (h : Does (updateManifest root r) t (.ok n) t') : ManifestOf root t' (r.manifest m) := by
  rcases does_updateManifest h with ⟨rfl, hsame⟩ | ⟨text', m', write, htext', hm', hwrite, hok⟩
  · obtain ⟨text', m', htext', hm', hcount⟩ := hsame n rfl
    cases htext.symm.trans htext'
    cases hm.symm.trans hm'
    rw [Manifest.manifest_of_count hcount]
    exact .of_readText ht htext hm
  · cases htext.symm.trans htext'
    cases hm.symm.trans hm'
    cases write with
    | error e => cases hok
    | ok done =>
      have hwrote : Confined (fun _ => True) (fun _ => False) t t' ∧
          (Except.ok done = .ok () → Wrote _ _ t t') := does_writeFile ht hwrite trivial
      refine ⟨_, _, ?_, fromUTF8?_toByteArray _, hprinted⟩
      rw [(hwrote.2 rfl).fileAt?, if_pos rfl]

/-- **Manifests survive.** A manifest text whose numbers are integers of 64 bits gives a manifest that
is read again from the text that is printed for it, whatever was redirected in it, and this is the
manifest that an update leaves behind. -/
theorem manifest_survives {text : String} {m : Manifest} (hm : Manifest.read? text = some m)
    (hwhole : ∀ v, Json.read? text.toList = some v → v.isWhole = true)
    (r : Manifest.Redirection) :
    Manifest.read? (r.manifest m).print = some (r.manifest m) ∧
      ∀ (root : Path) (t t' : FileTree) (n : Nat), t.Sound →
        t.readText (manifestPath root) = .ok text → Does (updateManifest root r) t (.ok n) t' →
          ManifestOf root t' (r.manifest m) := by
  have hprinted := Manifest.read?_print_manifest hm hwhole r
  refine ⟨hprinted, fun root t t' n ht htext h => ?_⟩
  exact manifestOf_updateManifest ht htext hm hprinted h

/-- Nested members, escapes, a repeated name and a missing source; one of two modules moves. -/
theorem manifest_survives_foreign :
    let text := "\x7b\"n\": \x7b\"k\": [-12, [], \x7b\x7d, null]\x7d, \"Modules\": [" ++
      "\x7b\"Dir\": \".\", \"Key\": \"\"\x7d, \x7b\"Key\": \"m\", \"Dir\": \"m\", " ++
      "\"x\": 1, \"x\": \"\\\"\\u0001\\\\é\"\x7d], \"u\": 18446744073709551615\x7d"
    let t : FileTree := ⟨[(["r"], .directory), (["r", ".terraform"], .directory),
      (["r", ".terraform", "modules"], .directory),
      (["r", ".terraform", "modules", "modules.json"], .file text.toByteArray)]⟩
    let r : Manifest.Redirection := ⟨⟨"out"⟩, ["m"], []⟩
    let final := (outcome (updateManifest ⟨"/r"⟩ r) ⟨t, [], []⟩).2.tree
    ∃ m, Manifest.read? text = some m ∧ m.places = [("", "."), ("m", "m")] ∧
      (r.manifest m).places = [("", "."), ("m", "out/m")] ∧
      Manifest.read? (r.manifest m).print = some (r.manifest m) ∧
      ManifestOf ⟨"/r"⟩ final (r.manifest m) := by
  intro text t r final
  have hs : t.Sound := by decide +kernel
  obtain ⟨_, htext, rfl⟩ : ∃ s, t.readText (manifestPath ⟨"/r"⟩) = .ok s ∧ s = text :=
    exists_ok (by decide +kernel)
  obtain ⟨hread, hwhole, hupdated⟩ :
      (Manifest.read? text).map (fun m => (m.places, (r.manifest m).places)) =
        some ([("", "."), ("m", "m")], [("", "."), ("m", "out/m")]) ∧
      (Json.read? text.toList).all Json.isWhole = true ∧
      (outcome (updateManifest ⟨"/r"⟩ r) ⟨t, [], []⟩).1.toOption.map id = some 1 := by
    decide +kernel
  obtain ⟨m, hm, hplaces⟩ := Option.map_eq_some_iff.1 hread
  obtain ⟨hplaces, hmoved⟩ := Prod.mk.inj hplaces
  obtain ⟨n, hdoes, -⟩ := exists_ok hupdated
  obtain ⟨hprinted, hupdate⟩ := manifest_survives hm ((Option.all_eq_true _ _).1 hwhole) r
  refine ⟨m, hm, hplaces, hmoved, hprinted, hupdate ⟨"/r"⟩ t final n hs htext ?_⟩
  exact hdoes ▸ does_outcome (updateManifest ⟨"/r"⟩ r) ⟨t, [], []⟩

end HclOverlay.Build
