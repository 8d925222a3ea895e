import HclOverlay.Manifest.Basic
import HclOverlay.Proofs.Json.Reading

/-!
# Reading printed manifests

A manifest that was printed is read again with the same modules in the same directories, if it is
read at all: its further members may hold numbers that are not.

* `Manifest.places` — which module lies where.
* `places_of_read?` — **a printed manifest** is read with its places.
-/

namespace HclOverlay.Manifest

open Json

/-- Which module lies where. -/
def places (m : Manifest) : List (String × String) := m.entries.map fun e => (e.key, e.dir)

theorem requiredText?_cons {name : String} {v : Json} {members : List (String × Json)} {s : String}
    (h : requiredText? name ((name, v) :: members) = some s) : v = .string s := by
  rw [requiredText?, valuesOf, List.filter_cons_of_pos (by simp), List.map_cons] at h
  split at h
  · next heq =>
    cases h
    exact (List.cons.inj heq).1
  · cases h

theorem requiredText?_skip {name other : String} (hne : other ≠ name) (v : Json)
    (members : List (String × Json)) :
    requiredText? name ((other, v) :: members) = requiredText? name members := by
  rw [requiredText?, requiredText?, valuesOf, valuesOf,
    List.filter_cons_of_neg (by simpa using hne)]

/-- An entry with the outline of a printed one. -/
theorem place_of_ofJson? {e found : Entry} {v : Json} (houtline : v.outline = e.toJson.outline)
    (h : Entry.ofJson? v = some found) : found.key = e.key ∧ found.dir = e.dir := by
  obtain ⟨members, rfl, hmembers⟩ := eq_object_of_outline houtline
  obtain ⟨key, more, rfl, hkey, hmore⟩ := eq_cons_of_outlineMembers hmembers
  obtain ⟨source, more, rfl, -, hmore⟩ := eq_cons_of_outlineMembers hmore
  obtain ⟨dir, more, rfl, hdir, -⟩ := eq_cons_of_outlineMembers hmore
  obtain rfl := eq_string_of_outline hkey
  obtain rfl := eq_string_of_outline hdir
  obtain ⟨foundKey, hfoundKey, h⟩ := Option.bind_eq_some_iff.1 h
  obtain ⟨foundSource, -, h⟩ := Option.bind_eq_some_iff.1 h
  obtain ⟨foundDir, hfoundDir, h⟩ := Option.bind_eq_some_iff.1 h
  cases h
  rw [requiredText?_skip (by decide), requiredText?_skip (by decide)] at hfoundDir
  exact ⟨(Json.string.inj (requiredText?_cons hfoundKey)).symm,
    (Json.string.inj (requiredText?_cons hfoundDir)).symm⟩

theorem places_of_mapM {entries found : List Entry} {items : List Json}
    (houtline : outlineItems items = outlineItems (entries.map Entry.toJson))
    (h : items.mapM Entry.ofJson? = some found) :
    found.map (fun e => (e.key, e.dir)) = entries.map fun e => (e.key, e.dir) := by
  induction entries generalizing items found with
  | nil =>
    cases items with
    | nil =>
      cases h
      rfl
    | cons => cases houtline
  | cons e entries ih =>
    obtain ⟨v, more, rfl, hv, hmore⟩ := eq_cons_of_outlineItems houtline
    rw [List.mapM_cons] at h
    obtain ⟨first, hfirst, h⟩ := Option.bind_eq_some_iff.1 h
    obtain ⟨rest, hrest, h⟩ := Option.bind_eq_some_iff.1 h
    cases h
    obtain ⟨hkey, hdir⟩ := place_of_ofJson? hv hfirst
    rw [List.map_cons, List.map_cons, hkey, hdir, ih hmore hrest]

/-- **A printed manifest** is read with its places. -/
theorem places_of_read? {m found : Manifest} (h : read? m.print = some found) :
    found.places = m.places := by
  rw [read?, print, String.toList_ofList] at h
  obtain ⟨v, hv, h⟩ := Option.bind_eq_some_iff.1 h
  obtain ⟨members, rfl, hmembers⟩ := eq_object_of_outline (outline_of_read? hv)
  obtain ⟨modules, more, rfl, hmodules, -⟩ := eq_cons_of_outlineMembers hmembers
  obtain ⟨items, rfl, hitems⟩ := eq_array_of_outline hmodules
  obtain ⟨entries, hentries, h⟩ := Option.bind_eq_some_iff.1 h
  cases h
  rw [entriesOf?, valuesOf, List.filter_cons_of_pos (by simp), List.map_cons] at hentries
  split at hentries
  · next heq => cases heq
  · next heq =>
    obtain ⟨hfound, -⟩ := List.cons.inj heq
    obtain rfl := Json.array.inj hfound
    exact places_of_mapM hitems hentries
  · cases hentries

end HclOverlay.Manifest
