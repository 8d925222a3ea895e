import HclOverlay.Manifest.Redirection
import HclOverlay.Proofs.Json.Printed
import HclOverlay.Proofs.Tables

/-!
# Manifests that were rewritten

A manifest is shared with the tool that installs modules, so what is written back has to be all that
was there. What another tool put into it is read into members that mean nothing here, and these have
the same form when they are read a second time: no name comes twice, and no name has a meaning. Only
the floats among them may be read as others from the text that is printed for them.

* `Json.Distinct` — no object has a name twice; merging is idempotent because its results are so.
* `Foreign` — members that mean nothing here and can be printed and read again.
* `Entry.ofJson?_toJson`, `ofJson?_toJson` — **a manifest from its own JSON**.
* `echo` — a manifest as it is read from its own text, and `echo_manifest` with other directories.
* `Faithful`, `faithful_of_read?`, `read?_print` — a manifest that was read **from its own text**.
* `read?_print_manifest` — where all numbers are integers, this is the same manifest, whatever
  directories a redirection sets.
-/

namespace HclOverlay

/-! ## Merged values -/

namespace Json

/-- No object has a name twice, at any depth. -/
inductive Distinct : Json → Prop
  | null : Distinct .null
  | bool (b : Bool) : Distinct (.bool b)
  | number (n : Numeral) : Distinct (.number n)
  | string (s : String) : Distinct (.string s)
  | array {items : List Json} (h : ∀ v ∈ items, Distinct v) : Distinct (.array items)
  | object {members : List (String × Json)} (nodup : (Table.keys members).Nodup)
      (h : ∀ m ∈ members, Distinct m.2) : Distinct (.object members)

theorem mergedItems_eq_map (items : List Json) : mergedItems items = items.map merged := by
  induction items with
  | nil => rfl
  | cons item items ih => rw [mergedItems, ih, List.map_cons]

theorem mergedMembers_eq_map (members : List (String × Json)) :
    mergedMembers members = members.map fun m => (m.1, merged m.2) := by
  induction members with
  | nil => rfl
  | cons m members ih => rw [mergedMembers, ih, List.map_cons, mergedMember]

theorem distinct_ofEntries {members : List (String × Json)} (h : ∀ m ∈ members, m.2.Distinct) :
    Distinct (.object (Table.ofEntries members)) :=
  .object (Table.nodup_keys_ofEntries members) fun m hm => h m (Table.mem_of_mem_ofEntries hm)

mutual

theorem distinct_merged : ∀ v : Json, (merged v).Distinct
  | .null => .null
  | .bool b => .bool b
  | .number n => .number n
  | .string s => .string s
  | .array items => .array (distinct_mergedItems items)
  | .object members => distinct_ofEntries (distinct_mergedMembers members)
termination_by structural v => v

theorem distinct_mergedItems : ∀ items : List Json, ∀ v ∈ mergedItems items, v.Distinct
  | [] => nofun
  | item :: rest => List.forall_mem_cons.2 ⟨distinct_merged item, distinct_mergedItems rest⟩
termination_by structural items => items

theorem distinct_mergedMembers :
    ∀ members : List (String × Json), ∀ m ∈ mergedMembers members, m.2.Distinct
  | [] => nofun
  | m :: rest => List.forall_mem_cons.2 ⟨distinct_mergedMember m, distinct_mergedMembers rest⟩
termination_by structural members => members

theorem distinct_mergedMember : ∀ m : String × Json, (mergedMember m).2.Distinct
  | (_, v) => distinct_merged v
termination_by structural m => m

end

theorem mergedMembers_eq_self {members : List (String × Json)}
    (h : ∀ m ∈ members, merged m.2 = m.2) : mergedMembers members = members := by
  rw [mergedMembers_eq_map]
  have hid : ∀ m ∈ members, (m.1, merged m.2) = id m := fun m hm => Prod.ext rfl (h m hm)
  exact (List.map_congr_left hid).trans (List.map_id members)

/-- Where no name comes twice, there is nothing to merge. -/
theorem merged_of_distinct {v : Json} (h : v.Distinct) : v.merged = v := by
  induction h with
  | null | bool | number | string => rfl
  | array h ih =>
    rw [merged, mergedItems_eq_map]
    exact congrArg Json.array ((List.map_congr_left ih).trans (List.map_id _))
  | object nodup h ih =>
    rw [merged, mergedMembers_eq_self ih, Table.ofEntries_of_nodup nodup]

/-- Names stay where they are when a value is read from its text. -/
theorem keys_echoMembers (members : List (String × Json)) :
    Table.keys (echoMembers members) = Table.keys members := by
  rw [echoMembers_eq_map, Table.keys, List.map_map]
  rfl

theorem Distinct.echo {v : Json} (h : v.Distinct) : v.echo.Distinct := by
  induction h with
  | null => exact .null
  | bool b => exact .bool b
  | number n => exact .number n.echo
  | string s => exact .string s
  | array _ ih =>
    rw [Json.echo, echoItems_eq_map]
    exact .array (List.forall_mem_map.2 ih)
  | object nodup _ ih =>
    rw [Json.echo]
    refine .object (by rwa [keys_echoMembers]) ?_
    rw [echoMembers_eq_map]
    exact List.forall_mem_map.2 ih

variable {P : Numeral → Prop}

/-- Merging takes nothing in and nests nothing deeper. -/
theorem Legible.merged {depth : Nat} {v : Json} (h : Legible P depth v) :
    Legible P depth v.merged := by
  induction h with
  | null => exact .null
  | bool b => exact .bool b
  | number h => exact .number h
  | string s => exact .string s
  | array h ih =>
    rw [Json.merged, mergedItems_eq_map]
    refine .array fun v hv => ?_
    obtain ⟨w, hw, rfl⟩ := List.mem_map.1 hv
    exact ih w hw
  | object h ih =>
    rw [Json.merged, mergedMembers_eq_map]
    refine .object fun m hm => ?_
    obtain ⟨m', hm', rfl⟩ := List.mem_map.1 (Table.mem_of_mem_ofEntries hm)
    exact ih m' hm'

theorem Legible.items {depth : Nat} {items : List Json}
    (h : Legible P (depth + 1) (.array items)) : ∀ v ∈ items, Legible P depth v := by
  cases h with
  | array h => exact h

theorem Legible.members {depth : Nat} {members : List (String × Json)}
    (h : Legible P (depth + 1) (.object members)) : ∀ m ∈ members, Legible P depth m.2 := by
  cases h with
  | object h => exact h

end Json

namespace Manifest

open Json

/-! ## Foreign members -/

/-- Members that mean nothing here, as they are kept: none has one of the names that mean something,
no name comes twice, and all of it can be read again, with numbers of a certain kind. -/
structure Foreign (P : Numeral → Prop) (names : List String) (depth : Nat)
    (members : List (String × Json)) : Prop where
  other : ∀ m ∈ members, m.1 ∉ names
  nodup : (Table.keys members).Nodup
  distinct : ∀ m ∈ members, m.2.Distinct
  legible : ∀ m ∈ members, Legible P depth m.2

variable {P : Numeral → Prop} {names : List String} {depth : Nat}
  {members known others : List (String × Json)}

/-- What is kept of the members of an object is foreign. -/
theorem foreign_othersThan (h : ∀ m ∈ members, Legible P depth m.2) :
    Foreign P names depth (othersThan names members) := by
  have hmem : ∀ m ∈ othersThan names members,
      ∃ m' ∈ members, m'.1 ∉ names ∧ m = (m'.1, m'.2.merged) := by
    intro m hm
    have hm := Table.mem_of_mem_ofEntries hm
    rw [mergedMembers_eq_map] at hm
    obtain ⟨m', hm', rfl⟩ := List.mem_map.1 hm
    obtain ⟨hm', hname⟩ := List.mem_filter.1 hm'
    exact ⟨m', hm', by simpa using hname, rfl⟩
  constructor
  · intro m hm
    obtain ⟨m', -, hname, rfl⟩ := hmem m hm
    exact hname
  · exact Table.nodup_keys_ofEntries _
  · intro m hm
    obtain ⟨m', -, -, rfl⟩ := hmem m hm
    exact distinct_merged m'.2
  · intro m hm
    obtain ⟨m', hm', -, rfl⟩ := hmem m hm
    exact (h m' hm').merged

/-- Foreign members are kept as they are, and nothing else is. -/
theorem Foreign.othersThan_append (h : Foreign P names depth others)
    (hknown : ∀ m ∈ known, m.1 ∈ names) : othersThan names (known ++ others) = others := by
  have hfilter : (known ++ others).filter (fun m => !names.contains m.1) = others := by
    rw [List.filter_append, List.filter_eq_nil_iff.2, List.filter_eq_self.2, List.nil_append]
    · intro m hm
      simpa using h.other m hm
    · intro m hm
      simpa using hknown m hm
  have hmerged : mergedMembers others = others :=
    mergedMembers_eq_self fun m hm => merged_of_distinct (h.distinct m hm)
  rw [othersThan, hfilter, hmerged, Table.ofEntries_of_nodup h.nodup]

/-- A name with a meaning is not looked for among foreign members. -/
theorem Foreign.valuesOf_append (h : Foreign P names depth others) {name : String}
    (hname : name ∈ names) (known : List (String × Json)) :
    valuesOf name (known ++ others) = valuesOf name known := by
  have hfilter : others.filter (·.1 == name) = [] := by
    refine List.filter_eq_nil_iff.2 fun m hm heq => h.other m hm ?_
    rwa [eq_of_beq heq]
  rw [valuesOf, List.filter_append, hfilter, List.append_nil, valuesOf]

/-- Foreign members are foreign when they are read from their text. -/
theorem Foreign.echo (h : Foreign Numeral.Read names depth members) :
    Foreign Numeral.Read names depth (echoMembers members) := by
  have hnodup : (Table.keys (echoMembers members)).Nodup := by
    rw [keys_echoMembers]
    exact h.nodup
  refine ⟨?_, hnodup, ?_, ?_⟩ <;> rw [echoMembers_eq_map, List.forall_mem_map]
  · exact h.other
  · exact fun m hm => (h.distinct m hm).echo
  · exact fun m hm => (h.legible m hm).echo

theorem Foreign.echo_eq (h : Foreign Numeral.Steady names depth members) :
    echoMembers members = members := by
  rw [echoMembers_eq_map]
  have hid : ∀ m ∈ members, (m.1, m.2.echo) = id m := fun m hm =>
    Prod.ext rfl (h.legible m hm).echo_eq
  exact (List.map_congr_left hid).trans (List.map_id members)

/-! ## Entries and manifests -/

/-- **An entry from its own JSON.** -/
theorem Entry.ofJson?_toJson {e : Entry} (h : Foreign P entryNames depth e.others) :
    Entry.ofJson? e.toJson = some e := by
  let known : List (String × Json) :=
    [("Key", .string e.key), ("Source", .string e.source), ("Dir", .string e.dir)]
  have hknown : othersThan entryNames (known ++ e.others) = e.others :=
    h.othersThan_append (by simp [known, entryNames])
  have hkey : valuesOf "Key" (known ++ e.others) = [.string e.key] :=
    h.valuesOf_append (by decide) known
  have hsource : valuesOf "Source" (known ++ e.others) = [.string e.source] :=
    h.valuesOf_append (by decide) known
  have hdir : valuesOf "Dir" (known ++ e.others) = [.string e.dir] :=
    h.valuesOf_append (by decide) known
  have hjson : e.toJson = .object (known ++ e.others) := rfl
  simp [hjson, Entry.ofJson?, requiredText?, optionalText?, hkey, hsource, hdir, hknown]

/-- Entries are read one by one. -/
theorem mapM_ofJson?_toJson {entries : List Entry}
    (h : ∀ e ∈ entries, Foreign P entryNames depth e.others) :
    (entries.map Entry.toJson).mapM Entry.ofJson? = some entries := by
  induction entries with
  | nil => rfl
  | cons e entries ih =>
    obtain ⟨he, hentries⟩ := List.forall_mem_cons.1 h
    rw [List.map_cons, List.mapM_cons, Entry.ofJson?_toJson he, ih hentries]
    rfl

/-- A manifest of which everything is read again: its foreign members nest no deeper than the reader
goes at the place where they stand. -/
structure Faithful (P : Numeral → Prop) (m : Manifest) : Prop where
  others : Foreign P [entriesName] 126 m.others
  entries : ∀ e ∈ m.entries, Foreign P entryNames 124 e.others

variable {m : Manifest}

/-- **A manifest from its own JSON.** -/
theorem Faithful.ofJson?_toJson (h : m.Faithful P) : ofJson? m.toJson = some m := by
  let known : List (String × Json) := [(entriesName, .array (m.entries.map Entry.toJson))]
  have hknown : othersThan [entriesName] (known ++ m.others) = m.others :=
    h.others.othersThan_append (by simp [known])
  have hentries : valuesOf entriesName (known ++ m.others) =
      [.array (m.entries.map Entry.toJson)] :=
    h.others.valuesOf_append (by decide) known
  have hjson : m.toJson = .object (known ++ m.others) := rfl
  simp [hjson, ofJson?, entriesOf?, hentries, hknown, mapM_ofJson?_toJson h.entries]

theorem Faithful.legible_toJson (h : m.Faithful Numeral.Read) :
    Legible Numeral.Read depthLimit m.toJson := by
  have hentry : ∀ e ∈ m.entries, Legible Numeral.Read (124 + 1) e.toJson := by
    intro e he
    refine .object (List.forall_mem_cons.2 ⟨.string _, List.forall_mem_cons.2 ⟨.string _, ?_⟩⟩)
    exact List.forall_mem_cons.2 ⟨.string _, (h.entries e he).legible⟩
  have hentries : Legible Numeral.Read (125 + 1) (.array (m.entries.map Entry.toJson)) := by
    refine .array fun v hv => ?_
    obtain ⟨e, he, rfl⟩ := List.mem_map.1 hv
    exact hentry e he
  have hjson : Legible Numeral.Read (126 + 1) m.toJson :=
    .object (List.forall_mem_cons.2 ⟨hentries, h.others.legible⟩)
  exact hjson

/-- An entry as it is read from its text. -/
def Entry.echo (e : Entry) : Entry := { e with others := echoMembers e.others }

/-- A manifest as it is read from its text. -/
def echo (m : Manifest) : Manifest := ⟨m.entries.map Entry.echo, echoMembers m.others⟩

theorem toJson_echo (m : Manifest) : m.toJson.echo = m.echo.toJson := by
  have hentries : echoItems (m.entries.map Entry.toJson) =
      (m.entries.map Entry.echo).map Entry.toJson := by
    rw [echoItems_eq_map, List.map_map, List.map_map]
    rfl
  show Json.object ((entriesName, .array (echoItems (m.entries.map Entry.toJson))) ::
    echoMembers m.others) = _
  rw [hentries]
  rfl

theorem Faithful.echo (h : m.Faithful Numeral.Read) : m.echo.Faithful Numeral.Read :=
  ⟨h.others.echo, List.forall_mem_map.2 fun e he => (h.entries e he).echo⟩

theorem Faithful.echo_eq (h : m.Faithful Numeral.Steady) : m.echo = m := by
  have hentry : ∀ e ∈ m.entries, e.echo = id e := fun e he =>
    congrArg (fun others => { e with others }) (h.entries e he).echo_eq
  rw [Manifest.echo, h.others.echo_eq, List.map_congr_left hentry, List.map_id]

/-- **A manifest from its own text.** -/
theorem Faithful.read?_print (h : m.Faithful Numeral.Read) : read? m.print = some m.echo := by
  rw [read?, print, String.toList_ofList, Json.read?_print h.legible_toJson, Option.bind_some,
    toJson_echo, h.echo.ofJson?_toJson]

/-! ## What was read -/

theorem mem_of_valuesOf {name : String} {v : Json} (h : v ∈ valuesOf name members) :
    ∃ m ∈ members, m.2 = v := by
  obtain ⟨m, hm, rfl⟩ := List.mem_map.1 h
  exact ⟨m, (List.mem_filter.1 hm).1, rfl⟩

theorem foreign_of_ofJson? {v : Json} {e : Entry} (h : Entry.ofJson? v = some e)
    (hv : Legible P (depth + 1) v) : Foreign P entryNames depth e.others := by
  cases v with
  | object members =>
    obtain ⟨key, -, h⟩ := Option.bind_eq_some_iff.1 h
    obtain ⟨source, -, h⟩ := Option.bind_eq_some_iff.1 h
    obtain ⟨dir, -, h⟩ := Option.bind_eq_some_iff.1 h
    cases h
    exact foreign_othersThan hv.members
  | _ => cases h

theorem foreign_of_mapM {items : List Json} {entries : List Entry}
    (h : items.mapM Entry.ofJson? = some entries)
    (hitems : ∀ v ∈ items, Legible P (depth + 1) v) :
    ∀ e ∈ entries, Foreign P entryNames depth e.others := by
  induction items generalizing entries with
  | nil =>
    cases h
    nofun
  | cons v items ih =>
    rw [List.mapM_cons] at h
    obtain ⟨e, he, h⟩ := Option.bind_eq_some_iff.1 h
    obtain ⟨more, hmore, h⟩ := Option.bind_eq_some_iff.1 h
    cases h
    obtain ⟨hv, hitems⟩ := List.forall_mem_cons.1 hitems
    exact List.forall_mem_cons.2 ⟨foreign_of_ofJson? he hv, ih hmore hitems⟩

theorem foreign_of_entriesOf? {entries : List Entry} (h : entriesOf? members = some entries)
    (hmembers : ∀ m ∈ members, Legible P (depth + 2) m.2) :
    ∀ e ∈ entries, Foreign P entryNames depth e.others := by
  rw [entriesOf?] at h
  split at h
  · cases h
    nofun
  · next items hitems =>
    obtain ⟨m, hm, heq⟩ := mem_of_valuesOf (v := .array items) (hitems ▸ List.mem_cons_self)
    have hlegible := hmembers m hm
    rw [heq] at hlegible
    exact foreign_of_mapM h hlegible.items
  · cases h

theorem faithful_of_ofJson? {v : Json} (h : ofJson? v = some m) (hv : Legible P depthLimit v) :
    m.Faithful P := by
  cases v with
  | object members =>
    have hmembers : ∀ m ∈ members, Legible P 126 m.2 := hv.members
    obtain ⟨entries, hentries, h⟩ := Option.bind_eq_some_iff.1 h
    cases h
    exact ⟨foreign_othersThan hmembers, foreign_of_entriesOf? hentries hmembers⟩
  | _ => cases h

/-- **A manifest that was read** can be read again. -/
theorem faithful_of_read? {text : String} (h : read? text = some m) :
    m.Faithful Numeral.Read := by
  obtain ⟨v, hv, h⟩ := Option.bind_eq_some_iff.1 h
  exact faithful_of_ofJson? h (legible_of_read? hv)

/-- A manifest that was read from a value that is read back as itself. -/
theorem steady_of_read? {text : String} (h : read? text = some m)
    (hecho : ∀ v, Json.read? text.toList = some v → v.echo = v) : m.Faithful Numeral.Steady := by
  obtain ⟨v, hv, h⟩ := Option.bind_eq_some_iff.1 h
  exact faithful_of_ofJson? h ((legible_of_read? hv).steady (hecho v hv))

/-- Directories are the only thing that a redirection changes. -/
theorem Faithful.manifest (h : m.Faithful P) (r : Redirection) : (r.manifest m).Faithful P :=
  ⟨h.others, List.forall_mem_map.2 h.entries⟩

/-- **A manifest that was read** survives any redirection and its own text, if its numbers are
integers. -/
theorem read?_print_manifest {text : String} (h : read? text = some m)
    (hwhole : ∀ v, Json.read? text.toList = some v → v.isWhole = true) (r : Redirection) :
    read? (r.manifest m).print = some (r.manifest m) := by
  have hsteady := steady_of_read? h fun v hv => echo_of_isWhole v (hwhole v hv)
  rw [((faithful_of_read? h).manifest r).read?_print, (hsteady.manifest r).echo_eq]

/-- A redirection that changes no entry leaves the manifest as it is. -/
theorem manifest_of_count {r : Redirection} (h : r.count m = 0) : r.manifest m = m := by
  have hentries : m.entries.map r.entry = m.entries := by
    refine (List.map_congr_left fun e he => ?_).trans (List.map_id m.entries)
    have hkeeps := List.countP_eq_zero.1 h e he
    rw [Redirection.changes, bne_iff_ne, not_not] at hkeeps
    exact congrArg (fun dir => { e with dir }) hkeeps
  rw [Redirection.manifest, hentries]

end Manifest

end HclOverlay
