import HclOverlay.Proofs.Json.Floats

/-!
# What is printed is read

A value that was read can be printed and read again: it was found within the depth that the reader
goes, its integers fit 64 bits, and its floats are finite. All of it is the same then but floats,
which may be read from their own texts as others; a value whose numbers are integers is the same
altogether.

* `Numeral.echo`, `echo` — a number, a value as they are read from their own texts.
* `Numeral.Read`, `Numeral.Steady` — numbers that were read; those that are read back as themselves.
* `isWhole`, `echo_of_isWhole` — **values whose numbers are integers** are read as themselves.
* `Legible` — the values that a reader of limited depth can give back, and what their numbers are.
* `legible_of_readValue?` — **what was read** is legible, and its numbers were read.
* `readValue?_chars` — **what is legible** is read from its own text; `read?_print` for whole texts.
-/

namespace HclOverlay.Json

open Decimal

/-! ## Numbers -/

/-- The number that is read from the text of a number. -/
def Numeral.echo : Numeral → Numeral
  | .int n => .int n
  | .float x =>
    match readNumeral? ((Numeral.float x).chars ++ ['\n']) with
    | some (n, _) => n
    | none => .float x

/-- A number that was read. -/
def Numeral.Read (n : Numeral) : Prop := ∃ cs rest, readNumeral? cs = some (n, rest)

/-- A number that was read, and is read from its own text as itself. -/
def Numeral.Steady (n : Numeral) : Prop := n.Read ∧ n.echo = n

/-- **A number that was read** is read from its own text, wherever it stands. -/
theorem Numeral.Read.readNumeral?_chars {n : Numeral} (h : n.Read) {rest : List Char}
    (hrest : Stops rest) : readNumeral? (n.chars ++ rest) = some (n.echo, rest) := by
  obtain ⟨cs, more, h⟩ := h
  cases n with
  | int n => exact readNumeral?_integerDigits (sized_of_readNumeral? h) hrest
  | float x =>
    obtain ⟨n, hn⟩ := exists_readNumeral?_float (isFinite_of_readNumeral? h)
    have hecho : (Numeral.float x).echo = n := by
      rw [Numeral.echo, hn ['\n'] ⟨_, _, rfl, .inr rfl⟩]
    rw [hecho, hn rest hrest]

theorem Numeral.Read.echo {n : Numeral} (h : n.Read) : n.echo.Read :=
  ⟨_, _, h.readNumeral?_chars ⟨_, [], rfl, .inr rfl⟩⟩

/-! ## Values -/

mutual

/-- The value that is read from the text of a value. -/
def echo : Json → Json
  | .number n => .number n.echo
  | .array items => .array (echoItems items)
  | .object members => .object (echoMembers members)
  | .null => .null
  | .bool b => .bool b
  | .string s => .string s
termination_by structural v => v

/-- The items of an array, each from its text. -/
def echoItems : List Json → List Json
  | [] => []
  | item :: rest => echo item :: echoItems rest
termination_by structural items => items

/-- The members of an object, each from its text. -/
def echoMembers : List (String × Json) → List (String × Json)
  | [] => []
  | m :: rest => echoMember m :: echoMembers rest
termination_by structural members => members

/-- One member, its value from its text. -/
def echoMember : String × Json → String × Json
  | (name, value) => (name, echo value)
termination_by structural m => m

end

theorem echoItems_eq_map (items : List Json) : echoItems items = items.map echo := by
  induction items with
  | nil => rfl
  | cons item items ih => rw [echoItems, ih, List.map_cons]

theorem echoMembers_eq_map (members : List (String × Json)) :
    echoMembers members = members.map fun m => (m.1, echo m.2) := by
  induction members with
  | nil => rfl
  | cons m members ih => rw [echoMembers, ih, List.map_cons, echoMember]

mutual

/-- Whether all numbers of the value are integers. -/
def isWhole : Json → Bool
  | .number (.int _) => true
  | .number (.float _) => false
  | .array items => areWhole items
  | .object members => areWholeMembers members
  | .null => true
  | .bool _ => true
  | .string _ => true
termination_by structural v => v

/-- Whether all numbers of the items are integers. -/
def areWhole : List Json → Bool
  | [] => true
  | item :: rest => isWhole item && areWhole rest
termination_by structural items => items

/-- Whether all numbers of the members are integers. -/
def areWholeMembers : List (String × Json) → Bool
  | [] => true
  | m :: rest => isWholeMember m && areWholeMembers rest
termination_by structural members => members

/-- Whether all numbers of one member are integers. -/
def isWholeMember : String × Json → Bool
  | (_, value) => isWhole value
termination_by structural m => m

end

mutual

/-- Integers are read back as themselves. -/
theorem echo_of_isWhole : ∀ v : Json, v.isWhole = true → v.echo = v
  | .null, _ => rfl
  | .bool _, _ => rfl
  | .number (.int _), _ => rfl
  | .string _, _ => rfl
  | .array items, h => congrArg Json.array (echoItems_of_areWhole items h)
  | .object members, h => congrArg Json.object (echoMembers_of_areWhole members h)
termination_by structural v => v

theorem echoItems_of_areWhole : ∀ items : List Json, areWhole items = true → echoItems items = items
  | [], _ => rfl
  | item :: rest, h => by
    rw [areWhole, Bool.and_eq_true] at h
    rw [echoItems, echo_of_isWhole item h.1, echoItems_of_areWhole rest h.2]
termination_by structural items => items

theorem echoMembers_of_areWhole : ∀ members : List (String × Json),
    areWholeMembers members = true → echoMembers members = members
  | [], _ => rfl
  | m :: rest, h => by
    rw [areWholeMembers, Bool.and_eq_true] at h
    rw [echoMembers, echoMember_of_isWhole m h.1, echoMembers_of_areWhole rest h.2]
termination_by structural members => members

theorem echoMember_of_isWhole : ∀ m : String × Json, isWholeMember m = true → echoMember m = m
  | (name, v), h => congrArg (Prod.mk name) (echo_of_isWhole v h)
termination_by structural m => m

end

/-- The numbers of the value are of a certain kind, and its arrays and objects nest at most `depth`
deep. -/
inductive Legible (P : Numeral → Prop) : Nat → Json → Prop
  | null {depth : Nat} : Legible P depth .null
  | bool {depth : Nat} (b : Bool) : Legible P depth (.bool b)
  | number {depth : Nat} {n : Numeral} (h : P n) : Legible P depth (.number n)
  | string {depth : Nat} (s : String) : Legible P depth (.string s)
  | array {depth : Nat} {items : List Json} (h : ∀ v ∈ items, Legible P depth v) :
    Legible P (depth + 1) (.array items)
  | object {depth : Nat} {members : List (String × Json)} (h : ∀ m ∈ members, Legible P depth m.2) :
    Legible P (depth + 1) (.object members)

/-- A value that is read back as itself has no numbers but such. -/
theorem Legible.steady {depth : Nat} {v : Json} (h : Legible Numeral.Read depth v)
    (hv : v.echo = v) : Legible Numeral.Steady depth v := by
  induction h with
  | null => exact .null
  | bool b => exact .bool b
  | number h => exact .number ⟨h, Json.number.inj hv⟩
  | string s => exact .string s
  | @array depth items _ ih =>
    rw [Json.echo, echoItems_eq_map] at hv
    have hitems : items.map Json.echo = items.map id := by
      rw [Json.array.inj hv, List.map_id]
    exact .array fun v hmem => ih v hmem (List.map_inj_left.1 hitems v hmem)
  | @object depth members _ ih =>
    rw [Json.echo, echoMembers_eq_map] at hv
    have hmembers : (members.map fun m => (m.1, m.2.echo)) = members.map id := by
      rw [Json.object.inj hv, List.map_id]
    exact .object fun m hmem =>
      ih m hmem (congrArg Prod.snd (List.map_inj_left.1 hmembers m hmem))

theorem Legible.echo {depth : Nat} {v : Json} (h : Legible Numeral.Read depth v) :
    Legible Numeral.Read depth v.echo := by
  induction h with
  | null => exact .null
  | bool b => exact .bool b
  | number h => exact .number h.echo
  | string s => exact .string s
  | array _ ih =>
    rw [Json.echo, echoItems_eq_map]
    exact .array (List.forall_mem_map.2 ih)
  | object _ ih =>
    rw [Json.echo, echoMembers_eq_map]
    exact .object (List.forall_mem_map.2 ih)

theorem Legible.echo_eq {depth : Nat} {v : Json} (h : Legible Numeral.Steady depth v) :
    v.echo = v := by
  induction h with
  | null | bool | string => rfl
  | number h => rw [Json.echo, h.2]
  | array _ ih =>
    rw [Json.echo, echoItems_eq_map]
    exact congrArg Json.array ((List.map_congr_left ih).trans (List.map_id _))
  | @object depth members _ ih =>
    rw [Json.echo, echoMembers_eq_map]
    have hid : ∀ m ∈ members, (m.1, m.2.echo) = id m := fun m hm => Prod.ext rfl (ih m hm)
    exact congrArg Json.object ((List.map_congr_left hid).trans (List.map_id _))

/-! ## What was read -/

section Read

variable {value : List Char → Option (Json × List Char)} {rounds : Nat} {cs rest : List Char}

/-- Each item of an array was read on its own. -/
theorem exists_of_mem_readItems? {items : List Json} {v : Json}
    (h : readItems? value rounds cs = some (items, rest)) (hv : v ∈ items) :
    ∃ cs' rest', value cs' = some (v, rest') := by
  induction rounds generalizing cs items with
  | zero => cases h
  | succ rounds ih =>
    rw [readItems?] at h
    split at h
    · cases h
    next item after hitem =>
    split at h
    · cases h
      rw [List.mem_singleton.1 hv]
      exact ⟨_, _, hitem⟩
    · obtain ⟨⟨more, rest'⟩, hmore, heq⟩ := Option.map_eq_some_iff.1 h
      cases heq
      rcases List.mem_cons.1 hv with rfl | hv
      · exact ⟨_, _, hitem⟩
      · exact ih hmore hv
    · cases h

theorem exists_of_readMember? {m : String × Json} (h : readMember? value cs = some (m, rest)) :
    ∃ cs' rest', value cs' = some (m.2, rest') := by
  rw [readMember?.eq_def] at h
  split at h
  · split at h
    · cases h
    split at h
    · obtain ⟨⟨v, rest'⟩, hv, heq⟩ := Option.map_eq_some_iff.1 h
      cases heq
      exact ⟨_, _, hv⟩
    · cases h
  · cases h

/-- The value of each member of an object was read on its own. -/
theorem exists_of_mem_readMembers? {members : List (String × Json)} {m : String × Json}
    (h : readMembers? value rounds cs = some (members, rest)) (hm : m ∈ members) :
    ∃ cs' rest', value cs' = some (m.2, rest') := by
  induction rounds generalizing cs members with
  | zero => cases h
  | succ rounds ih =>
    rw [readMembers?] at h
    split at h
    · cases h
    next first after hfirst =>
    split at h
    · cases h
      rw [List.mem_singleton.1 hm]
      exact exists_of_readMember? hfirst
    · obtain ⟨⟨more, rest'⟩, hmore, heq⟩ := Option.map_eq_some_iff.1 h
      cases heq
      rcases List.mem_cons.1 hm with rfl | hm
      · exact exists_of_readMember? hfirst
      · exact ih hmore hm
    · cases h

end Read

theorem legible_of_readScalar? {depth : Nat} {cs rest : List Char} {v : Json}
    (h : readScalar? cs = some (v, rest)) : Legible Numeral.Read depth v := by
  rw [readScalar?.eq_def] at h
  split at h
  · cases h
    exact .null
  · cases h
    exact .bool true
  · cases h
    exact .bool false
  · obtain ⟨⟨s, rest'⟩, -, heq⟩ := Option.map_eq_some_iff.1 h
    cases heq
    exact .string _
  · obtain ⟨⟨n, rest'⟩, hn, heq⟩ := Option.map_eq_some_iff.1 h
    cases heq
    exact .number ⟨_, _, hn⟩

/-- **What was read** is legible at the depth of its reader. -/
theorem legible_of_readValue? {depth : Nat} {cs rest : List Char} {v : Json}
    (h : readValue? depth cs = some (v, rest)) : Legible Numeral.Read depth v := by
  induction depth generalizing cs rest v with
  | zero => exact legible_of_readScalar? h
  | succ depth ih =>
    rw [readValue?.eq_def] at h
    dsimp only at h
    split at h
    · split at h
      · cases h
        exact .array (List.forall_mem_nil _)
      · obtain ⟨⟨items, rest'⟩, hitems, heq⟩ := Option.map_eq_some_iff.1 h
        cases heq
        refine .array fun w hw => ?_
        obtain ⟨cs', rest', hread⟩ := exists_of_mem_readItems? hitems hw
        exact ih hread
    · split at h
      · cases h
        exact .object (List.forall_mem_nil _)
      · obtain ⟨⟨members, rest'⟩, hmembers, heq⟩ := Option.map_eq_some_iff.1 h
        cases heq
        refine .object fun m hm => ?_
        obtain ⟨cs', rest', hread⟩ := exists_of_mem_readMembers? hmembers hm
        exact ih hread
    · exact legible_of_readScalar? h

/-! ## What is printed -/

/-- The value is read from its text, wherever this stands. -/
def Returns (depth : Nat) (v : Json) : Prop :=
  ∀ indent rest : List Char, (∀ c ∈ indent, isBlank c = true) → Stops rest →
    readValue? depth (v.chars indent ++ rest) = some (v.echo, rest)

section Printed

variable {depth : Nat} {indent inner rest : List Char}

/-- A value at the start of a line. -/
theorem Returns.line {v : Json} (h : Returns depth v) (lead : List Char)
    (hlead : ∀ c ∈ lead, isBlank c = true)
    (hindent : ∀ c ∈ indent, isBlank c = true) (hstops : Stops rest) :
    readValue? depth (skipBlanks (lead ++ (v.chars indent ++ rest))) = some (v.echo, rest) := by
  obtain ⟨c, cs, hcs, hc, -⟩ := chars_start indent v
  rw [skipBlanks_append hlead, hcs, List.cons_append, skipBlanks_cons hc, ← List.cons_append,
    ← hcs]
  exact h indent rest hindent hstops

theorem length_le_itemsChars (inner : List Char) (items : List Json) :
    items.length ≤ (itemsChars inner items).length := by
  induction items with
  | nil => exact Nat.zero_le _
  | cons item items ih => simp [itemsChars]; omega

/-- **Items** of a printed array. -/
theorem readItems?_itemsChars (rounds : Nat) (lead : List Char) {first : Json} {more : List Json}
    (hindent : ∀ c ∈ indent, isBlank c = true) (hinner : ∀ c ∈ inner, isBlank c = true)
    (hlead : ∀ c ∈ lead, isBlank c = true) (hitems : ∀ v ∈ first :: more, Returns depth v)
    (hrounds : more.length < rounds) :
    readItems? (readValue? depth) rounds (lead ++ (first.chars inner ++
      (itemsChars inner more ++ '\n' :: (indent ++ ']' :: rest)))) =
        some (echoItems (first :: more), rest) := by
  induction more generalizing first rounds lead with
  | nil =>
    obtain ⟨before, rfl⟩ := Nat.exists_eq_succ_of_ne_zero (Nat.ne_of_gt hrounds)
    have hclose := skipBlanks_close hindent (c := ']') (by decide) rest
    rw [readItems?, (hitems first List.mem_cons_self).line lead hlead hinner (stops_items _ _ _),
      itemsChars, List.nil_append]
    simp only [hclose, echoItems]
  | cons next more ih =>
    obtain ⟨before, rfl⟩ := Nat.exists_eq_succ_of_ne_zero (Nat.ne_zero_of_lt hrounds)
    have hmore := ih before ('\n' :: inner) (List.forall_mem_cons.2 ⟨by decide, hinner⟩)
      (fun v hv => hitems v (List.mem_cons_of_mem _ hv)) (Nat.lt_of_succ_lt_succ hrounds)
    rw [readItems?, (hitems first List.mem_cons_self).line lead hlead hinner (stops_items _ _ _)]
    simp only [itemsChars, List.cons_append, List.append_assoc,
      skipBlanks_cons (show isBlank ',' = false by decide)] at hmore ⊢
    rw [hmore]
    rfl

/-- A printed member. -/
theorem Returns.member {m : String × Json} (h : Returns depth m.2) (lead : List Char)
    (hlead : ∀ c ∈ lead, isBlank c = true) (hindent : ∀ c ∈ indent, isBlank c = true)
    (hstops : Stops rest) :
    readMember? (readValue? depth) (skipBlanks (lead ++ (memberChars indent m ++ rest))) =
      some (echoMember m, rest) := by
  obtain ⟨name, v⟩ := m
  have hvalue := h.line [' '] (List.all_eq_true.1 (by decide)) hindent hstops
  rw [skipBlanks_append hlead, memberChars, stringChars, List.cons_append, List.cons_append,
    skipBlanks_cons (by decide), readMember?]
  simp only [List.append_assoc, List.cons_append, List.nil_append, readString?_stringChars,
    skipBlanks_cons (show isBlank ':' = false by decide)]
  rw [List.singleton_append] at hvalue
  rw [hvalue, Option.map_some, String.ofList_toList, echoMember]

theorem length_le_membersChars (inner : List Char) (members : List (String × Json)) :
    members.length ≤ (membersChars inner members).length := by
  induction members with
  | nil => exact Nat.zero_le _
  | cons m members ih => simp [membersChars]; omega

/-- **Members** of a printed object. -/
theorem readMembers?_membersChars (rounds : Nat) (lead : List Char) {first : String × Json}
    {more : List (String × Json)} (hindent : ∀ c ∈ indent, isBlank c = true)
    (hinner : ∀ c ∈ inner, isBlank c = true)
    (hlead : ∀ c ∈ lead, isBlank c = true) (hmembers : ∀ m ∈ first :: more, Returns depth m.2)
    (hrounds : more.length < rounds) :
    readMembers? (readValue? depth) rounds (lead ++ (memberChars inner first ++
      (membersChars inner more ++ '\n' :: (indent ++ '\x7d' :: rest)))) =
        some (echoMembers (first :: more), rest) := by
  induction more generalizing first rounds lead with
  | nil =>
    obtain ⟨before, rfl⟩ := Nat.exists_eq_succ_of_ne_zero (Nat.ne_of_gt hrounds)
    have hclose := skipBlanks_close hindent (c := '\x7d') (by decide) rest
    rw [readMembers?, (hmembers first List.mem_cons_self).member lead hlead hinner
      (stops_members _ _ _), membersChars, List.nil_append]
    simp only [hclose, echoMembers]
  | cons next more ih =>
    obtain ⟨before, rfl⟩ := Nat.exists_eq_succ_of_ne_zero (Nat.ne_zero_of_lt hrounds)
    have hmore := ih before ('\n' :: inner) (List.forall_mem_cons.2 ⟨by decide, hinner⟩)
      (fun m hm => hmembers m (List.mem_cons_of_mem _ hm)) (Nat.lt_of_succ_lt_succ hrounds)
    rw [readMembers?, (hmembers first List.mem_cons_self).member lead hlead hinner
      (stops_members _ _ _)]
    simp only [membersChars, List.cons_append, List.append_assoc,
      skipBlanks_cons (show isBlank ',' = false by decide)] at hmore ⊢
    rw [hmore]
    rfl

theorem returns_number {n : Numeral} (h : n.Read) : Returns depth (.number n) := by
  intro indent rest hindent hstops
  obtain ⟨hall, hne⟩ := isNumeralChar_chars n
  obtain ⟨c, cs, hcs⟩ := List.exists_cons_of_ne_nil hne
  have hc := hall c (hcs ▸ List.mem_cons_self)
  have hread := h.readNumeral?_chars hstops
  rw [hcs] at hread
  rw [chars, hcs, List.cons_append, readValue?_scalar, readScalar?_numeral hc, ← List.cons_append,
    hread]
  · rfl
  all_goals
    rintro rfl
    exact absurd hc (by decide)

theorem returns_array {items : List Json} (h : ∀ v ∈ items, Returns depth v) :
    Returns (depth + 1) (.array items) := by
  intro indent rest hindent hstops
  cases items with
  | nil => rfl
  | cons first more =>
    have hinner := indent_inner hindent
    obtain ⟨c, cs, hcs, hblank, hclose⟩ := chars_start (indent ++ indentStep) first
    rw [chars_array, readValue?_array hinner ⟨c, _, by rw [hcs]; rfl, hblank, hclose⟩]
    refine congrArg (Option.map _)
      (readItems?_itemsChars _ [] hindent hinner (List.forall_mem_nil _) h ?_)
    have hlength := length_le_itemsChars (indent ++ indentStep) more
    simp only [List.length_append, List.length_cons]
    omega

theorem returns_object {members : List (String × Json)} (h : ∀ m ∈ members, Returns depth m.2) :
    Returns (depth + 1) (.object members) := by
  intro indent rest hindent hstops
  cases members with
  | nil => rfl
  | cons first more =>
    have hinner := indent_inner hindent
    have hstart : ∃ cs, memberChars (indent ++ indentStep) first = '"' :: cs := by
      rw [memberChars, stringChars]
      exact ⟨_, rfl⟩
    obtain ⟨cs, hcs⟩ := hstart
    rw [chars_object, readValue?_object hinner ⟨'"', _, by rw [hcs]; rfl, by decide⟩]
    refine congrArg (Option.map _)
      (readMembers?_membersChars _ [] hindent hinner (List.forall_mem_nil _) h ?_)
    have hlength := length_le_membersChars (indent ++ indentStep) more
    simp only [List.length_append, List.length_cons]
    omega

end Printed

/-- **What is legible** is read from its own text. -/
theorem readValue?_chars {depth : Nat} {v : Json} (h : Legible Numeral.Read depth v) :
    Returns depth v := by
  induction h with
  | null =>
    intro indent rest _ _
    rw [chars, List.cons_append, readValue?_scalar (by decide) (by decide)]
    rfl
  | bool b =>
    intro indent rest _ _
    cases b
    all_goals
      rw [chars, List.cons_append, readValue?_scalar (by decide) (by decide)]
      rfl
  | number h => exact returns_number h
  | string s =>
    intro indent rest _ _
    rw [chars, stringChars, List.cons_append, readValue?_scalar (by decide) (by decide),
      readScalar?, List.append_assoc, List.singleton_append, readString?_stringChars]
    exact congrArg (fun s => some (Json.string s, rest)) String.ofList_toList
  | array _ ih => exact returns_array ih
  | object _ ih => exact returns_object ih

/-- A text that is a printed value and a line end holds this value, as it is read. -/
theorem read?_print {v : Json} (h : Legible Numeral.Read depthLimit v) :
    read? (v.print ++ ['\n']) = some v.echo := by
  have hstops : Stops ['\n'] := ⟨_, _, rfl, .inr rfl⟩
  have hread : readValue? depthLimit (skipBlanks (v.print ++ ['\n'])) = some (v.echo, ['\n']) :=
    (readValue?_chars h).line [] (List.forall_mem_nil _) (List.forall_mem_nil _) hstops
  rw [read?, hread]
  rfl

theorem legible_of_read? {cs : List Char} {v : Json} (h : read? cs = some v) :
    Legible Numeral.Read depthLimit v := by
  rw [read?] at h
  split at h
  · next u rest hread =>
    split at h
    · cases h
      exact legible_of_readValue? hread
    · cases h
  · cases h

end HclOverlay.Json
