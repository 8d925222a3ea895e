import HclOverlay.Json.Printer
import HclOverlay.Json.Reader
import HclOverlay.Proofs.Reading.Number

/-!
# Reading printed JSON

What is printed is read again with the same strings, arrays and objects. Nothing is said about
numbers: how floats are rounded does not matter here. If a number is not read as a whole, what is
left of it is in the way, and reading fails.

* `readString?_stringChars` — **strings** are read back.
* `Takes`, `takes_readNumeral?` — a number is read from characters of numbers only.
* `outline` — the strings, arrays and objects of a value.
* `Rereads`, `rereads` — every printed value is read with its outline.
* `outline_of_read?` — **what is read from a printed value** has its outline.
-/

namespace HclOverlay.Json

open Decimal

/-! ## Strings -/

theorem hexDigit?_hexDigit : ∀ n < 16, Text.hexDigit? (hexDigit n) = some n := by decide

theorem hex4?_control {n : Nat} (h : n < 0x20) :
    hex4? '0' '0' (hexDigit (n / 16)) (hexDigit (n % 16)) = some n := by
  have hzero : Text.hexDigit? '0' = some 0 := by decide
  rw [hex4?, hzero, hexDigit?_hexDigit _ (by omega), hexDigit?_hexDigit _ (by omega)]
  exact congrArg some (by omega)

/-- A unit that is no part of a surrogate pair stands for itself. -/
theorem readString?_unit {a b c d : Char} {n : Nat} (h : hex4? a b c d = some n) (hn : n < 0xd800)
    (rest : List Char) :
    readString? ('\\' :: 'u' :: a :: b :: c :: d :: rest) =
      (readString? rest).map fun (more, rest) => (Char.ofNat n :: more, rest) := by
  have hhigh : isHighSurrogate n = false := by
    simp [isHighSurrogate, Nat.not_le.2 hn]
  have hlow : isLowSurrogate n = false := by
    simp [isLowSurrogate, Nat.not_le.2 (show n < 0xdc00 by omega)]
  by_cases hpair : ∃ e f g h more, rest = '\\' :: 'u' :: e :: f :: g :: h :: more
  · obtain ⟨e, f, g, i, more, rfl⟩ := hpair
    rw [readString?.eq_3, h]
    simp only [hhigh, hlow, Bool.false_eq_true, if_false]
  · rw [readString?.eq_4 _ _ _ _ _ fun e f g i more heq => hpair ⟨e, f, g, i, more, heq⟩, h]
    simp only [hhigh, hlow, Bool.or_self, Bool.false_eq_true, if_false]

theorem readString?_escape {c e : Char} (h : escape? c = some e) (hc : c ≠ 'u')
    (rest : List Char) :
    readString? ('\\' :: c :: rest) =
      (readString? rest).map fun (more, rest) => (e :: more, rest) := by
  rw [readString?.eq_5 _ _ (fun _ _ _ _ _ _ _ _ _ heq => absurd heq hc)
    (fun _ _ _ _ _ heq => absurd heq hc), h]

theorem readString?_plain {c : Char} (hquote : c ≠ '"') (hback : c ≠ '\\') (hc : ¬c.toNat < 0x20)
    (rest : List Char) :
    readString? (c :: rest) = (readString? rest).map fun (more, rest) => (c :: more, rest) := by
  rw [readString?.eq_6 _ _ hquote (fun _ _ _ _ _ _ _ _ _ heq => absurd heq hback)
    (fun _ _ _ _ _ heq => absurd heq hback) (fun _ _ heq => absurd heq hback), if_neg hc]

/-- One character of a string. -/
theorem readString?_charChars (c : Char) (rest : List Char) :
    readString? (charChars c ++ rest) =
      (readString? rest).map fun (more, rest) => (c :: more, rest) := by
  unfold charChars
  split
  · exact readString?_escape rfl (by decide) rest
  · exact readString?_escape rfl (by decide) rest
  · exact readString?_escape rfl (by decide) rest
  · exact readString?_escape rfl (by decide) rest
  · exact readString?_escape rfl (by decide) rest
  · exact readString?_escape rfl (by decide) rest
  · exact readString?_escape rfl (by decide) rest
  · next hquote hback _ _ _ _ _ =>
    split
    · next hc =>
      have hunit := readString?_unit (hex4?_control hc) (by omega) rest
      rwa [Char.ofNat_toNat] at hunit
    · next hc => exact readString?_plain hquote hback hc rest

/-- **Strings** are read back. -/
theorem readString?_stringChars (s : List Char) (rest : List Char) :
    readString? (s.flatMap charChars ++ '"' :: rest) = some (s, rest) := by
  induction s with
  | nil => rw [List.flatMap_nil, List.nil_append, readString?.eq_2]
  | cons c s ih => rw [List.flatMap_cons, List.append_assoc, readString?_charChars, ih]; rfl

/-! ## Numbers -/

/-- The characters that numbers are made of. -/
def isNumeralChar (c : Char) : Bool :=
  c.isDigit || c == '-' || c == '+' || c == '.' || c == 'e' || c == 'E'

theorem isNumeralChar_of_isDigit {c : Char} (h : c.isDigit = true) : isNumeralChar c = true := by
  simp [isNumeralChar, h]

theorem isNumeralChar_digitsOf {n : Nat} : ∀ c ∈ digitsOf n, isNumeralChar c = true :=
  fun _ hc => isNumeralChar_of_isDigit (isDigit_of_mem_digitsOf hc)

theorem isNumeralChar_integerDigits {n : Int} : ∀ c ∈ integerDigits n, isNumeralChar c = true := by
  intro c hc
  unfold integerDigits at hc
  split at hc
  · rcases List.mem_cons.1 hc with rfl | hc
    · decide
    · exact isNumeralChar_digitsOf c hc
  · exact isNumeralChar_digitsOf c hc

theorem integerDigits_ne_nil (n : Int) : integerDigits n ≠ [] := by
  unfold integerDigits
  split
  · exact List.cons_ne_nil _ _
  · exact digitsOf_ne_nil _

theorem isNumeralChar_replicate {n : Nat} : ∀ c ∈ List.replicate n '0', isNumeralChar c = true := by
  intro c hc
  rw [List.eq_of_mem_replicate hc]
  decide

/-- Whatever a layout does, it writes characters of numbers, and at least one. -/
theorem isNumeralChar_layout (l : Layout) (d : Digits) :
    (∀ c ∈ l.digits d, isNumeralChar c = true) ∧ l.digits d ≠ [] := by
  have hdigits := isNumeralChar_digitsOf (n := d.significand)
  unfold Layout.digits
  dsimp only
  split
  · split
    · refine ⟨?_, by simp [digitsOf_ne_nil]⟩
      simp only [List.forall_mem_append]
      exact ⟨⟨hdigits, isNumeralChar_replicate⟩, by split <;> exact List.all_eq_true.1 (by decide)⟩
    · split
      · refine ⟨?_, by simp⟩
        simp only [List.forall_mem_append, List.forall_mem_cons]
        exact ⟨fun c hc => hdigits c (List.mem_of_mem_take hc), by decide,
          fun c hc => hdigits c (List.mem_of_mem_drop hc)⟩
      · refine ⟨?_, by simp⟩
        simp only [List.forall_mem_append, List.forall_mem_cons]
        exact ⟨⟨by decide, by decide, isNumeralChar_replicate⟩, hdigits⟩
  · refine ⟨?_, by simp⟩
    simp only [List.forall_mem_append, List.forall_mem_cons]
    refine ⟨⟨?_, by decide, by split <;> exact List.all_eq_true.1 (by decide)⟩,
      isNumeralChar_integerDigits⟩
    split
    · next hds =>
      rw [hds] at hdigits
      simp only [List.forall_mem_cons] at hdigits ⊢
      exact ⟨hdigits.1, by decide, hdigits.2⟩
    · exact hdigits

/-- A number is written in characters of numbers, and at least one. -/
theorem isNumeralChar_chars (n : Numeral) :
    (∀ c ∈ n.chars, isNumeralChar c = true) ∧ n.chars ≠ [] := by
  cases n with
  | int n => exact ⟨isNumeralChar_integerDigits, integerDigits_ne_nil n⟩
  | float x =>
    have hsign : ∀ c ∈ (if signBit x then ['-'] else [] : List Char), isNumeralChar c = true := by
      split <;> exact List.all_eq_true.1 (by decide)
    unfold Numeral.chars Layout.write
    dsimp only
    split
    · refine ⟨?_, by simp⟩
      simp only [List.forall_mem_append, List.forall_mem_cons]
      exact ⟨hsign, by decide, by split <;> exact List.all_eq_true.1 (by decide)⟩
    · obtain ⟨hall, hne⟩ := isNumeralChar_layout layout (shortest x)
      refine ⟨?_, by simp [hne]⟩
      simp only [List.forall_mem_append]
      exact ⟨hsign, hall⟩

/-- Characters of numbers have been taken off the front of a text. -/
def Takes (cs rest : List Char) : Prop :=
  ∃ front, cs = front ++ rest ∧ ∀ c ∈ front, isNumeralChar c = true

theorem Takes.refl (cs : List Char) : Takes cs cs := ⟨[], rfl, by simp⟩

theorem Takes.trans {cs more rest : List Char} (h : Takes cs more) (h' : Takes more rest) :
    Takes cs rest := by
  obtain ⟨front, rfl, hfront⟩ := h
  obtain ⟨back, rfl, hback⟩ := h'
  exact ⟨front ++ back, (List.append_assoc _ _ _).symm, List.forall_mem_append.2 ⟨hfront, hback⟩⟩

theorem takes_cons {c : Char} (hc : isNumeralChar c = true) (rest : List Char) :
    Takes (c :: rest) rest := ⟨[c], rfl, by simpa using hc⟩

theorem takes_span {cs ds rest : List Char} (h : cs.span Char.isDigit = (ds, rest)) :
    Takes cs rest := by
  rw [List.span_eq_takeWhile_dropWhile] at h
  obtain ⟨rfl, rfl⟩ := Prod.mk.inj h
  exact ⟨_, List.takeWhile_append_dropWhile.symm, fun c hc =>
    isNumeralChar_of_isDigit (List.all_eq_true.1 List.all_takeWhile c hc)⟩

theorem takes_readWhole? {cs ds rest : List Char} (h : readWhole? cs = some (ds, rest)) :
    Takes cs rest := by
  unfold readWhole? at h
  split at h
  · cases h
  · cases h
  · next hspan =>
    cases h
    exact takes_span hspan

theorem takes_readFraction? {cs rest : List Char} {o : Option (List Char)}
    (h : readFraction? cs = some (o, rest)) : Takes cs rest := by
  unfold readFraction? at h
  split at h
  · split at h
    · cases h
    · next hspan =>
      cases h
      exact (takes_cons (by decide) _).trans (takes_span hspan)
  · cases h
    exact .refl _

theorem takes_readPower? {cs rest : List Char} {o : Option Int}
    (h : readPower? cs = some (o, rest)) : Takes cs rest := by
  unfold readPower? at h
  split at h
  · next c cs =>
    split at h
    · next hc =>
      have hmark : Takes (c :: cs) cs := takes_cons (by
        rcases Bool.or_eq_true _ _ ▸ hc with hc | hc <;> simp [isNumeralChar, hc]) cs
      split at h
      next negative ds heq =>
      have hsign : Takes cs ds := by
        split at heq <;> cases heq
        · exact takes_cons (by decide) _
        · exact takes_cons (by decide) _
        · exact .refl _
      split at h
      · cases h
      · next hspan =>
        cases h
        exact (hmark.trans hsign).trans (takes_span hspan)
    · cases h
      exact .refl _
  · cases h
    exact .refl _

theorem takes_readMagnitude? {negative : Bool} {cs rest : List Char} {n : Numeral}
    (h : readMagnitude? negative cs = some (n, rest)) : Takes cs rest := by
  obtain ⟨⟨whole, cs₁⟩, hwhole, h⟩ := Option.bind_eq_some_iff.1 h
  obtain ⟨⟨fraction, cs₂⟩, hfraction, h⟩ := Option.bind_eq_some_iff.1 h
  obtain ⟨⟨power, cs₃⟩, hpower, h⟩ := Option.bind_eq_some_iff.1 h
  have htakes := ((takes_readWhole? hwhole).trans (takes_readFraction? hfraction)).trans
    (takes_readPower? hpower)
  suffices hrest : rest = cs₃ from hrest ▸ htakes
  dsimp only at h
  split at h
  · split at h
    · cases h
      rfl
    · obtain ⟨x, -, h⟩ := Option.bind_eq_some_iff.1 h
      cases h
      rfl
  · obtain ⟨x, -, h⟩ := Option.bind_eq_some_iff.1 h
    cases h
    rfl

/-- **A number** is read from characters of numbers only. -/
theorem takes_readNumeral? {cs rest : List Char} {n : Numeral}
    (h : readNumeral? cs = some (n, rest)) : Takes cs rest := by
  unfold readNumeral? at h
  split at h
  · exact (takes_cons (by decide) _).trans (takes_readMagnitude? h)
  · exact takes_readMagnitude? h

/-! ## Where values end -/

/-- What follows a printed value: a comma or a line end. -/
def Stops (rest : List Char) : Prop := ∃ c more, rest = c :: more ∧ (c = ',' ∨ c = '\n')

/-- A text that starts inside a number. -/
def Cut (rest : List Char) : Prop := ∃ c more, rest = c :: more ∧ isNumeralChar c = true

/-- A printed number is read to its end, or some of it is left. -/
theorem eq_or_cut_of_takes {front rest rest' : List Char} (hstops : Stops rest)
    (h : Takes (front ++ rest) rest') (hfront : ∀ c ∈ front, isNumeralChar c = true) :
    rest' = rest ∨ Cut rest' := by
  obtain ⟨taken, heq, htaken⟩ := h
  obtain ⟨c, more, rfl, hc⟩ := hstops
  have hstop : isNumeralChar c = false := by rcases hc with rfl | rfl <;> decide
  rcases List.append_eq_append_iff.1 heq with ⟨between, rfl, hrest⟩ | ⟨between, rfl, rfl⟩
  · cases between with
    | nil => exact .inl hrest.symm
    | cons d between =>
      obtain ⟨rfl, -⟩ := List.cons.inj hrest
      rw [htaken c (by simp)] at hstop
      cases hstop
  · cases between with
    | nil => exact .inl rfl
    | cons d between => exact .inr ⟨d, _, rfl, hfront d (by simp)⟩

theorem skipBlanks_append {lead : List Char} (h : ∀ c ∈ lead, isBlank c = true) (cs : List Char) :
    skipBlanks (lead ++ cs) = skipBlanks cs := by
  induction lead with
  | nil => rfl
  | cons c lead ih =>
    rw [skipBlanks, List.cons_append, List.dropWhile_cons_of_pos (h c List.mem_cons_self)]
    exact ih fun d hd => h d (List.mem_cons_of_mem _ hd)

theorem skipBlanks_cons {c : Char} (h : isBlank c = false) (cs : List Char) :
    skipBlanks (c :: cs) = c :: cs := List.dropWhile_cons_of_neg (by simp [h])

theorem isBlank_of_isNumeralChar {c : Char} (h : isNumeralChar c = true) : isBlank c = false := by
  by_contra hblank
  rw [Bool.not_eq_false] at hblank
  simp only [isBlank, Bool.or_eq_true, beq_iff_eq] at hblank
  rcases hblank with ((rfl | rfl) | rfl) | rfl <;> exact absurd h (by decide)

theorem cut_skipBlanks {rest : List Char} (h : Cut rest) : Cut (skipBlanks rest) := by
  obtain ⟨c, more, rfl, hc⟩ := h
  rw [skipBlanks_cons (isBlank_of_isNumeralChar hc)]
  exact ⟨c, more, rfl, hc⟩

/-- A printed value starts with a mark of its own: no blank and no bracket that
closes. -/
theorem chars_start (indent : List Char) (v : Json) :
    ∃ c cs, v.chars indent = c :: cs ∧ isBlank c = false ∧ c ≠ ']' := by
  cases v with
  | null => exact ⟨_, _, rfl, by decide⟩
  | bool b => cases b <;> exact ⟨_, _, rfl, by decide⟩
  | number n =>
    obtain ⟨hall, hne⟩ := isNumeralChar_chars n
    obtain ⟨c, cs, hcs⟩ := List.exists_cons_of_ne_nil hne
    have hc := hall c (hcs ▸ List.mem_cons_self)
    refine ⟨c, cs, hcs, isBlank_of_isNumeralChar hc, ?_⟩
    rintro rfl
    exact absurd hc (by decide)
  | string s => exact ⟨_, _, rfl, by decide⟩
  | array items => cases items <;> exact ⟨_, _, rfl, by decide⟩
  | object members => cases members <;> exact ⟨_, _, rfl, by decide⟩

/-! ## Values -/

mutual

/-- A value without its numbers and other constants: its strings, arrays and objects. -/
def outline : Json → Json
  | .array items => .array (outlineItems items)
  | .object members => .object (outlineMembers members)
  | .string s => .string s
  | .null => .null
  | .bool _ => .null
  | .number _ => .null
termination_by structural v => v

/-- The outlines of the items of an array. -/
def outlineItems : List Json → List Json
  | [] => []
  | item :: rest => outline item :: outlineItems rest
termination_by structural items => items

/-- The outlines of the members of an object. -/
def outlineMembers : List (String × Json) → List (String × Json)
  | [] => []
  | m :: rest => outlineMember m :: outlineMembers rest
termination_by structural members => members

/-- One member, with the outline of its value. -/
def outlineMember : String × Json → String × Json
  | (name, value) => (name, outline value)
termination_by structural m => m

end

/-- What is read from a printed value has its outline, and reading stops behind it or inside of a
number. -/
def Rereads (v : Json) : Prop :=
  ∀ (depth : Nat) (indent rest rest' : List Char) (w : Json), (∀ c ∈ indent, isBlank c = true) →
    Stops rest → readValue? depth (v.chars indent ++ rest) = some (w, rest') →
    (rest' = rest ∧ w.outline = v.outline) ∨ Cut rest'

theorem Cut.not_cons {c : Char} {rest more : List Char} (h : Cut rest)
    (hc : isNumeralChar c = false) : skipBlanks rest ≠ c :: more := by
  obtain ⟨d, others, hd, hnumeral⟩ := cut_skipBlanks h
  rw [hd]
  intro heq
  obtain ⟨rfl, -⟩ := List.cons.inj heq
  rw [hnumeral] at hc
  cases hc

/-- The characters between a value and the end of its array or object. -/
theorem skipBlanks_close {indent : List Char} (h : ∀ c ∈ indent, isBlank c = true) {c : Char}
    (hc : isBlank c = false) (rest : List Char) :
    skipBlanks ('\n' :: (indent ++ c :: rest)) = c :: rest := by
  rw [← List.cons_append, skipBlanks_append (List.forall_mem_cons.2 ⟨by decide, h⟩),
    skipBlanks_cons hc]

/-- A value at the start of a line. -/
theorem Rereads.line {v w : Json} (h : Rereads v) {depth : Nat} (lead : List Char)
    {indent rest rest' : List Char} (hlead : ∀ c ∈ lead, isBlank c = true)
    (hindent : ∀ c ∈ indent, isBlank c = true) (hstops : Stops rest)
    (hread : readValue? depth (skipBlanks (lead ++ (v.chars indent ++ rest))) = some (w, rest')) :
    (rest' = rest ∧ w.outline = v.outline) ∨ Cut rest' := by
  obtain ⟨c, cs, hcs, hc, -⟩ := chars_start indent v
  rw [skipBlanks_append hlead, hcs, List.cons_append, skipBlanks_cons hc, ← List.cons_append,
    ← hcs] at hread
  exact h _ _ _ _ _ hindent hstops hread

/-- One round of reading items, the first of which is a printed one: it is read, and a bracket or a
comma with more items stands behind it. -/
theorem Rereads.items_round {v : Json} (hv : Rereads v) {depth rounds : Nat}
    {lead indent rest rest' : List Char} {items : List Json} (hlead : ∀ c ∈ lead, isBlank c = true)
    (hindent : ∀ c ∈ indent, isBlank c = true) (hstops : Stops rest)
    (h : readItems? (readValue? depth) rounds (lead ++ (v.chars indent ++ rest)) =
      some (items, rest')) :
    ∃ before item, item.outline = v.outline ∧
      ((skipBlanks rest = ']' :: rest' ∧ items = [item]) ∨
        ∃ others more, skipBlanks rest = ',' :: more ∧
          readItems? (readValue? depth) before more = some (others, rest') ∧
          items = item :: others) := by
  cases rounds with
  | zero => cases h
  | succ before =>
    rw [readItems?] at h
    split at h
    · cases h
    next item after hread =>
    have hafter := hv.line lead hlead hindent hstops hread
    split at h
    · next hclose =>
      cases h
      rcases hafter with ⟨rfl, houtline⟩ | hcut
      · exact ⟨before, item, houtline, .inl ⟨hclose, rfl⟩⟩
      · exact absurd hclose (hcut.not_cons (by decide))
    · next more hcomma =>
      obtain ⟨⟨others, rest'⟩, hmore, heq⟩ := Option.map_eq_some_iff.1 h
      cases heq
      rcases hafter with ⟨rfl, houtline⟩ | hcut
      · exact ⟨before, item, houtline, .inr ⟨others, more, hcomma, hmore, rfl⟩⟩
      · exact absurd hcomma (hcut.not_cons (by decide))
    · cases h

theorem stops_items (inner : List Char) (more : List Json) (rest : List Char) :
    Stops (itemsChars inner more ++ '\n' :: rest) := by
  cases more with
  | nil => exact ⟨_, _, rfl, .inr rfl⟩
  | cons next more => exact ⟨_, _, rfl, .inl rfl⟩

/-- **Items** of a printed array. -/
theorem rereads_items {depth : Nat} (lead : List Char) {indent inner rest rest' : List Char}
    {first : Json} {more items : List Json} {rounds : Nat}
    (hindent : ∀ c ∈ indent, isBlank c = true) (hinner : ∀ c ∈ inner, isBlank c = true) (hlead : ∀ c ∈ lead, isBlank c = true)
    (hitems : ∀ v ∈ first :: more, Rereads v)
    (h : readItems? (readValue? depth) rounds (lead ++ (first.chars inner ++
      (itemsChars inner more ++ '\n' :: (indent ++ ']' :: rest)))) = some (items, rest')) :
    rest' = rest ∧ outlineItems items = outlineItems (first :: more) := by
  induction more generalizing first items rounds lead with
  | nil =>
    obtain ⟨before, item, houtline, h⟩ :=
      (hitems first List.mem_cons_self).items_round hlead hinner (stops_items _ _ _) h
    rw [itemsChars, List.nil_append, skipBlanks_close hindent (by decide)] at h
    rcases h with ⟨hclose, rfl⟩ | ⟨others, more, hcomma, -, -⟩
    · exact ⟨(List.cons.inj hclose).2.symm, congrArg (· :: []) houtline⟩
    · exact absurd (List.cons.inj hcomma).1 (by decide)
  | cons next more ih =>
    obtain ⟨before, item, houtline, h⟩ :=
      (hitems first List.mem_cons_self).items_round hlead hinner (stops_items _ _ _) h
    rw [itemsChars, List.cons_append, skipBlanks_cons (by decide)] at h
    rcases h with ⟨hclose, -⟩ | ⟨others, more, hcomma, hmore, rfl⟩
    · exact absurd (List.cons.inj hclose).1 (by decide)
    · obtain ⟨-, rfl⟩ := List.cons.inj hcomma
      rw [List.cons_append, List.append_assoc, List.append_assoc, ← List.cons_append] at hmore
      obtain ⟨rfl, hothers⟩ := ih _ (List.forall_mem_cons.2 ⟨by decide, hinner⟩)
        (fun v hv => hitems v (List.mem_cons_of_mem _ hv)) hmore
      exact ⟨rfl, by rw [outlineItems, outlineItems, houtline, hothers]⟩

/-- A printed member: its name is read, and its value as it is alone. -/
theorem Rereads.member {name : String} {v : Json} (hv : Rereads v) {depth : Nat}
    {lead indent rest rest' : List Char} {m : String × Json} (hlead : ∀ c ∈ lead, isBlank c = true)
    (hindent : ∀ c ∈ indent, isBlank c = true) (hstops : Stops rest)
    (h : readMember? (readValue? depth)
      (skipBlanks (lead ++ (memberChars indent (name, v) ++ rest))) = some (m, rest')) :
    (rest' = rest ∧ outlineMember m = outlineMember (name, v)) ∨ Cut rest' := by
  rw [skipBlanks_append hlead, memberChars, stringChars, List.cons_append, List.cons_append,
    skipBlanks_cons (by decide), readMember?] at h
  simp only [List.append_assoc, List.cons_append, List.nil_append, readString?_stringChars,
    skipBlanks_cons (show isBlank ':' = false by decide)] at h
  obtain ⟨⟨w, rest''⟩, hread, heq⟩ := Option.map_eq_some_iff.1 h
  cases heq
  have hlead : ∀ c ∈ [' '], isBlank c = true := List.all_eq_true.1 (by decide)
  refine (hv.line [' '] hlead hindent hstops hread).imp_left fun ⟨hrest, houtline⟩ => ⟨hrest, ?_⟩
  rw [outlineMember, outlineMember, String.ofList_toList, houtline]

/-- One round of reading members, as for items. -/
theorem Rereads.members_round {name : String} {v : Json} (hv : Rereads v) {depth rounds : Nat}
    {lead indent rest rest' : List Char} {members : List (String × Json)}
    (hlead : ∀ c ∈ lead, isBlank c = true) (hindent : ∀ c ∈ indent, isBlank c = true)
    (hstops : Stops rest)
    (h : readMembers? (readValue? depth) rounds
      (lead ++ (memberChars indent (name, v) ++ rest)) = some (members, rest')) :
    ∃ before m, outlineMember m = outlineMember (name, v) ∧
      ((skipBlanks rest = '\x7d' :: rest' ∧ members = [m]) ∨
        ∃ others more, skipBlanks rest = ',' :: more ∧
          readMembers? (readValue? depth) before more = some (others, rest') ∧
          members = m :: others) := by
  cases rounds with
  | zero => cases h
  | succ before =>
    rw [readMembers?] at h
    split at h
    · cases h
    next m after hread =>
    have hafter := hv.member hlead hindent hstops hread
    split at h
    · next hclose =>
      cases h
      rcases hafter with ⟨rfl, houtline⟩ | hcut
      · exact ⟨before, m, houtline, .inl ⟨hclose, rfl⟩⟩
      · exact absurd hclose (hcut.not_cons (by decide))
    · next more hcomma =>
      obtain ⟨⟨others, rest'⟩, hmore, heq⟩ := Option.map_eq_some_iff.1 h
      cases heq
      rcases hafter with ⟨rfl, houtline⟩ | hcut
      · exact ⟨before, m, houtline, .inr ⟨others, more, hcomma, hmore, rfl⟩⟩
      · exact absurd hcomma (hcut.not_cons (by decide))
    · cases h

theorem stops_members (inner : List Char) (more : List (String × Json)) (rest : List Char) :
    Stops (membersChars inner more ++ '\n' :: rest) := by
  cases more with
  | nil => exact ⟨_, _, rfl, .inr rfl⟩
  | cons next more => exact ⟨_, _, rfl, .inl rfl⟩

/-- **Members** of a printed object. -/
theorem rereads_members {depth : Nat} (lead : List Char) {indent inner rest rest' : List Char}
    {first : String × Json} {more members : List (String × Json)} {rounds : Nat}
    (hindent : ∀ c ∈ indent, isBlank c = true) (hinner : ∀ c ∈ inner, isBlank c = true)
    (hlead : ∀ c ∈ lead, isBlank c = true) (hmembers : ∀ m ∈ first :: more, Rereads m.2)
    (h : readMembers? (readValue? depth) rounds (lead ++ (memberChars inner first ++
      (membersChars inner more ++ '\n' :: (indent ++ '\x7d' :: rest)))) = some (members, rest')) :
    rest' = rest ∧ outlineMembers members = outlineMembers (first :: more) := by
  induction more generalizing first members rounds lead with
  | nil =>
    obtain ⟨before, m, houtline, h⟩ :=
      (hmembers first List.mem_cons_self).members_round hlead hinner (stops_members _ _ _) h
    rw [membersChars, List.nil_append, skipBlanks_close hindent (by decide)] at h
    rcases h with ⟨hclose, rfl⟩ | ⟨others, more, hcomma, -, -⟩
    · exact ⟨(List.cons.inj hclose).2.symm, congrArg (· :: []) houtline⟩
    · exact absurd (List.cons.inj hcomma).1 (by decide)
  | cons next more ih =>
    obtain ⟨before, m, houtline, h⟩ :=
      (hmembers first List.mem_cons_self).members_round hlead hinner (stops_members _ _ _) h
    rw [membersChars, List.cons_append, skipBlanks_cons (by decide)] at h
    rcases h with ⟨hclose, -⟩ | ⟨others, more, hcomma, hmore, rfl⟩
    · exact absurd (List.cons.inj hclose).1 (by decide)
    · obtain ⟨-, rfl⟩ := List.cons.inj hcomma
      rw [List.cons_append, List.append_assoc, List.append_assoc, ← List.cons_append] at hmore
      obtain ⟨rfl, hothers⟩ := ih _ (List.forall_mem_cons.2 ⟨by decide, hinner⟩)
        (fun v hv => hmembers v (List.mem_cons_of_mem _ hv)) hmore
      exact ⟨rfl, by rw [outlineMembers, outlineMembers, houtline, hothers]⟩

/-! ## Scalars -/

/-- What starts no array and no object is a scalar at every depth. -/
theorem readValue?_scalar {c : Char} (harray : c ≠ '[') (hobject : c ≠ '\x7b') (depth : Nat)
    (cs : List Char) : readValue? depth (c :: cs) = readScalar? (c :: cs) := by
  cases depth with
  | zero => rfl
  | succ depth =>
    rw [readValue?]
    · exact fun _ heq => harray (List.cons.inj heq).1
    · exact fun _ heq => hobject (List.cons.inj heq).1

theorem rereads_null : Rereads .null := by
  intro depth indent rest rest' w _ _ h
  rw [chars, List.cons_append, readValue?_scalar (by decide) (by decide)] at h
  cases h
  exact .inl ⟨rfl, rfl⟩

theorem rereads_bool (b : Bool) : Rereads (.bool b) := by
  intro depth indent rest rest' w _ _ h
  cases b
  all_goals
    rw [chars, List.cons_append, readValue?_scalar (by decide) (by decide)] at h
    cases h
    exact .inl ⟨rfl, rfl⟩

theorem rereads_string (s : String) : Rereads (.string s) := by
  intro depth indent rest rest' w _ _ h
  rw [chars, stringChars, List.cons_append, readValue?_scalar (by decide) (by decide),
    readScalar?, List.append_assoc, List.singleton_append, readString?_stringChars] at h
  cases h
  exact .inl ⟨rfl, by rw [outline, outline, String.ofList_toList]⟩

theorem readScalar?_numeral {c : Char} (h : isNumeralChar c = true) (cs : List Char) :
    readScalar? (c :: cs) = (readNumeral? (c :: cs)).map fun (n, rest) => (.number n, rest) := by
  unfold readScalar?
  split
  · next heq => exact absurd ((List.cons.inj heq).1 ▸ h) (by decide)
  · next heq => exact absurd ((List.cons.inj heq).1 ▸ h) (by decide)
  · next heq => exact absurd ((List.cons.inj heq).1 ▸ h) (by decide)
  · next heq => exact absurd ((List.cons.inj heq).1 ▸ h) (by decide)
  · rfl

theorem rereads_number (n : Numeral) : Rereads (.number n) := by
  intro depth indent rest rest' w _ hstops h
  obtain ⟨hall, hne⟩ := isNumeralChar_chars n
  obtain ⟨c, cs, hcs⟩ := List.exists_cons_of_ne_nil hne
  have hc := hall c (hcs ▸ List.mem_cons_self)
  have hscalar : readValue? depth (n.chars ++ rest) =
      (readNumeral? (n.chars ++ rest)).map fun (n, rest) => (.number n, rest) := by
    rw [hcs, List.cons_append, readValue?_scalar, readScalar?_numeral hc]
    all_goals
      rintro rfl
      exact absurd hc (by decide)
  rw [chars, hscalar] at h
  obtain ⟨⟨m, more⟩, hread, heq⟩ := Option.map_eq_some_iff.1 h
  cases heq
  exact (eq_or_cut_of_takes hstops (takes_readNumeral? hread) hall).imp_left fun hrest =>
    ⟨hrest, rfl⟩

/-! ## Arrays and objects -/

theorem indent_inner {indent : List Char} (h : ∀ c ∈ indent, isBlank c = true) :
    ∀ c ∈ indent ++ indentStep, isBlank c = true :=
  List.forall_mem_append.2 ⟨h, List.all_eq_true.1 (by decide)⟩

theorem readValue?_array {lead cs : List Char} (hlead : ∀ c ∈ lead, isBlank c = true)
    (hcs : ∃ c more, cs = c :: more ∧ isBlank c = false ∧ c ≠ ']') (depth : Nat) :
    readValue? (depth + 1) ('[' :: '\n' :: (lead ++ cs)) =
      (readItems? (readValue? depth) cs.length cs).map fun (items, rest) =>
        (.array items, rest) := by
  obtain ⟨c, more, rfl, hblank, hc⟩ := hcs
  rw [readValue?, skipBlanks_close hlead hblank]
  split
  · next heq => exact absurd (List.cons.inj heq).1 hc
  · rfl

theorem readValue?_object {lead cs : List Char} (hlead : ∀ c ∈ lead, isBlank c = true)
    (hcs : ∃ c more, cs = c :: more ∧ isBlank c = false ∧ c ≠ '\x7d') (depth : Nat) :
    readValue? (depth + 1) ('\x7b' :: '\n' :: (lead ++ cs)) =
      (readMembers? (readValue? depth) cs.length cs).map fun (members, rest) =>
        (.object members, rest) := by
  obtain ⟨c, more, rfl, hblank, hc⟩ := hcs
  rw [readValue?, skipBlanks_close hlead hblank]
  split
  · next heq => exact absurd (List.cons.inj heq).1 hc
  · rfl

theorem chars_array (indent rest : List Char) (first : Json) (more : List Json) :
    chars indent (.array (first :: more)) ++ rest =
      '[' :: '\n' :: ((indent ++ indentStep) ++ (chars (indent ++ indentStep) first ++
        (itemsChars (indent ++ indentStep) more ++ '\n' :: (indent ++ ']' :: rest)))) := by
  simp only [chars, List.append_assoc, List.cons_append, List.nil_append]

theorem chars_object (indent rest : List Char) (first : String × Json)
    (more : List (String × Json)) :
    chars indent (.object (first :: more)) ++ rest =
      '\x7b' :: '\n' :: ((indent ++ indentStep) ++ (memberChars (indent ++ indentStep) first ++
        (membersChars (indent ++ indentStep) more ++ '\n' :: (indent ++ '\x7d' :: rest)))) := by
  simp only [chars, List.append_assoc, List.cons_append, List.nil_append]

theorem rereads_array {items : List Json} (h : ∀ v ∈ items, Rereads v) :
    Rereads (.array items) := by
  intro depth indent rest rest' w hindent _ hread
  cases depth with
  | zero => cases items <;> cases hread
  | succ depth =>
    cases items with
    | nil =>
      cases hread
      exact .inl ⟨rfl, rfl⟩
    | cons first more =>
      have hinner := indent_inner hindent
      obtain ⟨c, cs, hcs, hblank, hclose⟩ := chars_start (indent ++ indentStep) first
      rw [chars_array, readValue?_array hinner ⟨c, _, by rw [hcs]; rfl, hblank, hclose⟩] at hread
      obtain ⟨⟨found, rest''⟩, hitems, heq⟩ := Option.map_eq_some_iff.1 hread
      cases heq
      obtain ⟨rfl, houtline⟩ := rereads_items [] hindent hinner (by simp) h hitems
      exact .inl ⟨rfl, by rw [outline, outline, houtline]⟩

theorem rereads_object {members : List (String × Json)} (h : ∀ m ∈ members, Rereads m.2) :
    Rereads (.object members) := by
  intro depth indent rest rest' w hindent _ hread
  cases depth with
  | zero => cases members <;> cases hread
  | succ depth =>
    cases members with
    | nil =>
      cases hread
      exact .inl ⟨rfl, rfl⟩
    | cons first more =>
      have hinner := indent_inner hindent
      have hstart : ∃ cs, memberChars (indent ++ indentStep) first = '"' :: cs := by
        rw [memberChars, stringChars]
        exact ⟨_, rfl⟩
      obtain ⟨cs, hcs⟩ := hstart
      rw [chars_object, readValue?_object hinner ⟨'"', _, by rw [hcs]; rfl, by decide⟩] at hread
      obtain ⟨⟨found, rest''⟩, hmembers, heq⟩ := Option.map_eq_some_iff.1 hread
      cases heq
      obtain ⟨rfl, houtline⟩ := rereads_members [] hindent hinner (by simp) h hmembers
      exact .inl ⟨rfl, by rw [outline, outline, houtline]⟩

mutual

/-- **Every value** is read with its outline. -/
theorem rereads : ∀ v : Json, Rereads v
  | .null => rereads_null
  | .bool b => rereads_bool b
  | .number n => rereads_number n
  | .string s => rereads_string s
  | .array items => rereads_array (rereads_all items)
  | .object members => rereads_object (rereads_values members)
termination_by structural v => v

theorem rereads_all : ∀ items : List Json, ∀ v ∈ items, Rereads v
  | [] => by simp
  | item :: rest => List.forall_mem_cons.2 ⟨rereads item, rereads_all rest⟩
termination_by structural items => items

theorem rereads_values : ∀ members : List (String × Json), ∀ m ∈ members, Rereads m.2
  | [] => by simp
  | m :: rest => List.forall_mem_cons.2 ⟨rereads_value m, rereads_values rest⟩
termination_by structural members => members

theorem rereads_value : ∀ m : String × Json, Rereads m.2
  | (_, v) => rereads v
termination_by structural m => m

end

/-- **What is read from a printed value** has its outline. -/
theorem outline_of_read? {v w : Json} (h : read? (v.print ++ ['\n']) = some w) :
    w.outline = v.outline := by
  unfold read? at h
  split at h
  · next u rest hread =>
    split at h
    · next hempty =>
      cases h
      rcases (rereads v).line [] (by simp) (by simp) ⟨_, _, rfl, .inr rfl⟩ hread with
        ⟨-, houtline⟩ | hcut
      · exact houtline
      · obtain ⟨c, more, heq, -⟩ := cut_skipBlanks hcut
        rw [heq] at hempty
        cases hempty
    · cases h
  · cases h

/-! ## Values with a given outline -/

theorem eq_string_of_outline {v : Json} {s : String} (h : v.outline = .string s) :
    v = .string s := by
  cases v with
  | string => exact h
  | _ => cases h

theorem eq_array_of_outline {v : Json} {items : List Json} (h : v.outline = .array items) :
    ∃ found, v = .array found ∧ outlineItems found = items := by
  cases v with
  | array found => exact ⟨found, rfl, Json.array.inj h⟩
  | _ => cases h

theorem eq_object_of_outline {v : Json} {members : List (String × Json)}
    (h : v.outline = .object members) :
    ∃ found, v = .object found ∧ outlineMembers found = members := by
  cases v with
  | object found => exact ⟨found, rfl, Json.object.inj h⟩
  | _ => cases h

theorem eq_cons_of_outlineItems {found rest : List Json} {v : Json}
    (h : outlineItems found = v :: rest) :
    ∃ w more, found = w :: more ∧ w.outline = v ∧ outlineItems more = rest := by
  cases found with
  | nil => cases h
  | cons w more => exact ⟨w, more, rfl, List.cons.inj h⟩

theorem eq_cons_of_outlineMembers {found rest : List (String × Json)} {name : String} {v : Json}
    (h : outlineMembers found = (name, v) :: rest) :
    ∃ w more, found = (name, w) :: more ∧ w.outline = v ∧ outlineMembers more = rest := by
  cases found with
  | nil => cases h
  | cons m more =>
    obtain ⟨name', w⟩ := m
    obtain ⟨hm, hmore⟩ := List.cons.inj h
    obtain ⟨rfl, hv⟩ := Prod.mk.inj hm
    exact ⟨w, more, rfl, hv, hmore⟩

end HclOverlay.Json
