import HclOverlay.Source.Position

/-!
# Replacing spans of a text

A text in which some spans are replaced is the same text outside of them: what stands before the
first span, between two of them and behind the last one is copied byte for byte.

* `byteSize_append`, `takeBytes_append`, `dropBytes?_append` — offsets behind a known text.
* `Span.text_append` — the text of a span between two known texts.
* `replaceSpans` — the text with spans replaced; `replaceSpans_append`, `replaceSpans_cons` walk over
  text that is kept and over a span.
-/

namespace HclOverlay.Source

/-! ## Sizes in bytes -/

theorem byteSize_cons (c : Char) (cs : List Char) :
    byteSize (c :: cs) = c.utf8Size + byteSize cs := by
  have hfrom : ∀ (cs : List Char) (n : Nat),
      cs.foldl (fun n c => n + c.utf8Size) n = n + byteSize cs := by
    intro cs
    induction cs with
    | nil => exact fun n => rfl
    | cons d ds ih =>
      intro n
      rw [byteSize, List.foldl_cons, List.foldl_cons, ih, ih (0 + d.utf8Size)]
      omega
  rw [byteSize, List.foldl_cons, hfrom, Nat.zero_add]

@[simp] theorem byteSize_nil : byteSize [] = 0 := rfl

@[simp] theorem byteSize_append (a b : List Char) :
    byteSize (a ++ b) = byteSize a + byteSize b := by
  induction a with
  | nil => exact (Nat.zero_add _).symm
  | cons c a ih => rw [List.cons_append, byteSize_cons, byteSize_cons, ih, Nat.add_assoc]

/-! ## Texts up to an offset and from it on -/

@[simp] theorem takeBytes_append (a b : List Char) (n : Nat) :
    takeBytes (byteSize a + n) (a ++ b) = a ++ takeBytes n b := by
  induction a with
  | nil => rw [byteSize_nil, Nat.zero_add, List.nil_append, List.nil_append]
  | cons c a ih =>
    rw [byteSize_cons, List.cons_append, takeBytes, if_pos (by omega), List.cons_append]
    rw [show c.utf8Size + byteSize a + n - c.utf8Size = byteSize a + n by omega, ih]

theorem takeBytes_zero (cs : List Char) : takeBytes 0 cs = [] := by
  cases cs with
  | nil => rfl
  | cons c cs => rw [takeBytes, if_neg (by have := c.utf8Size_pos; omega)]

@[simp] theorem dropBytes?_append (a b : List Char) (n : Nat) :
    dropBytes? (byteSize a + n) (a ++ b) = dropBytes? n b := by
  induction a with
  | nil => rw [byteSize_nil, Nat.zero_add, List.nil_append]
  | cons c a ih =>
    have hpos := c.utf8Size_pos
    obtain ⟨m, hm⟩ : ∃ m, byteSize (c :: a) + n = m + 1 :=
      Nat.exists_eq_add_of_le' (by rw [byteSize_cons]; omega)
    rw [byteSize_cons] at hm
    rw [byteSize_cons, List.cons_append, hm, dropBytes?, if_pos (by omega)]
    rw [show m + 1 - c.utf8Size = byteSize a + n by omega, ih]

theorem dropBytes?_byteSize (a b : List Char) : dropBytes? (byteSize a) (a ++ b) = some b := by
  rw [← Nat.add_zero (byteSize a), dropBytes?_append, dropBytes?]

theorem takeBytes_byteSize (a b : List Char) : takeBytes (byteSize a) (a ++ b) = a := by
  rw [← Nat.add_zero (byteSize a), takeBytes_append, takeBytes_zero, List.append_nil]

/-- The text of a span between two others. -/
theorem Span.text_append (a core b : List Char) :
    Span.text ⟨byteSize a, byteSize a + byteSize core⟩ (a ++ (core ++ b)) = core := by
  rw [Span.text, dropBytes?_byteSize, Option.getD_some, Nat.add_sub_cancel_left]
  exact takeBytes_byteSize core b

/-! ## Replacing spans -/

/-- A text with spans replaced, which come in order and do not overlap; the text starts at offset
`start`. All that lies outside of the spans is kept. -/
def replaceSpans (start : Nat) : List (Span × List Char) → List Char → List Char
  | [], cs => cs
  | (span, new) :: more, cs =>
    takeBytes (span.start - start) cs ++
      (new ++ replaceSpans span.stop more ((dropBytes? (span.stop - start) cs).getD []))

@[simp] theorem replaceSpans_nil (start : Nat) (cs : List Char) : replaceSpans start [] cs = cs := rfl

/-- Text in front of the first span is kept. -/
theorem replaceSpans_append {edits : List (Span × List Char)} {start : Nat} (a cs : List Char)
    (h : ∀ e ∈ edits.head?, start + byteSize a ≤ e.1.start ∧ e.1.start ≤ e.1.stop) :
    replaceSpans start edits (a ++ cs) = a ++ replaceSpans (start + byteSize a) edits cs := by
  cases edits with
  | nil => rfl
  | cons e more =>
    obtain ⟨hstart, hstop⟩ := h e rfl
    have htake : e.1.start - start = byteSize a + (e.1.start - (start + byteSize a)) := by omega
    have hdrop : e.1.stop - start = byteSize a + (e.1.stop - (start + byteSize a)) := by omega
    rw [replaceSpans, replaceSpans, htake, takeBytes_append, hdrop, dropBytes?_append,
      List.append_assoc]

/-- A span that comes first is replaced. -/
theorem replaceSpans_cons (start : Nat) (core new cs : List Char)
    (more : List (Span × List Char)) :
    replaceSpans start ((⟨start, start + byteSize core⟩, new) :: more) (core ++ cs) =
      new ++ replaceSpans (start + byteSize core) more cs := by
  rw [replaceSpans, Nat.sub_self, takeBytes_zero, Nat.add_sub_cancel_left, dropBytes?_byteSize]
  rfl

end HclOverlay.Source
