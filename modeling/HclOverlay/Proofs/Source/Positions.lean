import HclOverlay.Proofs.Source.Spans
import Mathlib.Data.List.Induction
import Mathlib.Data.Prod.Lex
import Mathlib.Order.Bounds.Defs

/-!
# Positions, character by character

A position is computed from a prefix of the source as a whole: its line feeds are counted, and so are
the characters behind the last of them. An editor gets there by walking over the prefix, one
character after the other. Both agree, and because a walk only ever goes forward, positions tell
offsets apart.

* `Position.start`, `Position.advance` — where a walk starts and what one character does.
* `Position.place` — positions in the order of reading: by line, then by column.
* `foldl_advance` — **a walk** ends where the whole prefix says, by induction on its last step.
* `isGreatest_takeBytes` — the prefix of an offset ends at the greatest boundary up to it.
* `ofOffset_walks` — the position of **every offset** is where the walk to its boundary ends, and
  positions grow with boundaries.
-/

namespace HclOverlay.Source

open String.Pos.Raw (isValid_iff_exists_append)

/-! ## Walking over a text -/

namespace Position

/-- Where a text starts. -/
def start : Position := ⟨1, 1⟩

/-- The position behind one more character: a line feed opens a new line. -/
def advance (p : Position) (c : Char) : Position :=
  if c = '\n' then ⟨p.line + 1, 1⟩ else ⟨p.line, p.column + 1⟩

/-- Where a position comes in the order of reading. -/
def place (p : Position) : Lex (Nat × Nat) := toLex (p.line, p.column)

/-- A step goes forward. -/
theorem place_lt_advance (p : Position) (c : Char) : p.place < (p.advance c).place := by
  rw [place, place, Prod.Lex.toLex_lt_toLex, advance]
  split
  · exact .inl (Nat.lt_succ_self p.line)
  · exact .inr ⟨rfl, Nat.lt_succ_self p.column⟩

/-- A walk of at least one step goes forward. -/
theorem place_lt_foldl_advance (p : Position) {cs : List Char} (h : cs ≠ []) :
    p.place < (cs.foldl advance p).place := by
  induction cs using List.reverseRecOn with
  | nil => exact absurd rfl h
  | append_singleton cs c ih =>
    rw [List.foldl_append, List.foldl_cons, List.foldl_nil]
    have hstep := place_lt_advance (cs.foldl advance p) c
    rcases eq_or_ne cs [] with rfl | hne
    · exact hstep
    · exact (ih hne).trans hstep

end Position

theorem lastLine_concat (cs : List Char) (c : Char) :
    lastLine (cs ++ [c]) = if c = '\n' then [] else lastLine cs ++ [c] := by
  rw [lastLine, List.reverse_append, List.reverse_singleton, List.singleton_append,
    List.takeWhile_cons]
  by_cases hc : c = '\n' <;> simp [hc, lastLine]

/-- **A walk** over a text ends in the line after its line feeds, behind the characters of its last
line. -/
theorem foldl_advance (cs : List Char) :
    cs.foldl Position.advance .start = ⟨cs.count '\n' + 1, (lastLine cs).length + 1⟩ := by
  -- the last character alone decides whether the last line goes on or starts anew
  induction cs using List.reverseRecOn with
  | nil => rfl
  | append_singleton cs c ih =>
    rw [List.foldl_append, ih, List.foldl_cons, List.foldl_nil, Position.advance, lastLine_concat,
      List.count_append, List.count_singleton]
    by_cases hc : c = '\n' <;> simp [hc]

/-! ## Boundaries -/

theorem utf8ByteSize_ofList (cs : List Char) : (String.ofList cs).utf8ByteSize = byteSize cs := by
  induction cs with
  | nil => rfl
  | cons c cs ih =>
    have hcons : String.ofList (c :: cs) = String.singleton c ++ String.ofList cs := by
      rw [String.singleton_eq_ofList, ← String.ofList_append, List.singleton_append]
    rw [hcons, String.utf8ByteSize_append, String.utf8ByteSize_singleton, ih, byteSize_cons]

theorem byteSize_toList (s : String) : byteSize s.toList = s.utf8ByteSize := by
  rw [← utf8ByteSize_ofList, String.ofList_toList]

/-- A boundary between characters is the size of a prefix. -/
theorem isValid_iff_exists_byteSize {source : String} {b : Nat} :
    (⟨b⟩ : String.Pos.Raw).IsValid source ↔
      ∃ front back, source.toList = front ++ back ∧ byteSize front = b := by
  rw [isValid_iff_exists_append]
  constructor
  · rintro ⟨s, t, rfl, hb⟩
    refine ⟨s.toList, t.toList, String.toList_append, ?_⟩
    rw [byteSize_toList]
    exact (congrArg String.Pos.Raw.byteIdx hb).symm
  · rintro ⟨front, back, hsplit, rfl⟩
    refine ⟨String.ofList front, String.ofList back, ?_, String.Pos.Raw.ext ?_⟩
    · rw [← String.ofList_append, ← hsplit, String.ofList_toList]
    · rw [String.byteIdx_rawEndPos, utf8ByteSize_ofList]

theorem takeBytes_prefix (n : Nat) (cs : List Char) : takeBytes n cs <+: cs := by
  induction cs generalizing n with
  | nil => exact List.prefix_refl []
  | cons c cs ih =>
    rw [takeBytes]
    split
    · exact (List.prefix_cons_inj c).2 (ih _)
    · exact List.nil_prefix

theorem byteSize_takeBytes_le (n : Nat) (cs : List Char) : byteSize (takeBytes n cs) ≤ n := by
  induction cs generalizing n with
  | nil => exact Nat.zero_le n
  | cons c cs ih =>
    rw [takeBytes]
    split
    · next hc =>
      have hrest := ih (n - c.utf8Size)
      rw [byteSize_cons]
      omega
    · exact Nat.zero_le n

/-- A prefix that fits is taken as a whole. -/
theorem takeBytes_of_le {front : List Char} {n : Nat} (h : byteSize front ≤ n) (back : List Char) :
    takeBytes n (front ++ back) = front ++ takeBytes (n - byteSize front) back := by
  obtain ⟨k, rfl⟩ := Nat.exists_eq_add_of_le h
  rw [takeBytes_append, Nat.add_sub_cancel_left]

/-- The prefix of an offset ends at the greatest boundary that neither the offset nor the text
exceeds. -/
theorem isGreatest_takeBytes (source : String) (o : Nat) :
    IsGreatest {b | (⟨b⟩ : String.Pos.Raw).IsValid source ∧ b ≤ min o source.utf8ByteSize}
      (byteSize (takeBytes o source.toList)) := by
  obtain ⟨back, hback⟩ := takeBytes_prefix o source.toList
  have hsize : byteSize (takeBytes o source.toList) ≤ source.utf8ByteSize := by
    have hsum := congrArg byteSize hback
    rw [byteSize_append, byteSize_toList] at hsum
    omega
  refine ⟨⟨isValid_iff_exists_byteSize.2 ⟨_, back, hback.symm, rfl⟩,
    le_min (byteSize_takeBytes_le o _) hsize⟩, ?_⟩
  rintro b ⟨hvalid, hb⟩
  obtain ⟨front, rest, hsplit, rfl⟩ := isValid_iff_exists_byteSize.1 hvalid
  rw [hsplit, takeBytes_of_le (hb.trans (min_le_left _ _)), byteSize_append]
  exact Nat.le_add_right _ _

/-! ## Positions of offsets -/

theorem ofOffset_eq_foldl (source : String) (o : Nat) :
    Position.ofOffset source o = (takeBytes o source.toList).foldl Position.advance .start :=
  (foldl_advance _).symm

/-- The walk to a later boundary goes on from the walk to an earlier one. -/
theorem place_ofOffset_lt {source : String} {o o' : Nat}
    (ho : (⟨o⟩ : String.Pos.Raw).IsValid source) (ho' : (⟨o'⟩ : String.Pos.Raw).IsValid source)
    (h : o < o') : (Position.ofOffset source o).place < (Position.ofOffset source o').place := by
  obtain ⟨front, rest, hsplit, rfl⟩ := isValid_iff_exists_byteSize.1 ho
  obtain ⟨front', rest', hsplit', rfl⟩ := isValid_iff_exists_byteSize.1 ho'
  have hfront : takeBytes (byteSize front) source.toList = front := by
    rw [hsplit, takeBytes_byteSize]
  have hlonger : takeBytes (byteSize front') source.toList =
      front ++ takeBytes (byteSize front' - byteSize front) rest := by
    rw [hsplit, takeBytes_of_le h.le]
  have hmore : takeBytes (byteSize front' - byteSize front) rest ≠ [] := by
    intro hnil
    rw [hnil, List.append_nil, hsplit', takeBytes_byteSize] at hlonger
    exact absurd h (by rw [hlonger]; exact lt_irrefl _)
  rw [ofOffset_eq_foldl, ofOffset_eq_foldl, hfront, hlonger, List.foldl_append]
  exact Position.place_lt_foldl_advance _ hmore

/-- **Every offset** has the position where a walk ends that starts at line 1 and column 1 and goes
over all characters up to the greatest boundary that neither the offset nor the text exceeds. So a
later boundary has a later position, and no two boundaries share one. -/
theorem ofOffset_walks (source : String) :
    (∀ o, ∃ front back, source = front ++ back ∧
      IsGreatest {b | (⟨b⟩ : String.Pos.Raw).IsValid source ∧ b ≤ min o source.utf8ByteSize}
        front.utf8ByteSize ∧
      Position.ofOffset source o = front.toList.foldl Position.advance .start) ∧
    (∀ o o', (⟨o⟩ : String.Pos.Raw).IsValid source → (⟨o'⟩ : String.Pos.Raw).IsValid source →
      o < o' → (Position.ofOffset source o).place < (Position.ofOffset source o').place) ∧
    ∀ o o', (⟨o⟩ : String.Pos.Raw).IsValid source → (⟨o'⟩ : String.Pos.Raw).IsValid source →
      o ≠ o' → Position.ofOffset source o ≠ Position.ofOffset source o' := by
  refine ⟨fun o => ?_, fun o o' => place_ofOffset_lt, fun o o' ho ho' hne heq => ?_⟩
  · obtain ⟨back, hback⟩ := takeBytes_prefix o source.toList
    refine ⟨String.ofList (takeBytes o source.toList), String.ofList back, ?_, ?_, ?_⟩
    · rw [← String.ofList_append, hback, String.ofList_toList]
    · rw [utf8ByteSize_ofList]
      exact isGreatest_takeBytes source o
    · rw [String.toList_ofList, ofOffset_eq_foldl]
  · rcases Nat.lt_or_gt_of_ne hne with h | h
    · exact absurd (congrArg Position.place heq) (place_ofOffset_lt ho ho' h).ne
    · exact absurd (congrArg Position.place heq) (place_ofOffset_lt ho' ho h).ne'

/-- Around a line feed behind a letter of two bytes: the offset inside the letter is that of the
letter, one past the end is that of the end. -/
theorem ofOffset_walks_accent :
    let source := "é\nb"
    ((⟨0⟩ : String.Pos.Raw).IsValid source ∧ (⟨2⟩ : String.Pos.Raw).IsValid source ∧
      (⟨3⟩ : String.Pos.Raw).IsValid source ∧ ¬ (⟨1⟩ : String.Pos.Raw).IsValid source) ∧
    (∃ front back, source = front ++ back ∧
      IsGreatest {b | (⟨b⟩ : String.Pos.Raw).IsValid source ∧ b ≤ min 1 source.utf8ByteSize}
        front.utf8ByteSize ∧
      Position.ofOffset source 1 = front.toList.foldl Position.advance .start) ∧
    (Position.ofOffset source 2).place < (Position.ofOffset source 3).place ∧
    Position.ofOffset source 0 ≠ Position.ofOffset source 3 ∧
    [0, 1, 2, 3, 9].map (Position.ofOffset source) = [⟨1, 1⟩, ⟨1, 1⟩, ⟨1, 2⟩, ⟨2, 1⟩, ⟨2, 2⟩] := by
  intro source
  have hvalid : (⟨0⟩ : String.Pos.Raw).IsValid source ∧ (⟨2⟩ : String.Pos.Raw).IsValid source ∧
      (⟨3⟩ : String.Pos.Raw).IsValid source ∧ ¬ (⟨1⟩ : String.Pos.Raw).IsValid source := by
    decide
  have ⟨h₀, h₂, h₃, _⟩ := hvalid
  obtain ⟨hwalks, hgrows, htells⟩ := ofOffset_walks source
  exact ⟨hvalid, hwalks 1, hgrows 2 3 h₂ h₃ (by decide), htells 0 3 h₀ h₃ (by decide), by decide⟩

end HclOverlay.Source
