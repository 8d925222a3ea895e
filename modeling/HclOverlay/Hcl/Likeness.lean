import HclOverlay.Hcl.Printer

/-!
# When two keys are alike

An entry of an object takes the place of an earlier one whose key is alike: first when the object is
read, where keys are compared as they are written, and again when it is evaluated, where only what
they say counts.

Written alike are expressions that differ in trivia only, with two exceptions: trivia between a
closing bracket and the separator before it, or inside a template keyword, is never like any other,
not even like itself, unless it is empty; and the dots of a call do not count. As to what they say,
trailing commas and separators do not count either, the dots do, and a template is its text.

* `Comparison` — the two ways to compare.
* `Expr.alike`, `Key.alike` — likeness of expressions and of keys.
-/

namespace HclOverlay.Hcl

/-- How two expressions are compared. -/
inductive Comparison where
  /-- as they are written -/
  | written
  /-- by what they say -/
  | said
  deriving DecidableEq

/-- Trivia that tells two expressions apart unless both are empty. -/
def noTrivia (a b : Trivia) : Bool := a.isEmpty && b.isEmpty

/-- Markers with a keyword are alike when they strip alike and hold no trivia. -/
def Tag.alike (a b : Tag) : Bool :=
  a.strip == b.strip && noTrivia a.before b.before && noTrivia a.after b.after

/-- The variables of two `for`s are alike when their names are. -/
def Binding.alike (a b : Binding) : Bool :=
  a.key.map Padded.item == b.key.map Padded.item && a.value.item == b.value.item

mutual

/-- Whether two expressions are alike. -/
def Expr.alike (how : Comparison) : Expr → Expr → Bool
  | .null, .null => true
  | .bool a, .bool b => a == b
  | .number a _, .number b _ => a == b
  | .string a, .string b => a == b
  | .template ps, .template qs =>
    match how with
    | .written => partsAlike how ps qs
    | .said => printTemplate ps == printTemplate qs
  | .heredoc d m ps c, .heredoc e n qs c' =>
    d == e &&
      match how with
      | .written => m == n && partsAlike how ps qs && noTrivia c c'
      | .said => m.isSome == n.isSome && printTemplate ps == printTemplate qs
  | .variable a, .variable b => a == b
  | .list as comma c, .list bs comma' c' =>
    itemsAlike how as bs && (how == .said || comma == comma' && noTrivia c c')
  | .object as c, .object bs c' =>
    as.length == bs.length && entriesAlike how as bs && (how == .said || noTrivia c c')
  | .parens a, .parens b => paddedAlike how a b
  | .unary o _ a, .unary o' _ b => o == o' && a.alike how b
  | .binary a o b, .binary a' o' b' => a.alike how a' && o.item == o'.item && b.alike how b'
  | .conditional t _ y _ n, .conditional t' _ y' _ n' =>
    t.alike how t' && paddedAlike how y y' && n.alike how n'
  | .call f as e c, .call f' as' e' c' =>
    f.map Padded.item == f'.map Padded.item && itemsAlike how as as' &&
      match how with
      | .written => (e == .comma) == (e' == .comma) && noTrivia c c'
      | .said => (e == .expand) == (e' == .expand)
  | .access a _ ss, .access b _ ts => a.alike how b && stepsAlike how ss ts
  | .forList _ x s v c, .forList _ x' s' v' c' =>
    x.alike x' && paddedAlike how s s' && paddedAlike how v v' && conditionAlike how c c'
  | .forObject _ x s k v g c, .forObject _ x' s' k' v' g' c' =>
    x.alike x' && paddedAlike how s s' && paddedAlike how k k' && paddedAlike how v v' &&
      g.isSome == g'.isSome && conditionAlike how c c'
  | _, _ => false
termination_by structural e => e

/-- Expressions with trivia around them are alike when the expressions are. -/
def paddedAlike (how : Comparison) : Padded Expr → Padded Expr → Bool
  | ⟨_, a, _⟩, ⟨_, b, _⟩ => a.alike how b
termination_by structural p => p

/-- Lists of expressions are alike item by item. -/
def itemsAlike (how : Comparison) : List (Padded Expr) → List (Padded Expr) → Bool
  | [], [] => true
  | a :: as, b :: bs => paddedAlike how a b && itemsAlike how as bs
  | _, _ => false
termination_by structural as => as

/-- Conditions are alike when both are missing or their tests are alike. -/
def conditionAlike (how : Comparison) : Option (Padded Expr) → Option (Padded Expr) → Bool
  | none, none => true
  | some a, some b => paddedAlike how a b
  | _, _ => false
termination_by structural o => o

/-- Whether two object keys are alike. A name is never like an expression. -/
def Key.alike (how : Comparison) : Key → Key → Bool
  | .name a, .name b => a == b
  | .expr a, .expr b => a.alike how b
  | _, _ => false
termination_by structural k => k

/-- Keys with trivia around them are alike when the keys are. -/
def paddedKeyAlike (how : Comparison) : Padded Key → Padded Key → Bool
  | ⟨_, a, _⟩, ⟨_, b, _⟩ => a.alike how b
termination_by structural p => p

/-- Entries are alike in key and value, and as they are written also in separator and end. -/
def Item.alike (how : Comparison) : Item → Item → Bool
  | ⟨k, colon, v, e⟩, ⟨k', colon', v', e'⟩ =>
    paddedKeyAlike how k k' && paddedAlike how v v' &&
      (how == .said || colon == colon' && e == e')
termination_by structural i => i

/-- Every entry on the left is like some entry on the right. -/
def entriesAlike (how : Comparison) : List Item → List Item → Bool
  | [], _ => true
  | a :: as, bs => bs.any (a.alike how ·) && entriesAlike how as bs
termination_by structural as => as

/-- Steps are alike when they lead to the same place. -/
def Step.alike (how : Comparison) : Step → Step → Bool
  | .attr _ a, .attr _ b => a == b
  | .position _ i, .position _ j => i == j
  | .index a, .index b => paddedAlike how a b
  | .attrSplat _, .attrSplat _ => true
  | .fullSplat .., .fullSplat .. => true
  | _, _ => false
termination_by structural s => s

/-- Rows of steps are alike step by step. -/
def stepsAlike (how : Comparison) : List Step → List Step → Bool
  | [], [] => true
  | a :: as, b :: bs => a.alike how b && stepsAlike how as bs
  | _, _ => false
termination_by structural as => as

/-- Whether two pieces of templates are written alike. -/
def Part.alike (how : Comparison) : Part → Part → Bool
  | .literal a, .literal b => a == b
  | .interpolation s a, .interpolation s' b => s == s' && paddedAlike how a b
  | .choice s g t y o c, .choice s' g' t' y' o' c' =>
    s == s' && noTrivia g g' && paddedAlike how t t' && partsAlike how y y' &&
      otherwiseAlike how o o' && c.alike c'
  | .loop s g x e b c, .loop s' g' x' e' b' c' =>
    s == s' && noTrivia g g' && x.alike x' && paddedAlike how e e' && partsAlike how b b' &&
      c.alike c'
  | _, _ => false
termination_by structural p => p

/-- Templates are alike piece by piece. -/
def partsAlike (how : Comparison) : List Part → List Part → Bool
  | [], [] => true
  | a :: as, b :: bs => a.alike how b && partsAlike how as bs
  | _, _ => false
termination_by structural as => as

/-- The `else` parts of two conditional pieces are alike when both are missing or both are
alike. -/
def otherwiseAlike (how : Comparison) : Option (Tag × List Part) → Option (Tag × List Part) → Bool
  | none, none => true
  | some a, some b => branchAlike how a b
  | _, _ => false
termination_by structural o => o

/-- Markers `else` are alike with the text under them. -/
def branchAlike (how : Comparison) : Tag × List Part → Tag × List Part → Bool
  | (tag, ps), (tag', qs) => tag.alike tag' && partsAlike how ps qs
termination_by structural b => b

end

/-- Keys are equal when they say the same. -/
instance : BEq Key := ⟨Key.alike .said⟩

end HclOverlay.Hcl
