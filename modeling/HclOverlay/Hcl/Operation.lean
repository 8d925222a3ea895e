import HclOverlay.Hcl.Expr
import HclOverlay.Value.Basic

/-!
# Operations

Binary operators are read with everything to their right as the right operand, and regrouped by
their level when they are evaluated. Operators of one level group to the right: `1 - 2 - 3` is
`1 - (2 - 3)`.

* `BinaryOp.result?` — the result of one operator on two values.
* `Operation` — a tree of operators over operands.
* `Operation.regroup` — one round of regrouping, from the operands up.
* `Operation.value?` — the value of a tree: regroup it, then evaluate both sides in the same way.
-/

namespace HclOverlay.Hcl

namespace BinaryOp

/-- How tightly an operator binds. -/
def level : BinaryOp → Nat
  | .mul | .div | .rem => 6
  | .add | .sub => 5
  | .less | .lessEq | .greater | .greaterEq => 4
  | .eq | .notEq => 3
  | .and => 2
  | .or => 1

/-- A number as a value, unless it left the finite range. -/
def finite? : Number → Option Value
  | .float x => if x.isFinite then some (.number (.float x)) else none
  | n => some (.number n)

/-- The result of an operator on two numbers. -/
def onNumbers? (op : BinaryOp) (a b : Number) : Option Value :=
  match op with
  | .mul => finite? (a.mul b)
  | .div => finite? (a.div b)
  | .rem => finite? (a.rem b)
  | .add => finite? (a.add b)
  | .sub => finite? (a.sub b)
  | .less => some (.bool (a.lt b))
  | .lessEq => some (.bool (a.le b))
  | .greater => some (.bool (b.lt a))
  | .greaterEq => some (.bool (b.le a))
  | _ => none

/-- The result of an operator: equality takes any two values, arithmetic and order two numbers,
logic two booleans. -/
def result? (op : BinaryOp) (a b : Value) : Option Value :=
  match op with
  | .eq => some (.bool (a.same b))
  | .notEq => some (.bool (!a.same b))
  | .and =>
    match a, b with
    | .bool p, .bool q => some (.bool (p && q))
    | _, _ => none
  | .or =>
    match a, b with
    | .bool p, .bool q => some (.bool (p || q))
    | _, _ => none
  | _ =>
    match a, b with
    | .number m, .number n => op.onNumbers? m n
    | _, _ => none

end BinaryOp

/-- Operators over operands. -/
inductive Operation where
  | operand (value : Value)
  | apply (left : Operation) (op : BinaryOp) (right : Operation)

namespace Operation

/-- The number of operators. -/
def size : Operation → Nat
  | .operand _ => 0
  | .apply left _ right => left.size + right.size + 1

/-- `left op (c q d)`, with `op` moved inside when it binds tighter than `q`. -/
def regroupRight (left : Operation) (op : BinaryOp) (c : Operation) (q : BinaryOp)
    (d : Operation) : Operation :=
  if q.level < op.level then .apply (.apply left op c) q d else .apply left op (.apply c q d)

/-- `(a p b) op right`, with `op` moved inside when it binds tighter than `p`. -/
def regroupLeft (a : Operation) (p : BinaryOp) (b : Operation) (op : BinaryOp)
    (right : Operation) : Operation :=
  if p.level < op.level then .apply a p (.apply b op right) else .apply (.apply a p b) op right

/-- Joins two regrouped sides by an operator. -/
def join (left : Operation) (op : BinaryOp) (right : Operation) : Operation :=
  match left, right with
  | .apply a p b, .apply c q d =>
    if p.level < op.level then .apply a p (regroupRight b op c q d)
    else if q.level < op.level then .apply (regroupLeft a p b op c) q d
    else .apply (.apply a p b) op (.apply c q d)
  | .operand v, .apply c q d => regroupRight (.operand v) op c q d
  | .apply a p b, .operand w => regroupLeft a p b op (.operand w)
  | .operand v, .operand w => .apply (.operand v) op (.operand w)

/-- One round of regrouping, from the operands up. -/
def regroup : Operation → Operation
  | .operand v => .operand v
  | .apply left op right => join left.regroup op right.regroup

/-- The value of a tree of at most `rounds` operators. -/
def valueWithin : Nat → Operation → Option Value
  | _, .operand v => some v
  | 0, .apply .. => none
  | rounds + 1, t =>
    match t.regroup with
    | .operand v => some v
    | .apply left op right => do
      let a ← valueWithin rounds left
      let b ← valueWithin rounds right
      op.result? a b

/-- The value of a tree; `none` when an operator does not apply. -/
def value? (t : Operation) : Option Value := valueWithin t.size t

/-! ## Regrouping loses no operator -/

theorem size_regroupRight (left : Operation) (op : BinaryOp) (c : Operation) (q : BinaryOp)
    (d : Operation) : (regroupRight left op c q d).size = left.size + c.size + d.size + 2 := by
  unfold regroupRight
  split <;> simp only [size] <;> omega

theorem size_regroupLeft (a : Operation) (p : BinaryOp) (b : Operation) (op : BinaryOp)
    (right : Operation) : (regroupLeft a p b op right).size = a.size + b.size + right.size + 2 := by
  unfold regroupLeft
  split <;> simp only [size] <;> omega

theorem size_join (left : Operation) (op : BinaryOp) (right : Operation) :
    (join left op right).size = left.size + right.size + 1 := by
  cases left with
  | operand v =>
    cases right with
    | operand w => rfl
    | apply c q d => simp only [join, size, size_regroupRight]; omega
  | apply a p b =>
    cases right with
    | operand w => simp only [join, size, size_regroupLeft]
    | apply c q d =>
      simp only [join]
      split
      · simp only [size, size_regroupRight]; omega
      · split <;> simp only [size, size_regroupLeft]
        omega

@[simp] theorem size_regroup (t : Operation) : t.regroup.size = t.size := by
  induction t with
  | operand v => rfl
  | apply left op right ihl ihr => simp only [regroup, size_join, ihl, ihr, size]

end Operation

end HclOverlay.Hcl
