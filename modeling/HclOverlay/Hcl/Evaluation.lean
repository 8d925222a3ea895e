import HclOverlay.Hcl.Operation
import HclOverlay.Hcl.Printer
import HclOverlay.Hcl.Reader.Expr
import HclOverlay.Text.Characters

/-!
# Evaluating expressions

An expression is evaluated without variables and functions; only `for` brings names into scope. Any
error at all leaves the whole expression unevaluated, so errors carry no cause here.

A template is not evaluated as it was read: each time, it is printed and its text is read again.
What was text may be a marker then, and a template may be malformed.

* `Context` — what an expression is evaluated in.
* `Expr.operation?` — the value of an expression, still as a tree of operators, because operators
  are regrouped across the operands of a parent.
* `templateWithin` — the value of a template, printed and read again.
* `Expr.evaluate?` — the value of an expression in a scope.
* `Expr.value` — the value of an expression on its own; when it has none, its text.
-/

namespace HclOverlay.Hcl

/-- The names in scope, the innermost first. -/
abbrev Scope := List (String × Value)

/-- What an expression is evaluated in. -/
structure Context where
  scope : Scope
  /-- the value of a template in a scope -/
  template : Scope → List Part → Option Value

/-! ## Values in templates and keys -/

mutual

/-- Whether no comma follows a value in a list: so it is behind an empty list or object, or behind
one that ends in such a value. -/
def dropsComma : Value → Bool
  | .list items => dropsCommaItems items
  | .object fields => dropsCommaFields fields
  | _ => false
termination_by structural v => v

/-- Whether no comma follows a list of these items. -/
def dropsCommaItems : List Value → Bool
  | [] => true
  | [last] => dropsComma last
  | _ :: rest => dropsCommaItems rest
termination_by structural items => items

/-- Whether no comma follows a field. -/
def dropsCommaField : String × Value → Bool
  | (_, value) => dropsComma value
termination_by structural field => field

/-- Whether no comma follows an object of these fields. -/
def dropsCommaFields : List (String × Value) → Bool
  | [] => true
  | [last] => dropsCommaField last
  | _ :: rest => dropsCommaFields rest
termination_by structural fields => fields

end

mutual

/-- The text of a value in a template, when it starts on a line indented by `indent`: lists and
objects take a line for each entry, and keys are quoted. -/
def dataChars (indent : List Char) : Value → List Char
  | .null => ['n', 'u', 'l', 'l']
  | .bool true => ['t', 'r', 'u', 'e']
  | .bool false => ['f', 'a', 'l', 's', 'e']
  | .number n => n.toChars
  | .string s => Quoted.quoteData s.toList
  | .unevaluated source => source.toList
  | .list [] => ['[', ']']
  | .list (first :: rest) =>
    '[' :: '\n' :: (indent ++ [' ', ' '] ++ dataChars (indent ++ [' ', ' ']) first ++
      dataItems (indent ++ [' ', ' ']) (dropsComma first) rest ++ '\n' :: (indent ++ [']']))
  | .object [] => ['{', '}']
  | .object (first :: rest) =>
    '{' :: '\n' :: (dataField (indent ++ [' ', ' ']) first ++
      dataFields (indent ++ [' ', ' ']) rest ++ '\n' :: (indent ++ ['}']))
termination_by structural v => v

/-- Further items, each on a line of its own, after a comma unless the item before drops it. -/
def dataItems (inner : List Char) (dropped : Bool) : List Value → List Char
  | [] => []
  | item :: rest =>
    (if dropped then [] else [',']) ++
      '\n' :: (inner ++ dataChars inner item ++ dataItems inner (dropsComma item) rest)
termination_by structural items => items

/-- One field on its line. -/
def dataField (inner : List Char) : String × Value → List Char
  | (key, value) =>
    inner ++ Quoted.quoteKey key.toList ++ [' ', '=', ' '] ++ dataChars inner value
termination_by structural field => field

/-- Further fields, each on a line. -/
def dataFields (inner : List Char) : List (String × Value) → List Char
  | [] => []
  | field :: rest => '\n' :: (dataField inner field ++ dataFields inner rest)
termination_by structural fields => fields

end

/-- The text of an interpolated value: strings as they are. -/
def interpolated : Value → List Char
  | .string s => s.toList
  | v => dataChars [] v

/-- The key that a value makes: strings, numbers and booleans have one. -/
def keyText? : Value → Option String
  | .string s => some s
  | .number n => some (String.ofList n.toChars)
  | .bool b => some (if b then "true" else "false")
  | _ => none

/-! ## Stripping -/

/-- Removes a line end from the front. -/
def dropLineEnd : List Char → List Char
  | '\n' :: rest => rest
  | '\r' :: '\n' :: rest => rest
  | cs => cs

/-- Removes a line end from the front of a reversed text. -/
def dropLineEndReversed : List Char → List Char
  | '\n' :: '\r' :: rest => rest
  | '\n' :: rest => rest
  | cs => cs

/-- Strips literal text next to marks: white space within the line, then one line end. -/
def stripLiteral (left right : Bool) (text : List Char) : List Char :=
  let text := if left then dropLineEnd (text.dropWhile Text.isInlineSpace) else text
  if right then
    (dropLineEndReversed (text.reverse.dropWhile Text.isInlineSpace)).reverse
  else text

/-- Whether what comes after a piece strips the text before itself. -/
def stripsLeft (last : Bool) : List Part → Bool
  | [] => last
  | .literal _ :: _ => false
  | .interpolation strip _ :: _ => strip.left
  | .choice strip .. :: _ => strip.left
  | .loop strip .. :: _ => strip.left

/-- Whether a piece strips the text after itself. -/
def stripsRight : Part → Bool
  | .literal _ => false
  | .interpolation strip _ => strip.right
  | .choice _ _ _ _ _ closing => closing.strip.right
  | .loop _ _ _ _ _ closing => closing.strip.right

/-- Whether the marker that ends the first branch of a conditional strips the text before it. -/
def branchEnd (otherwise : Option (Tag × List Part)) (closing : Tag) : Bool :=
  match otherwise with
  | some (tag, _) => tag.strip.left
  | none => closing.strip.left

/-! ## Collections -/

/-- The entries a `for` runs over: items with their positions, or fields with their keys. -/
def entriesOf? : Value → Option (List (Value × Value))
  | .list items => some (items.mapIdx fun i v => (.number (.int i), v))
  | .object fields => some (fields.map fun (k, v) => (.string k, v))
  | _ => none

/-- What one round of a `for` is evaluated in. -/
def Binding.bind (b : Binding) (ctx : Context) (entry : Value × Value) : Context :=
  let scope := (b.value.item, entry.2) :: ctx.scope
  match b.key with
  | some key =>
    { ctx with
      scope := if key.item == b.value.item then scope else (key.item, entry.1) :: scope }
  | none => { ctx with scope := scope }

/-- The elements a splat runs over: nothing for `null`, and a single value is one element. -/
def splatItems : Value → List Value
  | .null => []
  | .list items => items
  | v => [v]

/-- The item of a list at a position. -/
def itemAt? (v : Value) (i : Nat) : Option Value :=
  match v with
  | .list items => items[i]?
  | _ => none

/-- The field of an object. -/
def fieldOf? (v : Value) (name : String) : Option Value :=
  match v with
  | .object fields => Table.find? fields name
  | _ => none

/-- The element an index selects: a position of a list or a key of an object. -/
def indexed? (v index : Value) : Option Value :=
  match index with
  | .number n => n.position?.bind (itemAt? v ·)
  | .string name => fieldOf? v name
  | _ => none

/-- What the next step applies to: one value, or each element of a splat. -/
inductive Focus where
  | one (value : Value)
  | each (values : List Value)

/-- The focus as one value. -/
def Focus.value : Focus → Value
  | .one v => v
  | .each vs => .list vs

/-- Adds a field to an object of a `for`; only grouped values may share a key. -/
def addForField? (grouped : Bool) (fields : List (String × Value)) (key : String)
    (value : Value) : Option (List (String × Value)) :=
  if grouped then
    let group := match Table.find? fields key with
      | some (.list values) => values
      | _ => []
    some (Table.insert fields key (.list (group ++ [value])))
  else if Table.contains fields key then none
  else some (fields ++ [(key, value)])

/-- The fields of an object from its keys with their names and values. An entry whose key says the
same as that of an earlier one takes its place, and the earlier one need not have a value; of the
rest a later one replaces the value of an earlier one of the same name. -/
def fieldsOfEntries? (entries : List (Key × Option (String × Value))) :
    Option (List (String × Value)) :=
  (Table.ofEntries entries).foldlM (fun fields entry =>
    entry.2.map fun (name, value) => Table.insert fields name value) []

/-! ## Evaluation -/

/-- Applies a prefixed operator to a value. -/
def UnaryOp.result? : UnaryOp → Value → Option Value
  | .negate, .number n => some (.number n.neg)
  | .not, .bool b => some (.bool !b)
  | _, _ => none

mutual

/-- The value of an expression, as a tree of the operators that no parentheses enclose. -/
def Expr.operation? (ctx : Context) : Expr → Option Operation
  | .null => some (.operand .null)
  | .bool b => some (.operand (.bool b))
  | .number n _ => some (.operand (.number n))
  | .string s => some (.operand (.string s))
  | .template parts => (ctx.template ctx.scope parts).map .operand
  | .heredoc _ _ parts _ => (ctx.template ctx.scope parts).map .operand
  | .variable name => (Table.find? ctx.scope name).map .operand
  | .list items _ _ => (itemValues? ctx items).map fun vs => .operand (.list vs)
  | .object items _ =>
    (fieldsOfEntries? (entryValues ctx items)).map fun fs => .operand (.object fs)
  | .parens inner => (paddedValue? ctx inner).map .operand
  | .unary op _ operand => do
    let v ← (operand.operation? ctx).bind Operation.value?
    (op.result? v).map .operand
  | .binary left op right => do
    let a ← left.operation? ctx
    let b ← right.operation? ctx
    return .apply a op.item b
  | .conditional test _ yes _ no => do
    match ← (test.operation? ctx).bind Operation.value? with
    | .bool true => (paddedValue? ctx yes).map .operand
    | .bool false => ((no.operation? ctx).bind Operation.value?).map .operand
    | _ => none
  | .call .. => none
  | .access subject _ steps => do
    let v ← (subject.operation? ctx).bind Operation.value?
    (stepValue? ctx (.one v) steps).map .operand
  | .forList _ binding source value condition => do
    let entries ← (paddedValue? ctx source).bind entriesOf?
    let kept ← entries.filterMapM fun entry =>
      let ctx := binding.bind ctx entry
      (conditionHolds? ctx condition).bind fun holds =>
        if holds then (paddedValue? ctx value).map some else some none
    return .operand (.list kept)
  | .forObject _ binding source key value grouping condition => do
    let entries ← (paddedValue? ctx source).bind entriesOf?
    let fields ← entries.foldlM (fun fields entry =>
      let ctx := binding.bind ctx entry
      (conditionHolds? ctx condition).bind fun holds =>
        if holds then
          ((paddedValue? ctx key).bind keyText?).bind fun k =>
            (paddedValue? ctx value).bind fun v => addForField? grouping.isSome fields k v
        else some fields) []
    return .operand (.object fields)
termination_by structural e => e

/-- The value of an expression with trivia around it. -/
def paddedValue? (ctx : Context) : Padded Expr → Option Value
  | ⟨_, item, _⟩ => (item.operation? ctx).bind Operation.value?
termination_by structural p => p

/-- The values of the items of a list. -/
def itemValues? (ctx : Context) : List (Padded Expr) → Option (List Value)
  | [] => some []
  | item :: rest => do
    let v ← paddedValue? ctx item
    let vs ← itemValues? ctx rest
    return v :: vs
termination_by structural items => items

/-- Whether the condition of a `for` holds; a missing one does. -/
def conditionHolds? (ctx : Context) : Option (Padded Expr) → Option Bool
  | none => some true
  | some test => do
    match ← paddedValue? ctx test with
    | .bool b => some b
    | _ => none
termination_by structural o => o

/-- The name of an object entry. -/
def keyValue? (ctx : Context) : Key → Option String
  | .name name => some name
  | .expr e => ((e.operation? ctx).bind Operation.value?).bind keyText?
termination_by structural k => k

/-- The name of an object entry with trivia around it. -/
def paddedKey? (ctx : Context) : Padded Key → Option String
  | ⟨_, item, _⟩ => keyValue? ctx item
termination_by structural p => p

/-- The key of an object entry with its name and value. -/
def entryValue (ctx : Context) : Item → Key × Option (String × Value)
  | ⟨key, _, value, _⟩ =>
    (key.item, do
      let k ← paddedKey? ctx key
      let v ← paddedValue? ctx value
      return (k, v))
termination_by structural i => i

/-- The keys of the entries of an object with their names and values. -/
def entryValues (ctx : Context) : List Item → List (Key × Option (String × Value))
  | [] => []
  | first :: rest => entryValue ctx first :: entryValues ctx rest
termination_by structural items => items

/-- The index that a step holds, if it holds one. -/
def stepIndex? (ctx : Context) : Step → Option Value
  | .index inner => paddedValue? ctx inner
  | _ => none
termination_by structural s => s

/-- The value that steps lead to. After `.*` the names that follow at once apply to each element,
after `[*]` everything that follows does. -/
def stepValue? (ctx : Context) (focus : Focus) : List Step → Option Value
  | [] => some focus.value
  | .attr _ name :: rest => do
    match focus with
    | .one v =>
      let field ← fieldOf? v name
      stepValue? ctx (.one field) rest
    | .each vs =>
      let fields ← vs.mapM (fieldOf? · name)
      stepValue? ctx (.each fields) rest
  | .position _ i :: rest => do
    let item ← itemAt? focus.value i
    stepValue? ctx (.one item) rest
  | .attrSplat _ :: rest => stepValue? ctx (.each (splatItems focus.value)) rest
  | .fullSplat .. :: rest =>
    ((splatItems focus.value).mapM fun v => stepValue? ctx (.one v) rest).map .list
  | first :: rest => do
    let index ← stepIndex? ctx first
    let element ← indexed? focus.value index
    stepValue? ctx (.one element) rest
termination_by structural steps => steps

/-- The text of pieces; `left` and `right` tell whether what stands around them strips them. -/
def partsText? (ctx : Context) (left right : Bool) : List Part → Option (List Char)
  | [] => some []
  | first :: rest => do
    let text ← partText? ctx left (stripsLeft right rest) first
    let more ← partsText? ctx (stripsRight first) right rest
    return text ++ more
termination_by structural parts => parts

/-- The text of one piece between two neighbours. -/
def partText? (ctx : Context) (left right : Bool) : Part → Option (List Char)
  | .literal text => some (stripLiteral left right text)
  | .interpolation _ inner => (paddedValue? ctx inner).map interpolated
  | .choice strip _ test yes otherwise closing => do
    match ← paddedValue? ctx test with
    | .bool true => partsText? ctx strip.right (branchEnd otherwise closing) yes
    | .bool false => otherwiseText? ctx closing.strip.left otherwise
    | _ => none
  | .loop strip _ binding source body closing => do
    let entries ← (paddedValue? ctx source).bind entriesOf?
    let rounds ← entries.mapM fun entry =>
      partsText? (binding.bind ctx entry) strip.right closing.strip.left body
    return rounds.flatten
termination_by structural p => p

/-- The text under an `else`, nothing if there is none. -/
def otherwiseText? (ctx : Context) (right : Bool) : Option (Tag × List Part) → Option (List Char)
  | none => some []
  | some branch => branchText? ctx right branch
termination_by structural o => o

/-- The text under a marker. -/
def branchText? (ctx : Context) (right : Bool) : Tag × List Part → Option (List Char)
  | (tag, parts) => partsText? ctx tag.strip.right right parts
termination_by structural b => b

end

/-- The value of a template: a single interpolation keeps its value, anything else is text. -/
def templateValue? (ctx : Context) : List Part → Option Value
  | [.interpolation _ inner] => paddedValue? ctx inner
  | parts => (partsText? ctx false false parts).map fun text => .string (String.ofList text)

/-- The value of a template whose text holds at most `depth` templates in one another: that of its
text, read again. -/
def templateWithin : Nat → Scope → List Part → Option Value
  | 0, _, _ => none
  | depth + 1, scope, parts =>
    (readTemplate? (printTemplate parts)).bind (templateValue? ⟨scope, templateWithin depth⟩)

/-- The value of an expression in a scope; `none` when it cannot be evaluated there. The length of
its text bounds the templates in one another. -/
def Expr.evaluate? (e : Expr) (scope : Scope) : Option Value :=
  (e.operation? ⟨scope, templateWithin (e.print.length + 1)⟩).bind Operation.value?

/-- The value of an expression on its own; an expression that has none is kept as its text. -/
def Expr.value (e : Expr) : Value :=
  match e.evaluate? [] with
  | some v => v
  | none => .unevaluated e.text

/-! ## Equations -/

/-- An expression is kept as text exactly when it cannot be evaluated. -/
theorem Expr.value_of_evaluate?_eq_none {e : Expr} (h : e.evaluate? [] = none) :
    e.value = .unevaluated e.text := by
  simp [Expr.value, h]

theorem Expr.value_of_evaluate?_eq_some {e : Expr} {v : Value} (h : e.evaluate? [] = some v) :
    e.value = v := by
  simp [Expr.value, h]

end HclOverlay.Hcl
