import SqlFragment.Error
import SqlFragment.Text.Letter

/-!
Trees of conditions, read from nodes. Reading calls `leaf` on each condition in turn, depth first,
so that the first thing wrong in that order is what gets reported.
-/
namespace SqlFragment.Filter

inductive Tree (α : Type)
  | leaf (a : α)
  | all (ts : List (Tree α))
  | any (ts : List (Tree α))
  | negation (t : Tree α)
deriving Repr, Inhabited

/-- A condition as its node gives it. -/
structure Leaf where
  operator : Operator
  field : String
  operand : Value
deriving Repr, Inhabited

/-- The operator of a node in lower case. -/
def nodeWord (es : Entries) : String :=
  Text.lower (((Value.lookup "op" es).map Value.display).getD "")

/-- The condition that the entries of a node give. An operator that cannot be written has no word; it
is that of no connective, so it is noticed here. -/
def leafOf (path : Path) (es : Entries) : Except Error Leaf :=
  if !(Value.get es "op").isWritable then .error (.fault .unreadableNumber)
  else match Value.get es "attr" with
    | .text field =>
      if field.isEmpty then unnamed
      else match Operator.ofName? (nodeWord es) with
        | some operator => .ok ⟨operator, field, Value.get es "val"⟩
        | none => .error (.unknownOperator (.text (nodeWord es)) operatorNames)
    | _ => unnamed
where
  unnamed : Except Error Leaf :=
    .error (.telling (.map es) (.invalid (.noAttribute (.map es)) (some path)))

namespace Tree

variable {α : Type} (leaf : Leaf → Except Error α)

mutual

/-- The tree of the node at `path`. -/
def read (path : Path) (node : Value) : Except Error (Tree α) :=
  match node with
  | .map es =>
    match Connective.ofName? (nodeWord es) with
    | some .and => (readConditions path es).map .all
    | some .or => (readConditions path es).map .any
    | some .not =>
      match _found : Value.lookup "condition" es with
      | some v =>
        if (Value.get es "conditions").isTruthy then
          (readConditions path es).map fun ts => .negation (.all ts)
        else (read (path.key "condition") v).map .negation
      | none => (readConditions path es).map fun ts => .negation (.all ts)
    | none => do
      let l ← leafOf path es
      let a ← leaf l
      return .leaf a
  | v => .error (.invalid (.notNode v.kindName) (some path))
termination_by (sizeOf node, 1)
decreasing_by
  all_goals apply Prod.Lex.left
  all_goals simp
  have := Value.sizeOf_lookup _found
  omega

/-- The trees of the conditions below a connective. -/
def readConditions (path : Path) (es : Entries) : Except Error (List (Tree α)) :=
  match _found : Value.lookup "conditions" es with
  | some (.list (v :: vs)) => readFrom path 0 (v :: vs)
  | _ => .error (.invalid (.noConditions (Value.get es "op")) (some path))
termination_by (sizeOf es, 0)
decreasing_by
  have := Value.sizeOf_lookup _found
  apply Prod.Lex.left
  simp at this ⊢
  omega

/-- The trees of the conditions from position `i` on. -/
def readFrom (path : Path) (i : Nat) (nodes : List Value) : Except Error (List (Tree α)) :=
  match nodes with
  | [] => .ok []
  | v :: vs => do
    let t ← read ((path.key "conditions").index i) v
    let ts ← readFrom path (i + 1) vs
    return t :: ts
termination_by (sizeOf nodes, 0)

end

end Tree

end SqlFragment.Filter
