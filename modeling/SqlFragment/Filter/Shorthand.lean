import SqlFragment.Error
import SqlFragment.Text.Letter

/-!
Filters written as mappings of attributes to operands, brought into the form of nodes. A node is a
mapping with an operator: `conditions` below a connective, `attr` and `val` below any other. A
mapping with several entries means all of them.
-/
namespace SqlFragment.Filter

/-- The node of one condition. -/
def leafNode (op : Operator) (field operand : Value) : Value :=
  .map [(.text "op", .text op.name), (.text "attr", field), (.text "val", operand)]

def groupNode (c : Connective) (conditions : List Value) : Value :=
  .map [(.text "op", .text c.name), (.text "conditions", .list conditions)]

/-- All of the conditions; one condition is its own group. -/
def allOf : List Value → Value
  | [node] => node
  | nodes => groupNode .and nodes

/-- A group under `and` or `or`. -/
def group (c : Connective) (nodes : List Value) : Value :=
  match c with
  | .and => allOf nodes
  | c => groupNode c nodes

/-- The words that stand for operators between an attribute and its operand. -/
def modifiers : List (String × Operator) :=
  [("<", .lt), ("lessThan", .lt), ("<=", .le), ("lessThanOrEqual", .le), (">", .gt),
   ("greaterThan", .gt), (">=", .ge), ("greaterThanOrEqual", .ge), ("!", .ne), ("not", .ne),
   ("like", .like), ("contains", .contains), ("startsWith", .startsWith),
   ("endsWith", .endsWith), ("in", .isIn), ("nin", .notIn)]

def modifierNames : List String := modifiers.map (·.1)

/-- A modifier in any case. -/
def modifier? (word : String) : Option Operator :=
  (modifiers.find? fun m => Text.lower m.1 == word).map (·.2)

/-- A key in lower case; bytes are no word at all. -/
def keyword (key : Value) : Except Fault (Option String) :=
  match key with
  | .text s => .ok (some (Text.lower s))
  | .bytes _ => .ok none
  | _ => .error .notText

/-- Unequal to nothing is to be something, and unequal to a list is to be outside it. -/
def sharpen (op : Operator) (operand : Value) : Operator :=
  match op, operand with
  | .ne, .null => .isNotNull
  | .ne, .list _ | .ne, .tuple _ => .notIn
  | op, _ => op

/-- Membership is asked of a list, also of a list of one. -/
def listed (op : Operator) (operand : Value) : Value :=
  match op with
  | .isIn | .notIn => .list (operand.items?.getD [operand])
  | _ => operand

def modifierNode (field modifier operand : Value) : Except Error Value := do
  let word ← Error.ofFault (keyword modifier)
  match word.bind modifier? with
  | none => .error (.unknownOperator modifier modifierNames)
  | some op =>
    let op := sharpen op operand
    return leafNode op field (listed op operand)

/-- The conditions that an operand sets for an attribute. -/
def attributeNodes (here : Path) (field operand : Value) : Except Error (List Value) :=
  match operand with
  | .map [] => .error (.invalid .emptyModifiers (some here))
  | .map es => es.mapM fun e => modifierNode field e.1 e.2
  | .null => .ok [leafNode .isNull field .null]
  | .list xs | .tuple xs => .ok [leafNode .isIn field (.list xs)]
  | v => .ok [leafNode .eq field v]

/-- The conditions of a block of patterns. -/
def patternNodes (here : Path) (patterns : Value) : Except Error (List Value) :=
  match patterns with
  | .map [] => .error (.invalid .emptyCondition (some here))
  | .map es => .ok (es.map fun e => leafNode .like e.1 e.2)
  | _ => .error (.invalid .likeNotMapping (some here))

mutual

/-- The conditions that the entries of a mapping at `place` set. -/
def entryNodes (place : Path) : List (Value × Value) → Except Error (List Value)
  | [] => .ok []
  | (key, operand) :: rest => do
    let name ← Error.ofFault key.shown
    let here := place.key name
    let nodes ← match ← Error.ofFault (keyword key) with
      | some "and" => blockNode here .and operand
      | some "or" => blockNode here .or operand
      | some "like" => patternNodes here operand
      | _ => attributeNodes here key operand
    let more ← entryNodes place rest
    return nodes ++ more

/-- The group that a list of mappings sets under a connective. -/
def blockNode (here : Path) (c : Connective) : Value → Except Error (List Value)
  | .list (b :: bs) | .tuple (b :: bs) => do
    let nodes ← branchNodes here 0 (b :: bs)
    return [group c nodes]
  | _ => .error (.invalid (.noBranches c.name) (some here))

/-- A node for each branch of a block, the first of them at position `i`. -/
def branchNodes (here : Path) (i : Nat) : List Value → Except Error (List Value)
  | [] => .ok []
  | .map es :: rest => do
    let nodes ← entryNodes (here.index i) es
    if nodes.isEmpty then .error (.invalid .emptyCondition (some (here.index i)))
    else
      let more ← branchNodes here (i + 1) rest
      return allOf nodes :: more
  | v :: _ => .error (.invalid (.notMapping v.kindName) (some (here.index i)))

end

/-- The node form of a filter. What is empty gives the empty mapping, and a node stays as it is. -/
def toNode (filter : Value) : Except Error Value :=
  if !filter.isTruthy then .ok (.map [])
  else match filter with
    | .map es =>
      if (Value.lookup "op" es).isSome then .ok filter
      else do
        let nodes ← entryNodes (.root "where") es
        return allOf nodes
    | v => .error (.invalid (.notMapping v.kindName) (some (.root "where")))

end SqlFragment.Filter
