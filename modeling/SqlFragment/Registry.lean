import SqlFragment.Statement.Predicate
import SqlFragment.Text.Similarity

/-!
What operators test for, and registries of it. A registry keeps the order of first registrations.
-/
namespace SqlFragment

/-- Ways to test a column that a caller brings along, each for one operator. -/
class OwnTests (τ : Type) where
  operator : τ → Operator
  test : τ → Value → Except Error Test

/-- Usually there are none. -/
@[default_instance]
instance : OwnTests Empty := ⟨nofun, nofun⟩

/-- A way to test a column for an operand. -/
inductive Strategy (τ : Type := Empty)
  /-- The usual test of an operator. -/
  | usual (op : Operator)
  /-- Equality that takes letters of either case to be equal. -/
  | foldedEqual
  /-- The negative pattern, for letters of either case. -/
  | foldedNotLike
  /-- A way of the caller's own. -/
  | own (t : τ)
deriving DecidableEq, Repr, Inhabited

namespace Strategy

variable {τ : Type} [OwnTests τ]

/-- The operator it is for. -/
def operator : Strategy τ → Operator
  | .usual op => op
  | .foldedEqual => .eq
  | .foldedNotLike => .notLike
  | .own t => OwnTests.operator t

/-- The members that membership is asked of. -/
def membersOf : Value → List Value
  | .list xs | .tuple xs | .set xs => xs
  | v => [v]

/-- Two bounds, from a list, a tuple or bytes. -/
def bounds (op : Operator) (v : Value) : Except Error (Value × Value) :=
  let parts? : Option (List Value) := match v with
    | .bytes bs => some (bs.map fun b => .int b.toNat)
    | v => v.items?
  match parts? with
  | some [low, high] => .ok (low, high)
  | _ => .error (.telling v (.invalid (.notRange op v) none))

/-- The test that a pattern makes of the text of an operand. -/
def patternTest (v : Value) (test : String → Test) : Except Error Test :=
  (Error.ofFault v.shown).map test

/-- The test of an operator. Equality with nothing asks for the null value. -/
def usualTest (op : Operator) (v : Value) : Except Error Test :=
  match op with
  | .eq => .ok (if v.isNull then .isNull false else .compare .eq v)
  | .ne => .ok (if v.isNull then .isNull true else .compare .ne v)
  | .gt => .ok (.compare .gt v)
  | .lt => .ok (.compare .lt v)
  | .ge => .ok (.compare .ge v)
  | .le => .ok (.compare .le v)
  | .isIn => .ok (.member false (membersOf v))
  | .notIn => .ok (.member true (membersOf v))
  | .between => (bounds op v).map fun b => .between false b.1 b.2
  | .notBetween => (bounds op v).map fun b => .between true b.1 b.2
  | .like => patternTest v (.like false)
  | .notLike => patternTest v (.like true)
  | .ilike => patternTest v (.ilike false)
  | .contains => patternTest v fun s => .like false ("%" ++ s ++ "%")
  | .icontains => patternTest v fun s => .ilike false ("%" ++ s ++ "%")
  | .startsWith => patternTest v fun s => .like false (s ++ "%")
  | .istartsWith => patternTest v fun s => .ilike false (s ++ "%")
  | .endsWith => patternTest v fun s => .like false ("%" ++ s)
  | .iendsWith => patternTest v fun s => .ilike false ("%" ++ s)
  | .isNull => .ok (.isNull false)
  | .isNotNull => .ok (.isNull true)

def test : Strategy τ → Value → Except Error Test
  | .usual op, v => usualTest op v
  | .foldedEqual, v => .ok (.equalFold false v)
  | .foldedNotLike, v => patternTest v (.ilike true)
  | .own t, v => OwnTests.test t v

end Strategy

/-- Strategies, each under the operator it is for. -/
structure Registry (τ : Type := Empty) where
  entries : List (Operator × Strategy τ) := []
deriving Repr, Inhabited

namespace Registry

variable {τ : Type}

def get? (r : Registry τ) (op : Operator) : Option (Strategy τ) := r.entries.lookup op

def contains (r : Registry τ) (op : Operator) : Bool := (r.get? op).isSome

def size (r : Registry τ) : Nat := r.entries.length

/-- Operators in the order of their registration. -/
def operators (r : Registry τ) : List Operator := r.entries.map (·.1)

def strategies (r : Registry τ) : List (Strategy τ) := r.entries.map (·.2)

/-- An entry put into a list; an old one keeps its place. -/
def putEntry (op : Operator) (s : Strategy τ) :
    List (Operator × Strategy τ) → List (Operator × Strategy τ)
  | [] => [(op, s)]
  | e :: es => if e.1 = op then (op, s) :: es else e :: putEntry op s es

def unregister (r : Registry τ) (op : Operator) : Registry τ :=
  ⟨r.entries.filter fun e => e.1 ≠ op⟩

def supported (r : Registry τ) : List String := Text.sorted (r.operators.map Operator.name)

variable [OwnTests τ]

def register (r : Registry τ) (s : Strategy τ) : Registry τ := ⟨putEntry s.operator s r.entries⟩

def registerAll (r : Registry τ) (ss : List (Strategy τ)) : Registry τ := ss.foldl register r

def copy (r : Registry τ) : Registry τ := registerAll {} r.strategies

/-- The usual strategy of every operator. -/
def usual : Registry τ := registerAll {} (Operator.all.map .usual)

def orUsual (r : Registry τ) : Registry τ := if r.entries.isEmpty then usual else r

/-- The test for an operator and an operand. -/
def test (r : Registry τ) (op : Operator) (v : Value) : Except Error Test :=
  match r.get? op with
  | some s => s.test v
  | none => .error (.unknownOperator (.text op.name) r.supported)

/-- The test for a word, which may name no operator. -/
def testNamed (r : Registry τ) (word : String) (v : Value) : Except Error Test :=
  match Operator.ofName? word with
  | some op => r.test op v
  | none => .error (.unknownOperator (.text word) r.supported)

end Registry

end SqlFragment
