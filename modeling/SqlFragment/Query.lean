import SqlFragment.Criteria

/-!
Queries on a table together with the associations to fetch for its rows.
-/
namespace SqlFragment

/-- The keys by which rows of two tables belong together. -/
structure Link where
  parentTable : String
  parentKey : String
  childTable : String
  childKey : String
deriving DecidableEq, Repr, Inhabited

mutual

structure Query where
  criteria : Criteria
  associations : List Association

/-- An association carries the steps that its strategy needs. -/
inductive Association
  | parentOwnsKey (name : Value) (step : JoinStep)
  | childOwnsKey (name : Value) (step : JoinStep)
  | junction (name : Value) (link target : JoinStep)

/-- A join, with what selects the joined rows. -/
structure JoinStep where
  link : Link
  criteria : Option Query

end

namespace Association

def name : Association → Value
  | .parentOwnsKey name _ | .childOwnsKey name _ | .junction name _ _ => name

def strategy : Association → JoinStrategy
  | .parentOwnsKey .. => .parentOwnsKey
  | .childOwnsKey .. => .childOwnsKey
  | .junction .. => .junction

def steps : Association → List JoinStep
  | .parentOwnsKey _ step | .childOwnsKey _ step => [step]
  | .junction _ link target => [link, target]

end Association

/-- The number of steps that a strategy takes. -/
def JoinStrategy.stepCount : JoinStrategy → Nat
  | .parentOwnsKey | .childOwnsKey => 1
  | .junction => 2

@[simp] theorem Association.length_steps (a : Association) :
    a.steps.length = a.strategy.stepCount := by
  cases a <;> rfl

def JoinStep.withCriteria (s : JoinStep) (query : Option Query) : JoinStep :=
  { s with criteria := query }

namespace Query

def empty : Query := ⟨{}, []⟩

/-- The first name that an earlier association has. -/
def repeatedName? (seen : List Value) : List Association → Option Value
  | [] => none
  | a :: rest =>
    if seen.any fun name => name.sameKey a.name then some a.name
    else repeatedName? (a.name :: seen) rest

/-- A query whose associations have names of their own. -/
def create (criteria : Criteria) (associations : List Association) : Except Error Query :=
  match repeatedName? [] associations with
  | none => .ok ⟨criteria, associations⟩
  | some name =>
    let place := (Path.root "associations").key name.display
    .error (.telling name (.association (.duplicate name) (some place)))

def hasFilter (s : Query) : Bool := s.criteria.hasFilter

def hasSort (s : Query) : Bool := s.criteria.hasSort

def withSort (s : Query) (sort : Value) : Except Error Query :=
  (s.criteria.withSort sort).map fun c => { s with criteria := c }

def association? (s : Query) (name : Value) : Option Association :=
  s.associations.find? fun a => a.name.same name

/-- The description of an association by its strategy and its steps. -/
def described (strategy : JoinStrategy) (steps : List Value) : Value :=
  .map [(.text "strategy", .map [(.text "strategy", .int strategy.code)]),
    (.text "instructions", .list steps)]

mutual

/-- The query as a mapping: its criteria, and the associations under `instructions`. -/
def toEntries : Query → Except Fault Entries
  | ⟨criteria, associations⟩ => do
    let es ← criteria.toEntries
    let as ← associationEntries associations
    return if as.isEmpty then es else es ++ [(.text "instructions", .map (Value.ofEntries as))]

def associationEntries : List Association → Except Fault Entries
  | [] => .ok []
  | a :: as => do
    let e ← associationEntry a
    let es ← associationEntries as
    return e :: es

def associationEntry : Association → Except Fault (Value × Value)
  | .parentOwnsKey name step => do
    return (name, described .parentOwnsKey [← stepValue step])
  | .childOwnsKey name step => do
    return (name, described .childOwnsKey [← stepValue step])
  | .junction name link target => do
    let first ← stepValue link
    let second ← stepValue target
    return (name, described .junction [first, second])

def stepValue : JoinStep → Except Fault Value
  | ⟨link, criteria⟩ => do
    let criteria ← criteriaEntry criteria
    return .map ([(.text "parent", .text link.parentTable),
      (.text "parentKey", .text link.parentKey), (.text "child", .text link.childTable),
      (.text "childKey", .text link.childKey)] ++ criteria)

def criteriaEntry : Option Query → Except Fault Entries
  | none => .ok []
  | some query => (toEntries query).map fun es => [(.text "criteria", .map es)]

end

end Query

end SqlFragment
