import SqlFragment.Query

/-!
What happened while a query was compiled, told in order beside its outcome.
-/
namespace SqlFragment

inductive Event
  /-- A query without a sort got one. -/
  | sortAdded (key : String) (direction : SortDirection) (table : String)
  /-- Criteria on a table were handed to their compiler. -/
  | criteriaRequested (table : String) (start : Int) (criteria : Criteria)
  | criteriaCompiled (table : String) (values : Nat)
  | queryCompiled (table : String) (joins values : Nat)
  | subqueryCompiled (strategy : JoinStrategy) (table : String) (association : Value)
deriving Repr, Inhabited

/-- The line that reports an event, if one does. A name that cannot be written leaves none. -/
def Event.line? : Event → Option String
  | .sortAdded key direction table =>
    some ("Synthesized default sort " ++ key ++ " " ++ direction.keyword ++ " for " ++ table)
  | .criteriaRequested .. => none
  | .criteriaCompiled table values =>
    some ("Compiled criteria for " ++ table ++ ": " ++ toString values ++ " value(s)")
  | .queryCompiled table joins values =>
    some ("Compiled " ++ table ++ " with " ++ toString joins ++ " join(s) and " ++
      toString values ++ " value(s)")
  | .subqueryCompiled strategy table association =>
    association.shown.toOption.map fun name =>
      "Compiled " ++ strategy.keyword.toLower ++ " subquery for " ++ table ++ "." ++ name

/-- An outcome with the events before it. -/
structure Traced (α : Type) where
  events : List Event
  outcome : Except Error α

namespace Traced

variable {α β : Type}

def pure (a : α) : Traced α := ⟨[], .ok a⟩

def bind (t : Traced α) (f : α → Traced β) : Traced β :=
  match t.outcome with
  | .ok a => ⟨t.events ++ (f a).events, (f a).outcome⟩
  | .error e => ⟨t.events, .error e⟩

instance : Monad Traced where
  pure := pure
  bind := bind

/-- An outcome without events. -/
def of (outcome : Except Error α) : Traced α := ⟨[], outcome⟩

def emit (e : Event) : Traced Unit := ⟨[e], .ok ()⟩

@[simp] theorem outcome_pure (a : α) : (Pure.pure a : Traced α).outcome = .ok a := rfl

@[simp] theorem outcome_of (r : Except Error α) : (of r).outcome = r := rfl

@[simp] theorem outcome_emit (e : Event) : (emit e).outcome = .ok () := rfl

/-- Outcomes follow each other as if there were no events. -/
@[simp] theorem outcome_bind (t : Traced α) (f : α → Traced β) :
    (t >>= f).outcome = t.outcome >>= fun a => (f a).outcome := by
  show (Traced.bind t f).outcome = _
  unfold Traced.bind
  cases t.outcome <;> rfl

end Traced

end SqlFragment
