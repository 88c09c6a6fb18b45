/-!
The operators of conditions, and the connectives that join conditions.
-/
namespace SqlFragment

inductive Operator
  | eq
  | ne
  | gt
  | lt
  | ge
  | le
  | isIn
  | notIn
  | between
  | notBetween
  | like
  | notLike
  | ilike
  | contains
  | icontains
  | startsWith
  | istartsWith
  | endsWith
  | iendsWith
  | isNull
  | isNotNull
deriving DecidableEq, Repr, Inhabited

inductive Connective
  | and
  | or
  | not
deriving DecidableEq, Repr, Inhabited

namespace Operator

def all : List Operator :=
  [.eq, .ne, .gt, .lt, .ge, .le, .isIn, .notIn, .between, .notBetween, .like, .notLike, .ilike,
   .contains, .icontains, .startsWith, .istartsWith, .endsWith, .iendsWith, .isNull, .isNotNull]

theorem mem_all (op : Operator) : op ∈ all := by
  cases op <;> simp [all]

def name : Operator → String
  | .eq => "="
  | .ne => "!="
  | .gt => ">"
  | .lt => "<"
  | .ge => ">="
  | .le => "<="
  | .isIn => "in"
  | .notIn => "not_in"
  | .between => "between"
  | .notBetween => "not_between"
  | .like => "like"
  | .notLike => "not_like"
  | .ilike => "ilike"
  | .contains => "contains"
  | .icontains => "icontains"
  | .startsWith => "startswith"
  | .istartsWith => "istartswith"
  | .endsWith => "endswith"
  | .iendsWith => "iendswith"
  | .isNull => "is_null"
  | .isNotNull => "is_not_null"

def ofName? (s : String) : Option Operator := all.find? fun op => op.name == s

theorem ofName?_name (op : Operator) : ofName? op.name = some op := by
  cases op <;> decide

theorem name_of_ofName? {s : String} {op : Operator} (h : ofName? s = some op) : op.name = s := by
  simpa using List.find?_some h

end Operator

namespace Connective

def all : List Connective := [.and, .or, .not]

def name : Connective → String
  | .and => "and"
  | .or => "or"
  | .not => "not"

def ofName? (s : String) : Option Connective := all.find? fun c => c.name == s

end Connective

/-- Every word that the operator of a node may be. -/
def operatorNames : List String :=
  Operator.all.map Operator.name ++ Connective.all.map Connective.name

end SqlFragment
