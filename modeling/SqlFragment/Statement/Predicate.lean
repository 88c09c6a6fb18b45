import SqlFragment.Dialect
import SqlFragment.Filter.Tree
import SqlFragment.Schema
import SqlFragment.Statement.Piece

/-!
Conditions on columns and their combinations, in the form in which statements spell them.
-/
namespace SqlFragment

inductive Comparison
  | eq
  | ne
  | lt
  | le
  | gt
  | ge
deriving DecidableEq, Repr, Inhabited

namespace Comparison

def symbol : Comparison → String
  | .eq => "="
  | .ne => "!="
  | .lt => "<"
  | .le => "<="
  | .gt => ">"
  | .ge => ">="

def negate : Comparison → Comparison
  | .eq => .ne
  | .ne => .eq
  | .lt => .ge
  | .ge => .lt
  | .gt => .le
  | .le => .gt

@[simp] theorem negate_negate (c : Comparison) : c.negate.negate = c := by cases c <;> rfl

end Comparison

/-- What a column is tested for. -/
inductive Test
  | compare (c : Comparison) (value : Value)
  | isNull (negated : Bool)
  | between (negated : Bool) (low high : Value)
  | like (negated : Bool) (pattern : String)
  /-- A pattern that letters of either case fit. -/
  | ilike (negated : Bool) (pattern : String)
  | member (negated : Bool) (values : List Value)
  /-- Equality, letters of either case being equal. -/
  | equalFold (negated : Bool) (value : Value)
deriving Repr, Inhabited

def Test.negate : Test → Test
  | .compare c v => .compare c.negate v
  | .isNull n => .isNull !n
  | .between n low high => .between (!n) low high
  | .like n p => .like (!n) p
  | .ilike n p => .ilike (!n) p
  | .member n vs => .member (!n) vs
  | .equalFold n v => .equalFold (!n) v

@[simp] theorem Test.negate_negate (t : Test) : t.negate.negate = t := by
  cases t <;> simp [Test.negate]

structure Condition where
  column : Column
  test : Test
deriving Repr, Inhabited

def Condition.negate (c : Condition) : Condition := { c with test := c.test.negate }

@[simp] theorem Condition.negate_negate (c : Condition) : c.negate.negate = c := by
  simp [Condition.negate]

def Column.pieces (c : Column) : List Piece := [.name c.table, .word ".", .name c.name]

namespace Condition

/-- `lower` called on a piece of text. -/
def lowered (ps : List Piece) : List Piece := .word "lower(" :: ps ++ [.word ")"]

def pieces (d : Dialect) (c : Condition) : List Piece :=
  let column := c.column.pieces
  let label := columnLabel c.column.name
  let no (negated : Bool) : String := if negated then "NOT " else ""
  match c.test with
  | .compare op v => column ++ [.word (" " ++ op.symbol ++ " "), .marker valueLabel v]
  | .isNull negated => column ++ [.word (" IS " ++ no negated ++ "NULL")]
  | .between negated low high =>
    column ++ [.word (" " ++ no negated ++ "BETWEEN "), .marker valueLabel low, .word " AND ",
      .marker valueLabel high]
  | .like negated p =>
    column ++ [.word (" " ++ no negated ++ "LIKE "), .marker label (.text p)]
  | .ilike negated p =>
    if d = .postgresql then
      column ++ [.word (" " ++ no negated ++ "ILIKE "), .marker label (.text p)]
    else
      lowered column ++ .word (" " ++ no negated ++ "LIKE ") :: lowered [.marker label (.text p)]
  | .member false vs => column ++ [.word " IN (", .members label false vs, .word ")"]
  | .member true vs =>
    .word "(" :: column ++ [.word " NOT IN (", .members label true vs, .word "))"]
  | .equalFold negated v =>
    lowered column ++ .word (if negated then " != " else " = ") :: lowered [.marker "lower" v]

end Condition

/-- Conditions joined by connectives. A group has at least two parts, none of them a group of the
same connective, and a negation is of a group or of a negation. -/
inductive Predicate
  | condition (c : Condition)
  | all (ps : List Predicate)
  | any (ps : List Predicate)
  | negation (p : Predicate)
deriving Repr, Inhabited

namespace Predicate

/-- The parts of a conjunction, or the predicate itself. -/
def conjuncts : Predicate → List Predicate
  | .all ps => ps
  | p => [p]

def disjuncts : Predicate → List Predicate
  | .any ps => ps
  | p => [p]

/-- One part is its own group, and the parts of a group of the same kind are its own. -/
def conjunction : List Predicate → Predicate
  | [p] => p
  | ps => .all (ps.flatMap conjuncts)

def disjunction : List Predicate → Predicate
  | [p] => p
  | ps => .any (ps.flatMap disjuncts)

/-- A single condition is turned around; anything else is negated as a whole. -/
def negate : Predicate → Predicate
  | .condition c => .condition c.negate
  | p => .negation p

mutual

def ofTree : Filter.Tree Condition → Predicate
  | .leaf c => .condition c
  | .all ts => conjunction (ofTrees ts)
  | .any ts => disjunction (ofTrees ts)
  | .negation t => negate (ofTree t)

def ofTrees : List (Filter.Tree Condition) → List Predicate
  | [] => []
  | t :: ts => ofTree t :: ofTrees ts

end

mutual

/-- The columns of the conditions, from left to right. -/
def columns : Predicate → List Column
  | .condition c => [c.column]
  | .all ps | .any ps => columnsOf ps
  | .negation p => p.columns

def columnsOf : List Predicate → List Column
  | [] => []
  | p :: ps => p.columns ++ columnsOf ps

end

/-- In parentheses. -/
def grouped (ps : List Piece) : List Piece := .word "(" :: ps ++ [.word ")"]

mutual

/-- A disjunction inside a conjunction is put in parentheses, and so is what is negated. -/
def pieces (d : Dialect) : Predicate → List Piece
  | .condition c => c.pieces d
  | .all ps => joinPieces (.word " AND ") (conjunctPieces d ps)
  | .any ps => joinPieces (.word " OR ") (disjunctPieces d ps)
  | .negation p => .word "NOT " :: grouped (pieces d p)

def conjunctPieces (d : Dialect) : List Predicate → List (List Piece)
  | [] => []
  | .any qs :: ps =>
    grouped (joinPieces (.word " OR ") (disjunctPieces d qs)) :: conjunctPieces d ps
  | p :: ps => pieces d p :: conjunctPieces d ps

def disjunctPieces (d : Dialect) : List Predicate → List (List Piece)
  | [] => []
  | p :: ps => pieces d p :: disjunctPieces d ps

end

/-- The pieces of a predicate that other conditions may follow. -/
def conjunctText (d : Dialect) (p : Predicate) : List Piece :=
  match p with
  | .any _ => grouped (p.pieces d)
  | p => p.pieces d

end Predicate

end SqlFragment
