import SqlFragment.Criteria
import SqlFragment.Filter.Shorthand
import SqlFragment.Registry
import SqlFragment.Statement.Writing

/-!
Criteria compiled to the end of a statement on one table: the filter, without the word before it,
then the order and the range of rows.
-/
namespace SqlFragment

/-- Compiles criteria on one table. -/
structure ClauseCompiler where
  catalog : Catalog
  table : String
  dialect : Dialect
  style : MarkerStyle
  start : Int
  registry : Registry

namespace ClauseCompiler

/-- A compiler for a table of the catalog. A registry without operators stands for the usual
one. -/
def create (catalog : Catalog) (table : String) (dialect : Dialect) (style : MarkerStyle)
    (start : Int) (registry : Registry) : Except Error ClauseCompiler :=
  (catalog.table table).map fun _ =>
    { catalog, table, dialect, style, start, registry := registry.orUsual }

/-- A compiler for the dialect of a quoter, with a style by its name. -/
def createNamed (catalog : Catalog) (table : String) (quoter : Quoter) (style : String)
    (start : Int) (registry : Registry) : Except Error ClauseCompiler := do
  let dialect ← quoter.dialect?.elim (.error (.fault .noDialect)) .ok
  let style ← MarkerStyle.ofName style
  create catalog table dialect style start registry

variable (c : ClauseCompiler)

/-- The condition that a leaf of a filter sets. -/
def condition (l : Filter.Leaf) : Except Error Condition := do
  let column ← c.catalog.resolve c.table l.field
  let test ← c.registry.test l.operator l.operand
  return ⟨column, test⟩

/-- The predicate of a filter; an empty filter has none. -/
def predicate (filter : Value) : Except Error (Option Predicate) := do
  let node ← Filter.toNode filter
  if !node.isTruthy then return none
  let tree ← Filter.Tree.read c.condition (.root "where") node
  return some (.ofTree tree)

/-- The tables of a statement: the table of the compiler, and those of the columns of a filter. -/
def tables (p? : Option Predicate) : List String :=
  (c.table :: ((p?.map Predicate.columns).getD []).map Column.table).eraseDups

/-- What a statement on tables starts with. -/
def headWord : String := "SELECT * \nFROM "

/-- The statement before its clauses. -/
def headPieces (tables : List String) : List Piece :=
  .word headWord :: joinPieces (.word ", ") (tables.map fun t => [.name t])

/-- The length of the statement before its clauses, as it is before markers are read. -/
def headLength (tables : List String) : Nat :=
  (headWord ++ Value.commas (tables.map (c.dialect.quoting c.style).quote)).length

def filterPieces (p? : Option Predicate) : List Piece :=
  (p?.map fun p => .word " \nWHERE " :: p.conjunctText c.dialect).getD []

/-- One column of an order. -/
def sortTerm (key direction : Value) : Except Error (List Piece) := do
  let name ← match key with
    | .text s => .ok s
    | .bytes _ => .error (.fault .bytesAsName)
    | _ => .error (.fault .notText)
  let column ← c.catalog.resolve c.table name
  let direction ← SortDirection.ofValue direction
  return column.pieces ++ [.word (" " ++ direction.keyword)]

def sortPieces (sort : Value) : Except Error (List Piece) :=
  if !sort.isTruthy then .ok []
  else do
    let es ← Error.ofFault sort.asMap
    let terms ← es.mapM fun e => c.sortTerm e.1 e.2
    return .word " ORDER BY " :: joinPieces (.word ", ") terms

/-- A number of rows. -/
def rowCount (field : String) (v : Value) : Except Error (Option Value) :=
  if v.isNull then .ok none
  else match v.toInt? with
    | some n => if 0 ≤ n then .ok (some (.int n)) else refused
    | none => refused
where
  refused : Except Error (Option Value) :=
    .error (.telling v (.invalid (.notCount field v) (some (.root field))))

/-- The word before a number of rows. -/
def limitWord : Dialect → String
  | .default | .sqlite => "\n LIMIT "
  | .postgresql | .mysql => " \n LIMIT "

/-- The range of rows in the words of a dialect. -/
def rangePieces (d : Dialect) (skip limit : Option Value) : List Piece :=
  let bind (v : Value) : Piece := .marker valueLabel v
  let word : Piece := .word (limitWord d)
  match limit, skip with
  | none, none => []
  | some n, none =>
    if d = .sqlite then [word, bind n, .word " OFFSET ", bind (.int 0)] else [word, bind n]
  | none, some k =>
    match d with
    | .default => [word, .word "-1 OFFSET ", bind k]
    | .postgresql => [word, .word "ALL OFFSET ", bind k]
    | .sqlite => [word, bind (.int (-1)), .word " OFFSET ", bind k]
    | .mysql => [word, bind k, .word ", 18446744073709551615"]
  | some n, some k =>
    if d = .mysql then [word, bind k, .word ", ", bind n]
    else [word, bind n, .word " OFFSET ", bind k]

/-- The tables of criteria and the pieces of their clauses. -/
def clauses (criteria : Criteria) : Except Error (List String × List Piece) := do
  let filter ← c.predicate criteria.filter
  let sort ← c.sortPieces criteria.sort
  let limit ← rowCount "limit" criteria.limit
  let skip ← rowCount "skip" criteria.skip
  return (c.tables filter, c.filterPieces filter ++ sort ++ rangePieces c.dialect skip limit)

/-- The clauses are written as the end of a statement, and the statement before them is cut off. -/
def compile (criteria : Criteria) : Except Error Written := do
  let (tables, clauses) ← c.clauses criteria
  let w ← Error.ofFault (write c.dialect c.style (headPieces tables ++ clauses))
  Error.ofFault (w.settle c.style c.start (c.headLength tables))

end ClauseCompiler

end SqlFragment
