import SqlFragment.Compile
import SqlFragment.Query
import SqlFragment.Trace

/-!
Queries compiled to fragments of statements: for the rows of the table, the joins to the tables that
own their keys and what selects the rows; for every other association, a subquery that the key of
one row completes.
-/
namespace SqlFragment

/-- What a compiler of criteria gives, which need not be one of this library. -/
structure Clauses where
  text : Value
  values : Value := .null
deriving Repr, Inhabited

namespace Clauses

def ofWritten (w : Written) : Clauses := ⟨.text w.text, .list w.values⟩

/-- The values for the markers; what is no list or tuple gives none. -/
def bound (c : Clauses) : List Value := c.values.items?.getD []

/-- The text, which must be one where it ends a fragment. -/
def ending (c : Clauses) : Except Fault String := c.text.text?.elim (.error .foreignText) .ok

@[simp] theorem bound_ofWritten (w : Written) : (ofWritten w).bound = w.values := rfl

@[simp] theorem ending_ofWritten (w : Written) : (ofWritten w).ending = .ok w.text := rfl

end Clauses

/-- What compiles criteria on a table, its markers numbered from `start`. -/
abbrev CriteriaSource := (table : String) → (start : Int) → Criteria → Traced Clauses

/-- Compiles criteria, and tells of it. -/
def ClauseCompiler.run (c : ClauseCompiler) (criteria : Criteria) : Traced Written := do
  let written ← .of (c.compile criteria)
  .emit (.criteriaCompiled c.table written.values.length)
  return written

/-- Criteria compiled with the usual operators. -/
def usualSource (catalog : Catalog) (dialect : Dialect) (style : MarkerStyle) : CriteriaSource :=
  fun table start criteria => do
    let compiler ← .of (ClauseCompiler.create catalog table dialect style start .usual)
    return .ofWritten (← compiler.run criteria)

/-- Compiles queries on one table. -/
structure QueryCompiler where
  catalog : Catalog
  table : String
  quoter : Quoter
  source : CriteriaSource
  /-- Stands for the key of a row in subqueries. -/
  placeholder : String
  /-- What the name of a key starts with where rows are selected together with it. -/
  aliasStart : String

/-- The fragment for the rows of the table. -/
structure Fragment where
  text : String
  values : List Value
  query : Option Query

/-- The subquery of an association. -/
structure Subquery where
  template : String
  association : Association
  values : List Value
  criteria : Query
  placeholder : String

/-! ## Default order -/

/-- A query without a sort is sorted by the primary key of its table. -/
def Query.sortedByKey (query : Query) (catalog : Catalog) (table : String)
    (direction : SortDirection) : Traced Query :=
  if query.hasSort then return query
  else do
    let key ← .of (catalog.primaryKey table)
    .emit (.sortAdded key direction table)
    .of (query.withSort (.map [(.text key, .direction direction)]))

/-! ## Connectives at the end -/

/-- A text without an ending that it may have. -/
def dropEnding (ending text : String) : String :=
  if ending.toList.reverse.isPrefixOf text.toList.reverse then
    String.ofList (text.toList.take (text.length - ending.length))
  else text

/-- One `AND` at the end is dropped, then one `OR`. -/
def dropConnective (text : String) : String := dropEnding "OR " (dropEnding "AND " text)

/-! ## Placeholders -/

/-- The text with the first occurrence of `mark` replaced. -/
def replaceFirst (mark sub : List Char) : List Char → List Char
  | [] => if mark.isEmpty then sub else []
  | c :: cs =>
    if mark.isPrefixOf (c :: cs) then sub ++ (c :: cs).drop mark.length
    else c :: replaceFirst mark sub cs

/-- The subquery for the row with a key. -/
def Subquery.bind (s : Subquery) (key : String) : String :=
  String.ofList (replaceFirst s.placeholder.toList key.toList s.template.toList)

namespace QueryCompiler

/-- What stands for the key of a row, unless something else is asked for. -/
def usualPlaceholder : String := "^?^"

/-- What the name of a key starts with, unless something else is asked for. -/
def usualAliasStart : String := "___"

/-- A compiler with a style by its name. Criteria are compiled for the dialect of the quoter. -/
def create (catalog : Catalog) (table : String) (quoter : Quoter) (source : Option CriteriaSource)
    (style placeholder aliasStart : String) : Except Error QueryCompiler :=
  (MarkerStyle.ofName style).map fun style =>
    let usual := usualSource catalog (quoter.dialect?.getD .default) style
    { catalog, table, quoter, source := source.getD usual, placeholder, aliasStart }

variable (q : QueryCompiler)

/-- Criteria handed to their compiler. -/
def request (table : String) (start : Int) (query : Query) : Traced Clauses := do
  .emit (.criteriaRequested table start query.criteria)
  q.source table start query.criteria

/-! ## Rows of the table -/

def joinText (link : Link) : String :=
  "LEFT OUTER JOIN " ++ q.quoter.quote link.childTable ++ " ON " ++
    q.quoter.quoteColumn link.parentTable link.parentKey ++ " = " ++
    q.quoter.quoteColumn link.childTable link.childKey

/-- The join that an association adds. -/
def joinOf? : Association → Option String
  | .parentOwnsKey _ step => some (q.joinText step.link)
  | _ => none

def joins (query : Query) : List String := query.associations.filterMap q.joinOf?

/-- The fragment for the rows of the table; no query has an empty one. -/
def rows (query : Option Query) : Traced Fragment :=
  match query with
  | none => return ⟨"", [], none⟩
  | some query => do
    let joins := q.joins query
    let head := if joins.isEmpty then "" else " ".intercalate joins ++ " "
    let query ← query.sortedByKey q.catalog q.table .desc
    let clauses ← q.request q.table 1 query
    let lead := if query.hasFilter then "WHERE " else ""
    let ending ← .of (Error.ofFault clauses.ending)
    .emit (.queryCompiled q.table joins.length clauses.bound.length)
    return ⟨dropConnective (head ++ lead ++ ending), clauses.bound, some query⟩

/-! ## Subqueries -/

/-- The criteria of a step, sorted, and compiled. -/
def nested (step : JoinStep) (start : Int) : Traced (Query × Clauses) := do
  let query ← (step.criteria.getD .empty).sortedByKey q.catalog step.link.childTable .asc
  let clauses ← q.request step.link.childTable start query
  return (query, clauses)

/-- What selects the rows of a subquery, after its own condition. -/
def appended (head : String) (query : Query) (text : Value) : String :=
  if !text.isTruthy then head
  else if query.hasFilter then head ++ " AND " ++ text.display
  else head ++ " " ++ text.display

/-- The rows of the child table with the key of the row. -/
def childHead (link : Link) : String :=
  "SELECT * FROM " ++ q.quoter.quote link.childTable ++ " WHERE " ++
    q.quoter.quote link.childKey ++ " = " ++ q.placeholder

/-- The rows of the target table that the link table joins with the row, each with the key of the
row. -/
def junctionHead (link target : Link) (columns : List String) : String :=
  let e := q.quoter
  let linkKey := e.quoteColumn link.childTable link.childKey
  let targetKey := e.quoteColumn target.childTable target.childKey
  let selected := columns.map (e.quoteColumn target.childTable) ++
    [linkKey ++ " AS " ++ e.quote (q.aliasStart ++ link.childKey)]
  "SELECT " ++ Value.commas selected ++ " FROM " ++ e.quote target.childTable ++
    " INNER JOIN " ++ e.quote link.childTable ++ " ON " ++
    e.quoteColumn target.parentTable target.parentKey ++ " = " ++ targetKey ++ " WHERE " ++
    targetKey ++ " IN (SELECT " ++ e.quoteColumn link.childTable target.parentKey ++ " FROM " ++
    e.quote link.childTable ++ " WHERE " ++ linkKey ++ " = " ++ q.placeholder ++ ")"

/-- The subquery of an association with a head and what follows it. What cannot be written does not
follow. -/
def subquery (a : Association) (head : String) (query : Query) (clauses : Clauses) :
    Except Error Subquery :=
  if clauses.text.isWritable then
    .ok ⟨"(" ++ appended head query clauses.text ++ ")", a, clauses.bound, query, q.placeholder⟩
  else .error (.fault .unreadableNumber)

theorem subquery_eq_ok_iff {q : QueryCompiler} {a : Association} {head : String} {query : Query}
    {clauses : Clauses} {s : Subquery} : q.subquery a head query clauses = .ok s ↔
      clauses.text.isWritable = true ∧
        ⟨"(" ++ appended head query clauses.text ++ ")", a, clauses.bound, query, q.placeholder⟩ =
          s := by
  unfold subquery
  split <;> simp_all

/-- The subquery that an association needs, if it needs one. -/
def subqueryOf (a : Association) (start : Int) : Traced (Option Subquery) :=
  match a with
  | .parentOwnsKey .. => return none
  | .childOwnsKey _ step => do
    let (query, clauses) ← q.nested step start
    return some (← .of (q.subquery a (q.childHead step.link) query clauses))
  | .junction _ link target => do
    let (query, clauses) ← q.nested target start
    let table ← .of (q.catalog.table target.link.childTable)
    let head := q.junctionHead link.link target.link table.columnNames
    return some (← .of (q.subquery a head query clauses))

/-- The subqueries of associations in order, markers counted on from one to the next. -/
def subqueriesFrom : List Association → Int → Traced (List Subquery)
  | [], _ => return []
  | a :: rest, start => do
    match ← q.subqueryOf a start with
    | none => subqueriesFrom rest start
    | some s => do
      .emit (.subqueryCompiled a.strategy q.table a.name)
      let more ← subqueriesFrom rest (start + s.values.length)
      return s :: more

/-- The subqueries of a query, their markers numbered from `start`. -/
def subqueries (query : Option Query) (start : Int) : Traced (List Subquery) :=
  match query with
  | none => return []
  | some query => q.subqueriesFrom query.associations start

/-- Both, with the markers of the subqueries numbered after those of the first fragment. -/
def compile (query : Option Query) : Traced (Fragment × List Subquery) := do
  let rows ← q.rows query
  let subqueries ← q.subqueries query (rows.values.length + 1)
  return (rows, subqueries)

end QueryCompiler

end SqlFragment
