import SqlFragment.Error

/-!
Tables and their attributes, in the order of their declaration.
-/
namespace SqlFragment

/-- An attribute; a collection stands for the rows of another table and has no column. -/
structure Attribute where
  type : Option String := none
  primaryKey : Bool := false
  collection : Bool := false
  unique : Bool := false
  extra : Entries := []
deriving Repr, Inhabited

structure Table where
  name : String
  attributes : List (String × Attribute)
deriving Repr, Inhabited

namespace Table

def attribute? (t : Table) (name : String) : Option Attribute := t.attributes.lookup name

def attributeNames (t : Table) : List String := t.attributes.map (·.1)

def columnNames (t : Table) : List String :=
  (t.attributes.filter fun a => !a.2.collection).map (·.1)

def collectionNames (t : Table) : List String :=
  (t.attributes.filter fun a => a.2.collection).map (·.1)

def keyCandidates (t : Table) : List String :=
  (t.attributes.filter fun a => a.2.primaryKey).map (·.1)

/-- The only attribute that is declared a primary key. -/
def primaryKey (t : Table) : Except Error String :=
  match t.keyCandidates with
  | [key] => .ok key
  | candidates => .error (.primaryKey t.name candidates)

end Table

/-- Tables by the names they are known under. Only under a text is a table found. -/
structure Catalog where
  tables : List (Value × Table)
deriving Repr, Inhabited

namespace Catalog

def names (c : Catalog) : List Value := c.tables.map (·.1)

def table? (c : Catalog) (name : String) : Option Table := Value.lookup name c.tables

def has (c : Catalog) (name : String) : Bool := (c.table? name).isSome

def table (c : Catalog) (name : String) : Except Error Table :=
  match c.table? name with
  | some t => .ok t
  | none => .error (.noTable name c.names)

def primaryKey (c : Catalog) (name : String) : Except Error String :=
  c.table name >>= Table.primaryKey

end Catalog

/-- A column that statements can name. -/
structure Column where
  table : String
  name : String
deriving DecidableEq, Repr, Inhabited

/-- A name cut at its last dot; without a dot, the first part is empty. -/
def splitAtLastDot (s : String) : String × String :=
  let column := (s.toList.reverse.takeWhile (· != '.')).reverse
  (String.ofList (s.toList.take (s.length - column.length - 1)), String.ofList column)

/-- The column that a name means in a query on `table`. What stands before the last dot, if
anything, is the table to look in. -/
def Catalog.resolve (c : Catalog) (table : String) (name : String) : Except Error Column :=
  let (before, column) := splitAtLastDot name
  let table := if before.isEmpty then table else before
  match c.table? table with
  | none => .error (.noFieldTable table c.names name)
  | some t =>
    match t.attribute? column with
    | none => .error (.noField column table t.attributeNames name)
    | some a =>
      if a.collection then .error (.notQueryable column table t.columnNames (some name))
      else .ok ⟨table, column⟩

end SqlFragment
