import SqlFragment.Error
import SqlFragment.Text.Letter

/-!
Dialects and how they quote identifiers.
-/
namespace SqlFragment

inductive Dialect
  | default
  | postgresql
  | sqlite
  | mysql
deriving DecidableEq, Repr, Inhabited

/-- How an identifier is written: between two marks, the mark doubled inside, and percent signs
doubled where a percent sign starts a marker. -/
structure Quoting where
  mark : Char
  doublesPercent : Bool
deriving DecidableEq, Repr

def Quoting.escapeChar (q : Quoting) (c : Char) : List Char :=
  if c = q.mark || (q.doublesPercent && c = '%') then [c, c] else [c]

def Quoting.quoteChars (q : Quoting) (cs : List Char) : List Char :=
  q.mark :: cs.flatMap q.escapeChar ++ [q.mark]

def Quoting.quote (q : Quoting) (name : String) : String := String.ofList (q.quoteChars name.toList)

namespace Dialect

def all : List Dialect := [.default, .postgresql, .sqlite, .mysql]

def name : Dialect → String
  | .default => "default"
  | .postgresql => "postgresql"
  | .sqlite => "sqlite"
  | .mysql => "mysql"

/-- The dialect of a name in any case. -/
def ofName (s : String) : Except Error Dialect :=
  match all.find? fun d => d.name == Text.lower s with
  | some d => .ok d
  | none => .error (.unknownDialect s (all.map name))

def mark : Dialect → Char
  | .mysql => '\x60'
  | _ => '\x22'

/-- The quoting of a dialect whose statements have markers of its usual style. -/
def usualQuoting (d : Dialect) : Quoting :=
  ⟨d.mark, match d with
    | .postgresql | .mysql => true
    | .default | .sqlite => false⟩

/-- The greatest length of a name that the dialect takes. -/
def nameLimit : Dialect → Nat
  | .postgresql => 63
  | .mysql => 255
  | .default | .sqlite => 9999

end Dialect

/-- What quotes the identifiers of a statement: a dialect, or a pair of marks with no doubling. -/
inductive Quoter
  | dialect (d : Dialect)
  | between (left right : String)
deriving DecidableEq, Repr, Inhabited

namespace Quoter

def quote : Quoter → String → String
  | .dialect d, name => d.usualQuoting.quote name
  | .between left right, name => left ++ name ++ right

def quoteColumn (e : Quoter) (table column : String) : String :=
  e.quote table ++ "." ++ e.quote column

/-- The dialect it quotes for. -/
def dialect? : Quoter → Option Dialect
  | .dialect d => some d
  | .between .. => none

end Quoter

end SqlFragment
