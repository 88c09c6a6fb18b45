import SqlFragment.Error
import SqlFragment.Text.Blank
import SqlFragment.Text.Letter

/-!
What selects rows of one table: a filter, an order and a range of rows. Each part is kept as it was
given; a null part was not given.
-/
namespace SqlFragment

/-- A direction, the number of one, or the word for one in any case. -/
def SortDirection.ofValue (v : Value) : Except Error SortDirection :=
  let found? : Option SortDirection := match v with
    | .direction d => some d
    | .text s => ofWord (Text.strip s)
    | v => (v.toInt?).bind ofCode
  found?.elim (.error (.telling v (.invalid (.notDirection v) (some (.root "sort"))))) .ok
where
  ofWord (s : String) : Option SortDirection :=
    if Text.upperIs s "ASC" then some .asc
    else if Text.upperIs s "DESC" then some .desc
    else none
  ofCode (n : Int) : Option SortDirection :=
    if n = 1 then some .asc else if n = -1 then some .desc else none

structure Criteria where
  filter : Value := .null
  sort : Value := .null
  skip : Value := .null
  limit : Value := .null
deriving Repr, Inhabited

namespace Criteria

def hasFilter (c : Criteria) : Bool := c.filter.isTruthy

/-- An empty sort was given, too. -/
def hasSort (c : Criteria) : Bool := !c.sort.isNull

/-- Another sort in the place of this one. -/
def withSort (c : Criteria) (sort : Value) : Except Error Criteria := do
  let es ← Error.ofFault sort.toEntries
  return { c with sort := .map es }

/-- A direction by its number. -/
def plainDirection : Value → Value
  | .direction d => .int d.code
  | v => v

/-- The entry of a part that was given. -/
def entry (key : String) (v : Value) : Entries := if v.isNull then [] else [(.text key, v)]

def filterEntries (c : Criteria) : Except Fault Entries :=
  if c.filter.isNull then .ok []
  else c.filter.toEntries.map fun es => [(.text "where", .map es)]

def sortEntries (c : Criteria) : Except Fault Entries :=
  if c.sort.isNull then .ok []
  else c.sort.asMap.map fun es =>
    [(.text "sort", .map (es.map fun e => (e.1, plainDirection e.2)))]

/-- The parts that were given, by name. -/
def toEntries (c : Criteria) : Except Fault Entries := do
  let filter ← c.filterEntries
  let sort ← c.sortEntries
  return filter ++ sort ++ entry "skip" c.skip ++ entry "limit" c.limit

/-- The parts that entries give by name. -/
def ofEntries (es : Entries) : Criteria where
  filter := Value.get es "where"
  sort := Value.get es "sort"
  skip := Value.get es "skip"
  limit := Value.get es "limit"

/-- Criteria from a mapping; an empty value of any kind asks for nothing. -/
def ofValue (v : Value) : Except Fault Criteria :=
  if v.isTruthy then v.asMap.map ofEntries else .ok {}

/-- Equality of every part. -/
def same (a b : Criteria) : Bool :=
  a.filter.same b.filter && a.sort.same b.sort && a.skip.same b.skip && a.limit.same b.limit

end Criteria

end SqlFragment
