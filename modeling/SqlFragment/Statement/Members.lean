import SqlFragment.Statement.Glyph

/-!
Lists spelled member by member: a marker for each member, or a tuple of markers for each member
that has elements of its own.
-/
namespace SqlFragment

/-! ## Members and their keys -/

/-- How a list is spelled. -/
inductive Spelling
  /-- In the way of the dialect for a list without members. -/
  | nothing
  | each
  /-- A tuple for each member; the numbers are those of its markers within the list. -/
  | tuples (marks : List (List Nat))
deriving Repr

/-- The members of a list whose first member is one are tuples. -/
def holdsTuples : List Value → Bool
  | v :: _ => v.items?.isSome
  | [] => false

/-- The elements of every member. -/
def tupleElements (vs : List Value) : Except Fault (List (List Value)) :=
  vs.mapM fun v => v.elements?.elim (.error .notIterable) .ok

/-- The markers of the tuple at place `i`: as many as it has elements, from `i` times as many
on. -/
def tupleMarks (i : Nat) (elements : List Value) : List Nat :=
  (List.range elements.length).map (i * elements.length + ·)

/-- Members under keys made from that of the list, counted from one. A key may be that of another
marker too; a member keeps its own value. -/
def keyed (key : String) (vs : List Value) : List (String × Value) :=
  vs.zipIdx.map fun (v, i) => (key ++ "_" ++ toString (i + 1), v)

/-- The elements of tuples under keys of the list, the tuple and the element. -/
def keyedElements (key : String) (groups : List (List Value)) : List (String × Value) :=
  groups.zipIdx.flatMap fun (g, i) => keyed (key ++ "_" ++ toString (i + 1)) g

/-- The spelling of a list of tuples and the values it binds. Each marker needs a value. -/
def spellTuples (key : String) (vs : List Value) :
    Except Fault (Spelling × List (String × Value)) := do
  let groups ← tupleElements vs
  let marks := groups.zipIdx.map fun (g, i) => tupleMarks i g
  let count := groups.flatten.length
  if marks.all fun ms => ms.all (· < count) then
    return (.tuples marks, keyedElements key groups)
  else .error .markerRange

def spellMembers (key : String) (vs : List Value) :
    Except Fault (Spelling × List (String × Value)) :=
  if holdsTuples vs then spellTuples key vs
  else .ok (if vs.isEmpty then .nothing else .each, keyed key vs)

/-! ## Spelled lists -/

/-- A list under a key: what stands in its place, and the marks of its members. -/
structure Listing where
  key : String
  glyphs : List Glyph
  marks : List Mark
deriving Repr, Inhabited

/-- The marks of members, the first of which has number `first`. -/
def memberMarks (style : MarkerStyle) (first : Nat) (members : List (String × Value)) : List Mark :=
  members.zipIdx.map fun (e, i) => ⟨e.1, style.mark (first + i), [e.2]⟩

/-- A member where it stands. Numbers are given only when all lists are spelled. -/
def memberGlyphs (style : MarkerStyle) (m : Mark) : List Glyph :=
  if style = .dollar then [.marker m] else Glyph.ofText m.text

/-- A condition that no row meets, or that every row meets, for a list without members. -/
def emptyList (d : Dialect) (negated : Bool) : String :=
  if d = .sqlite then "SELECT 1 FROM (SELECT 1) WHERE 1!=1"
  else if negated then "NULL) OR (1 = 1"
  else "NULL) AND (1 != 1"

def joinGlyphs (parts : List (List Glyph)) : List Glyph :=
  (parts.intersperse (Glyph.ofText ", ")).flatten

/-- What stands in the place of a list. -/
def listGlyphs (d : Dialect) (style : MarkerStyle) (negated : Bool) (spelling : Spelling)
    (marks : List Mark) : List Glyph :=
  match spelling with
  | .nothing => Glyph.ofText (emptyList d negated)
  | .each => joinGlyphs (marks.map (memberGlyphs style))
  | .tuples groups =>
    let members := (marks.map (memberGlyphs style)).toArray
    Glyph.ofText (if d = .sqlite then "VALUES " else "") ++
      joinGlyphs (groups.map fun ms =>
        Glyph.ofText "(" ++ joinGlyphs (ms.filterMap fun i => members[i]?) ++ Glyph.ofText ")")

namespace Listing

/-- A list whose first member has number `first`. A stuck list binds its values only where markers
have numbers. Values that are bound are looked up under the key, which must not be `lost`. -/
def ofMembers (d : Dialect) (style : MarkerStyle) (lost : List String) (first : Nat) (key : String)
    (negated : Bool) (vs : List Value) : Except Fault Listing := do
  if isStuck key && style ≠ .dollar then return ⟨key, [], []⟩
  if lost.contains key then .error .lostName
  let (spelling, members) ← spellMembers key vs
  let marks := memberMarks style first members
  return ⟨key, listGlyphs d style negated spelling marks, marks⟩

/-- The place of the list in a statement; a stuck list leaves only its text there. -/
def place (l : Listing) : List Glyph :=
  if isStuck l.key then Glyph.ofText (slotText l.key) else [.slot l.key]

def values (l : Listing) : List Value := l.marks.flatMap Mark.values

end Listing

end SqlFragment
