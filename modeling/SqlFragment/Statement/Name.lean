import SqlFragment.Marker
import SqlFragment.Statement.Piece
import SqlFragment.Text.Blank

/-!
Names of the markers and lists of a statement. Each is made from a label and is spelled without the
characters that would end it.
-/
namespace SqlFragment

/-- Names for labels in order: each the label and its number among equal labels. What would be
longer than `limit` allows is cut and numbered among such. -/
def slotNamesFrom (limit : Nat) (seen : List String) (cuts : Nat) : List String → List String
  | [] => []
  | label :: labels =>
    let full := label ++ "_" ++ toString (seen.count label + 1)
    if limit < full.length + 6 then
      String.ofList (full.toList.take (limit - 6) ++ '_' :: Nat.toDigits 16 (cuts + 1)) ::
        slotNamesFrom limit (label :: seen) (cuts + 1) labels
    else full :: slotNamesFrom limit (label :: seen) cuts labels

def Piece.label? : Piece → Option String
  | .marker label _ | .members label _ _ => some label
  | _ => none

def slotNames (d : Dialect) (ps : List Piece) : List String :=
  slotNamesFrom d.nameLimit [] 0 (ps.filterMap Piece.label?)

/-- A name is spelled with these characters replaced. -/
def slotChar (c : Char) : Char :=
  if c = '%' then 'P'
  else if c = '(' then 'A'
  else if c = ')' then 'Z'
  else if c = ':' then 'C'
  else if c = '.' || c = '[' || c = ']' || c = ' ' then '_'
  else c

def spelled (name : String) : String := String.ofList (name.toList.map slotChar)

/-- The spellings under which nothing is found: those of names that are not spelled as they are. -/
def lostSpellings (names : List String) : List String :=
  (names.filter fun n => spelled n != n).map spelled

/-- Whether two names are spelled alike that must be told apart: among names that are not spelled as
they are, and where markers have numbers and there is such a name, among all names. The names that
members of lists get are not looked at. -/
def clash (style : MarkerStyle) (names : List String) : Bool :=
  let lost := lostSpellings names
  match style with
  | .dollar => !lost.isEmpty && !(names.map spelled).Nodup
  | .question | .percent => !lost.Nodup

/-- What a place of a list starts with. -/
def slotStart : String := "__[POSTCOMPILE_"

/-- What stands in a statement for a list that is not spelled yet. -/
def slotText (key : String) : String := slotStart ++ key ++ "]"

/-- White space in its key keeps a list from being spelled. -/
def isStuck (key : String) : Bool := key.toList.any Text.isBlank

end SqlFragment
