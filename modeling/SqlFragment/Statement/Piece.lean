import SqlFragment.Value

/-!
Statements as pieces, before identifiers are quoted and markers are numbered.
-/
namespace SqlFragment

inductive Piece
  /-- Keywords and punctuation, with the spaces around them. -/
  | word (text : String)
  /-- An identifier. -/
  | name (text : String)
  /-- A marker for one value. -/
  | marker (label : String) (value : Value)
  /-- The markers for the members of a list, between parentheses that are not part of it. -/
  | members (label : String) (negated : Bool) (values : List Value)
deriving Repr, Inhabited

/-- Whether it is a marker for one value. -/
def Piece.isMarker : Piece → Bool
  | .marker .. => true
  | _ => false

/-- Parts with a piece between each two. -/
def joinPieces (between : Piece) : List (List Piece) → List Piece
  | [] => []
  | [ps] => ps
  | ps :: rest => ps ++ between :: joinPieces between rest

/-- A label is a name without the characters that end labels and markers. -/
def labelFrom (cut : Bool) : List Char → List Char
  | [] => []
  | c :: cs =>
    if c = '%' || c = '(' || c = ')' || c = ' ' || c = '$' then
      if cut then labelFrom true cs else '_' :: labelFrom true cs
    else c :: labelFrom false cs

def trimLabel (cs : List Char) : List Char :=
  ((cs.dropWhile (· == '_')).reverse.dropWhile (· == '_')).reverse

/-- The label of a value that is compared with a column by its name. -/
def columnLabel (name : String) : String := String.ofList (trimLabel (labelFrom false name.toList))

/-- The label of every other value. -/
def valueLabel : String := "param"

end SqlFragment
