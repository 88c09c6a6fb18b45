import SqlFragment.Dialect
import SqlFragment.Text.Digit

/-!
Markers for bound values: their styles, and texts with numbered markers.
-/
namespace SqlFragment

inductive MarkerStyle
  | question
  | dollar
  | percent
deriving DecidableEq, Repr, Inhabited

namespace MarkerStyle

def all : List MarkerStyle := [.question, .dollar, .percent]

def name : MarkerStyle → String
  | .question => "qmark"
  | .dollar => "numeric_dollar"
  | .percent => "format"

/-- The style of markers, unless another is asked for. -/
def usual : MarkerStyle := .question

def ofName (s : String) : Except Error MarkerStyle :=
  match all.find? fun p => p.name == s with
  | some p => .ok p
  | none => .error (.unknownMarkerStyle s)

/-- The marker of the `n`-th value. -/
def mark : MarkerStyle → Nat → String
  | .question, _ => "?"
  | .dollar, n => "$" ++ toString n
  | .percent, _ => "%s"

end MarkerStyle

/-- The quoting of a dialect in statements with markers of a style. -/
def Dialect.quoting (d : Dialect) (style : MarkerStyle) : Quoting := ⟨d.mark, style == .percent⟩

/-- A character of a text, or the number that follows a dollar sign. -/
inductive Token
  | char (c : Char)
  | number (n digits : Nat)
deriving DecidableEq, Repr

/-- What was just read: a number after a dollar sign, a dollar sign, or something else. -/
inductive Reading
  | other
  | dollar
  | number (n digits : Nat)

/-- The number that was being read. -/
def Reading.tokens : Reading → List Token
  | .number n digits => [.number n digits]
  | _ => []

def tokensFrom : Reading → List Char → List Token
  | state, [] => state.tokens
  | state, c :: cs =>
    match state, Text.digitValue? c with
    | .dollar, some k => tokensFrom (.number k 1) cs
    | .number n digits, some k => tokensFrom (.number (10 * n + k) (digits + 1)) cs
    | state, _ => state.tokens ++ .char c :: tokensFrom (if c = '$' then .dollar else .other) cs

namespace Token

/-- The token with its number, if it is one, moved. -/
def moved (shift : Int) : Token → List Char
  | .char c => [c]
  | .number n _ => (toString ((n : Int) + shift)).toList

/-- Whether neither the number nor the moved one has too many digits. -/
def isMovable (shift : Int) : Token → Bool
  | .char _ => true
  | .number n digits =>
    digits ≤ Text.longestNumber && ((n : Int) + shift).natAbs < Nat.pow 10 Text.longestNumber

end Token

/-- The text with its numbered markers starting at `start` in the place of one. -/
def renumber (start : Int) (s : String) : Except Fault String :=
  let tokens := tokensFrom .other s.toList
  if start = 1 then .ok s
  else if tokens.all (Token.isMovable (start - 1)) then
    .ok (String.ofList (tokens.flatMap (Token.moved (start - 1))))
  else .error .unreadableNumber

end SqlFragment
