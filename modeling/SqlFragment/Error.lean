import SqlFragment.Operator
import SqlFragment.Path
import SqlFragment.Text.Similarity
import SqlFragment.Value.Order

/-!
What can be wrong with a query, by cause. Texts and records of the causes are in `Error.Report`.
-/
namespace SqlFragment

/-- What is wrong with a filter, a sort or a range of rows. -/
inductive Invalid
  | other (message : String)
  | notMapping (found : String)
  | notNode (found : String)
  | emptyCondition
  | emptyModifiers
  | noBranches (connective : String)
  | likeNotMapping
  | noConditions (operator : Value)
  | noAttribute (node : Value)
  | notRange (operator : Operator) (operand : Value)
  | notCount (field : String) (found : Value)
  | notDirection (found : Value)
deriving Repr, Inhabited

/-- What is wrong with the description of an association. -/
inductive Problem
  | other (message : String)
  | notMapping (found : String)
  | fieldNotMapping (field : String)
  | notList
  | unknownStrategy (found : Value)
  | stepCount (strategy : JoinStrategy) (expected found : Nat)
  | missingKey (key : String)
  | duplicate (name : Value)
deriving Repr, Inhabited

/-- Why the field of an attribute was refused. -/
inductive FieldIssue
  | boolType
  | boolUnreadable
  | textType
  | textEncoding
  | keyType
  | notAttribute
  | notMapping
deriving DecidableEq, Repr, Inhabited

/-- A refused part of a table's description: the keys that lead to it, and why. -/
structure SchemaIssue where
  place : List Value
  issue : FieldIssue
deriving Repr, Inhabited

inductive Error
  | other (message : String)
  | schema (message : String)
  | criteria (message : String)
  | unknownMarkerStyle (name : String)
  | unknownDialect (name : String) (supported : List String)
  | unknownTable (table : String) (available : List Value)
  | primaryKey (table : String) (candidates : List String)
  | invalid (cause : Invalid) (path : Option Path)
  | unknownOperator (operator : Value) (valid : List String)
  | unknownField (field table : String) (available : List String) (fullPath : Option String)
      (cutoff : Decimal)
  | notQueryable (field table : String) (available : List String) (fullPath : Option String)
  | association (problem : Problem) (path : Option Path)
  | attributes (issues : List SchemaIssue)
  | fault (fault : Fault)
deriving Repr, Inhabited

/-- How alike a suggestion must be, unless something else is asked for. -/
def usualCutoff : Decimal := .finite false 6 (-1)

namespace Error

/-- An error whose message writes a value. If the value cannot be written, that is the fault. -/
def telling (v : Value) (e : Error) : Error :=
  if v.isWritable then e else .fault .unreadableNumber

theorem telling_eq_iff {v : Value} {e e' : Error} : telling v e = e' ↔
    v.isWritable = true ∧ e = e' ∨ v.isWritable = false ∧ .fault .unreadableNumber = e' := by
  unfold telling
  cases v.isWritable <;> simp

/-- Whether a suggestion for `word` would be a name that is no text. The members of a tuple are
compared with the characters of the word. -/
def resembles (word : String) (name : Value) : Bool :=
  let letters := word.toList.map fun c => String.ofList [c]
  let members := (name.elements?.getD []).map fun v => v.text?.getD ""
  match usualCutoff.toBinary? with
  | some c => !name.isText && Text.reaches c (Text.similarity letters members)
  | none => false

/-- An unknown table. Names that are no texts can be listed if they have an order and none of them
would be suggested. -/
def noTable (table : String) (names : List Value) : Error :=
  let listed := names.all Value.isText ||
    (names.all fun n => n.elements?.isSome) && Value.haveOrder names &&
      !names.any (resembles table)
  if listed then .unknownTable table names else .fault .foreignName

/-- A field of an unknown table. The names of the tables must be texts. -/
def noFieldTable (table : String) (names : List Value) (fullPath : String) : Error :=
  match names.mapM Value.text? with
  | some available => .unknownField table "<schema>" available (some fullPath) usualCutoff
  | none => .fault .foreignName

/-- An unknown field of `table`. -/
def noField (field table : String) (available : List String) (fullPath : String) : Error :=
  .unknownField field table available (some fullPath) usualCutoff

def ofFault {α : Type} : Except Fault α → Except Error α
  | .ok a => .ok a
  | .error f => .error (.fault f)

end Error

end SqlFragment
