import SqlFragment.Error

/-!
Errors as they are reported: the kind, a message, and a record for programs. Where a name is
unknown, likely ones are suggested.
-/
namespace SqlFragment

namespace Invalid

def message : Invalid → String
  | .other m => m
  | .notMapping found => "Expected a mapping, got " ++ found
  | .notNode found => "Expected a dict, got " ++ found
  | .emptyCondition => "Empty condition"
  | .emptyModifiers => "Empty modifier mapping"
  | .noBranches c => "Logical operator '" ++ c ++ "' requires a non-empty list"
  | .likeNotMapping => "'like' requires a mapping of attribute to pattern"
  | .noConditions op => "Logical operator '" ++ op.display ++ "' requires 'conditions' list"
  | .noAttribute node => "Criteria node missing 'attr': " ++ node.display
  | .notRange op v => "Operator '" ++ op.name ++ "' requires a [low, high] pair, got " ++ v.literal
  | .notCount field v => "'" ++ field ++ "' must be a non-negative integer, got " ++ v.literal
  | .notDirection v => "Invalid sort direction: " ++ v.literal

end Invalid

namespace Problem

def message : Problem → String
  | .other m => m
  | .notMapping found => "expected dict, got " ++ found
  | .fieldNotMapping field => "'" ++ field ++ "' must be a dict"
  | .notList => "'instructions' must be a list"
  | .unknownStrategy v => "unknown strategy " ++ v.literal
  | .stepCount s expected found =>
    "strategy '" ++ s.keyword.toLower ++ "' requires " ++ toString expected ++
      " join step(s), got " ++ toString found
  | .missingKey key => "missing '" ++ key ++ "'"
  | .duplicate name => "Duplicate association '" ++ name.display ++ "'"

end Problem

namespace Error

/-- Kinds of errors; every kind but the first is a special case of another. -/
inductive Kind
  | base
  | dialect
  | schema
  | table
  | primaryKey
  | criteria
  | operator
  | field
  | validation
  | queryable
  | association
deriving DecidableEq, Repr, Inhabited

namespace Kind

def name : Kind → String
  | .base => "SequelError"
  | .dialect => "DialectNotSupportedError"
  | .schema => "SchemaError"
  | .table => "TableNotFoundError"
  | .primaryKey => "PrimaryKeyError"
  | .criteria => "CriteriaError"
  | .operator => "OperatorNotFoundError"
  | .field => "FieldNotFoundError"
  | .validation => "ValidationError"
  | .queryable => "FieldNotQueryableError"
  | .association => "InstructionError"

/-- The kind itself and all that it is a case of. -/
def ancestors : Kind → List Kind
  | .base => [.base]
  | .dialect => [.dialect, .base]
  | .schema => [.schema, .base]
  | .table => [.table, .schema, .base]
  | .primaryKey => [.primaryKey, .schema, .base]
  | .criteria => [.criteria, .base]
  | .operator => [.operator, .criteria, .base]
  | .field => [.field, .criteria, .base]
  | .validation => [.validation, .criteria, .base]
  | .queryable => [.queryable, .validation, .criteria, .base]
  | .association => [.association, .validation, .criteria, .base]

end Kind

/-- Faults and refused attributes are of no kind. -/
def kind? : Error → Option Kind
  | .other _ => some .base
  | .schema _ => some .schema
  | .criteria _ | .unknownMarkerStyle _ => some .criteria
  | .unknownDialect .. => some .dialect
  | .unknownTable .. => some .table
  | .primaryKey .. => some .primaryKey
  | .invalid .. => some .validation
  | .unknownOperator .. => some .operator
  | .unknownField .. => some .field
  | .notQueryable .. => some .queryable
  | .association .. => some .association
  | .attributes _ | .fault _ => none

/-- Where in the query the error is, if it says. -/
def path? : Error → Option Path
  | .invalid _ path | .association _ path => path
  | .notQueryable _ _ _ fullPath => fullPath.map .root
  | _ => none

/-- The full path of a field, or the field where none is given. -/
def pathOr (fullPath : Option String) (field : String) : String :=
  match fullPath with
  | some p => if p.isEmpty then field else p
  | none => field

/-- Names like the one that was not found, at most three, and five for a field. -/
def suggestions : Error → List String
  | .unknownTable table available => near table (available.filterMap Value.text?) 3 usualCutoff
  | .unknownOperator (.text op) valid => near op valid 3 usualCutoff
  | .unknownField field _ available _ cutoff => near field available 5 cutoff
  | .notQueryable field _ available _ => near field available 3 usualCutoff
  | _ => []
where
  near (word : String) (candidates : List String) (count : Nat) (cutoff : Decimal) : List String :=
    match cutoff.toBinary? with
    | some c => Text.closeMatches word candidates count c
    | none => []

/-- A question with the suggestions, after `lead`. -/
def didYouMean (lead : String) (names : List String) : String :=
  if names.isEmpty then "" else lead ++ "Did you mean: " ++ Value.commas names ++ "?"

/-- The first fifteen fields in order. -/
def fieldPreview (available : List String) : String :=
  let fields := Text.sorted available
  Value.commas (fields.take 15) ++ if 15 < fields.length then ", ..." else ""

def message (e : Error) : String :=
  match e with
  | .other m | .schema m | .criteria m => m
  | .unknownMarkerStyle name =>
    "Unsupported paramstyle: '" ++ name ++ "'. Supported: format, numeric_dollar, qmark"
  | .unknownDialect name supported =>
    "Unsupported dialect: '" ++ name ++ "'. Supported dialects: " ++
      Value.commas (Text.sorted supported)
  | .unknownTable table _ =>
    "Unknown table: '" ++ table ++ "'." ++ didYouMean " " e.suggestions
  | .primaryKey table candidates =>
    if candidates.isEmpty then "Table '" ++ table ++ "' declares no primary key"
    else "Table '" ++ table ++ "' declares " ++ toString candidates.length ++ " primary keys (" ++
      Value.commas candidates ++ "); exactly one is required"
  | .invalid cause _ => cause.message
  | .unknownOperator op valid =>
    "Unknown operator: '" ++ op.display ++ "'." ++ didYouMean " " e.suggestions ++
      " Valid operators: " ++ Value.commas ((Text.sorted valid).take 10) ++ "..."
  | .unknownField field table available _ _ =>
    let hints := if e.suggestions.isEmpty then [] else
      "Did you mean one of these?" :: e.suggestions.map fun s => "  • " ++ s
    "\n".intercalate (["Invalid field '" ++ field ++ "' on '" ++ table ++ "'."] ++ hints ++
      ["Available fields: " ++ fieldPreview available])
  | .notQueryable field table _ fullPath =>
    "Field '" ++ field ++ "' on '" ++ table ++ "' exists but is not queryable " ++
      "(it is a collection attribute). Full path: '" ++ pathOr fullPath field ++ "'" ++
      didYouMean "\n" e.suggestions
  | .association problem _ => problem.message
  | .attributes _ | .fault _ => ""

def texts (names : List String) : Value := .list (names.map .text)

def pathValue (path : Option Path) : Value :=
  match path with
  | some p => .text p.text
  | none => .null

/-- The error as a record of named values. -/
def toRecord (e : Error) : List (String × Value) :=
  match e with
  | .unknownTable table available =>
    [("error", .text "TABLE_NOT_FOUND"), ("table", .text table),
     ("suggestions", texts e.suggestions), ("available_tables", .list (Value.sorted available))]
  | .primaryKey table candidates =>
    [("error", .text "PRIMARY_KEY_ERROR"), ("table", .text table),
     ("candidates", texts candidates)]
  | .invalid cause path =>
    [("error", .text "VALIDATION_ERROR"), ("message", .text cause.message),
     ("path", pathValue path)]
  | .unknownOperator op valid =>
    [("error", .text "OPERATOR_NOT_FOUND"), ("operator", op),
     ("suggestions", texts e.suggestions), ("valid_operators", texts (Text.sorted valid))]
  | .unknownField field table available fullPath _ =>
    [("error", .text "FIELD_NOT_FOUND"), ("field", .text field), ("table", .text table),
     ("full_path", .text (pathOr fullPath field)), ("suggestions", texts e.suggestions),
     ("available_fields", texts (Text.sorted available))]
  | .notQueryable field table available fullPath =>
    [("error", .text "FIELD_NOT_QUERYABLE"), ("field", .text field), ("table", .text table),
     ("full_path", .text (pathOr fullPath field)), ("suggestions", texts e.suggestions),
     ("available_fields", texts (Text.sorted available))]
  | .association problem path =>
    [("error", .text "INSTRUCTION_ERROR"), ("message", .text problem.message),
     ("path", pathValue path)]
  | e =>
    [("error", .text ((e.kind?.map Kind.name).getD "")), ("message", .text e.message)]

/-- An unknown field whose suggestions reach a given cutoff, which lies between zero and one. -/
def unknownFieldAt (field table : String) (available : List String) (fullPath : Option String)
    (cutoff : Value) : Except Fault Error :=
  match cutoff.number? with
  | none => .error .cutoffKind
  | some c =>
    match c.toFraction? with
    | none => .error .cutoffRange
    | some (n, d) =>
      if 0 ≤ n && n ≤ d then .ok (.unknownField field table available fullPath c)
      else .error .cutoffRange

end Error

end SqlFragment
