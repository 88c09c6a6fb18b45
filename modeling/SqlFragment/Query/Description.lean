import SqlFragment.Error.Report
import SqlFragment.Query
import SqlFragment.Text.Digit

/-!
Queries read from mappings. Everything wrong with a mapping is collected first; a query is built
only when nothing is.
-/
namespace SqlFragment

namespace JoinStrategy

/-- Words for strategies, in lower case. -/
def words : List (String × JoinStrategy) :=
  [("parent_owns_key", .parentOwnsKey), ("parentfk", .parentOwnsKey), ("hasfk", .parentOwnsKey),
   ("child_owns_key", .childOwnsKey), ("childfk", .childOwnsKey), ("viafk", .childOwnsKey),
   ("junction", .junction), ("viajunctor", .junction)]

def ofCode? (n : Int) : Option JoinStrategy :=
  [JoinStrategy.parentOwnsKey, .childOwnsKey, .junction].find? fun s => s.code == n

/-- Digits are read as a number, and anything else as a word. -/
def ofText (s : String) : Except Fault (Option JoinStrategy) :=
  let word := Text.strip s
  if !word.isEmpty && word.toList.all Text.isDigit then
    match Text.readNat? word with
    | some n => .ok (ofCode? n)
    | none => .error .unreadableNumber
  else .ok (words.lookup (Text.lower word))

/-- A strategy, its number or a text for it, also under the key `strategy` of a mapping. -/
def ofValue (v : Value) : Except Fault (Option JoinStrategy) :=
  let v := match v with
    | .map es => Value.get es "strategy"
    | v => v
  match v with
  | .strategy s => .ok (some s)
  | .text s => ofText s
  | v => .ok (v.toInt?.bind ofCode?)

end JoinStrategy

namespace Query

/-- Something wrong at a place of a description. -/
abbrev Finding := Path × Problem

/-- A part of a mapping that has to be a mapping itself. -/
def fieldFindings (path : Path) (es : Entries) (key : String) : List Finding :=
  let v := Value.get es key
  if v.isNull || v.isMap then [] else [(path.key key, .fieldNotMapping key)]

def stepKeys : List String := ["parent", "parentKey", "child", "childKey"]

/-- A name that is not empty. -/
def isName : Value → Bool
  | .text s => !s.isEmpty
  | _ => false

def keyFindings (path : Path) (es : Entries) : List Finding :=
  (stepKeys.filter fun key => !isName (Value.get es key)).map fun key => (path, .missingKey key)

/-- A value that names no strategy is written into the finding. -/
def strategyFindings (path : Path) (found : Value) (strategy : Option JoinStrategy) :
    Except Fault (List Finding) :=
  if strategy.isSome then .ok []
  else if found.isWritable then .ok [(path.key "strategy", .unknownStrategy found)]
  else .error .unreadableNumber

def countFindings (path : Path) (strategy : Option JoinStrategy) (count : Nat) : List Finding :=
  match strategy with
  | some s =>
    if count = s.stepCount then []
    else [(path.key "instructions", .stepCount s s.stepCount count)]
  | none => []

mutual

/-- All that is wrong with the description of a query. -/
def findings (path : Path) (description : Value) : Except Fault (List Finding) :=
  match description with
  | .map es => do
    let parts := fieldFindings path es "where" ++ fieldFindings path es "sort"
    match _found : Value.lookup "instructions" es with
    | none | some .null => return parts
    | some (.map associations) =>
      return parts ++ (← associationsFindings (path.key "instructions") associations)
    | some _ => return parts ++ [(path.key "instructions", .fieldNotMapping "instructions")]
  | v => .ok [(path, .notMapping v.kindName)]
termination_by sizeOf description
decreasing_by
  have := Value.sizeOf_lookup _found
  simp at this ⊢
  omega

def associationsFindings (path : Path) (associations : Entries) : Except Fault (List Finding) :=
  match associations with
  | [] => .ok []
  | (name, description) :: rest => do
    let shown ← name.shown
    let here ← associationFindings (path.key shown) description
    let more ← associationsFindings path rest
    return here ++ more
termination_by sizeOf associations

def associationFindings (path : Path) (description : Value) : Except Fault (List Finding) :=
  match description with
  | .map es => do
    let found := Value.get es "strategy"
    let strategy ← JoinStrategy.ofValue found
    let here ← strategyFindings path found strategy
    match _found : Value.lookup "instructions" es with
    | some (.list steps) | some (.tuple steps) =>
      return here ++ countFindings path strategy steps.length ++
        (← stepsFindings (path.key "instructions") 0 steps)
    | _ => return here ++ [(path.key "instructions", .notList)]
  | v => .ok [(path, .notMapping v.kindName)]
termination_by sizeOf description
decreasing_by
  all_goals
    have := Value.sizeOf_lookup _found
    simp at this ⊢
    omega

def stepsFindings (path : Path) (i : Nat) (steps : List Value) : Except Fault (List Finding) :=
  match steps with
  | [] => .ok []
  | step :: rest => do
    let here ← stepFindings (path.index i) step
    let more ← stepsFindings path (i + 1) rest
    return here ++ more
termination_by sizeOf steps

def stepFindings (path : Path) (step : Value) : Except Fault (List Finding) :=
  match step with
  | .map es => do
    let here := keyFindings path es
    match _found : Value.lookup "criteria" es with
    | none | some .null => return here
    | some criteria => return here ++ (← findings (path.key "criteria") criteria)
  | v => .ok [(path, .notMapping v.kindName)]
termination_by sizeOf step
decreasing_by
  have := Value.sizeOf_lookup _found
  simp at this ⊢
  omega

end

/-- A text at a key. -/
def textAt (es : Entries) (key : String) : Except Error String :=
  match Value.lookup key es with
  | some (.text s) => .ok s
  | some _ => .error (.fault .notText)
  | none => .error (.fault .lostName)

def linkOf (es : Entries) : Except Error Link := do
  let parentTable ← textAt es "parent"
  let parentKey ← textAt es "parentKey"
  let childTable ← textAt es "child"
  let childKey ← textAt es "childKey"
  return { parentTable, parentKey, childTable, childKey }

/-- The association of a strategy with the first steps; no strategy stands for a junction. -/
def associationOf (name : Value) (strategy : Option JoinStrategy) (steps : List JoinStep) :
    Except Error Association :=
  match strategy, steps with
  | some .parentOwnsKey, step :: _ => .ok (.parentOwnsKey name step)
  | some .childOwnsKey, step :: _ => .ok (.childOwnsKey name step)
  | some .junction, link :: target :: _ => .ok (.junction name link target)
  | none, link :: target :: _ => .ok (.junction name link target)
  | _, _ => .error (.fault .markerRange)

/-- What is no list is walked, too: it has no steps, or something that is none. -/
def strayed (v : Value) : Except Error (List JoinStep) :=
  match v.elements? with
  | none => .error (.fault .notIterable)
  | some [] => .ok []
  | some _ => .error (.fault .notMapping)

mutual

/-- The query of a description. Only the names of its associations are looked at again; for
anything else that is wrong with it there is a fault. -/
def build (description : Value) : Except Error Query :=
  match description with
  | .map es =>
    match _found : Value.lookup "instructions" es with
    | none => create (.ofEntries es) []
    | some (.map associations) => do create (.ofEntries es) (← buildAssociations associations)
    | some v => if v.isTruthy then .error (.fault .notMapping) else create (.ofEntries es) []
  | _ => .error (.fault .notMapping)
termination_by sizeOf description
decreasing_by
  have := Value.sizeOf_lookup _found
  simp at this ⊢
  omega

def buildAssociations (associations : Entries) : Except Error (List Association) :=
  match associations with
  | [] => .ok []
  | (name, description) :: rest => do
    let a ← buildAssociation name description
    let as ← buildAssociations rest
    return a :: as
termination_by sizeOf associations

def buildAssociation (name description : Value) : Except Error Association :=
  match description with
  | .map es => do
    let strategy ← Error.ofFault (JoinStrategy.ofValue (Value.get es "strategy"))
    match _found : Value.lookup "instructions" es with
    | none => .error (.fault .lostName)
    | some (.list steps) | some (.tuple steps) | some (.set steps) => do
      associationOf name strategy (← buildSteps steps)
    | some v => do associationOf name strategy (← strayed v)
  | _ => .error (.fault .notMapping)
termination_by sizeOf description
decreasing_by
  all_goals
    have := Value.sizeOf_lookup _found
    simp at this ⊢
    omega

def buildSteps (steps : List Value) : Except Error (List JoinStep) :=
  match steps with
  | [] => .ok []
  | step :: rest => do
    let s ← buildStep step
    let ss ← buildSteps rest
    return s :: ss
termination_by sizeOf steps

def buildStep (step : Value) : Except Error JoinStep :=
  match step with
  | .map es => do
    let link ← linkOf es
    match _found : Value.lookup "criteria" es with
    | none | some .null => return ⟨link, none⟩
    | some criteria => return ⟨link, some (← build criteria)⟩
  | _ => .error (.fault .notMapping)
termination_by sizeOf step
decreasing_by
  have := Value.sizeOf_lookup _found
  simp at this ⊢
  omega

end

/-- Where descriptions are rooted. -/
def descriptionRoot : Path := .root "<root>"

/-- All that is wrong with a description, as lines of text. -/
def validate (description : Value) : Except Fault (List String) :=
  (findings descriptionRoot description).map fun fs =>
    fs.map fun (path, problem) => path.text ++ ": " ++ problem.message

/-- The query of a description, or the first thing wrong with it; nothing describes the empty
query. -/
def ofValue (description : Value) : Except Error Query :=
  if description.isNull then .ok empty
  else do
    match ← Error.ofFault (findings descriptionRoot description) with
    | (path, problem) :: _ => .error (.association problem (some path))
    | [] => build description

end Query

end SqlFragment
