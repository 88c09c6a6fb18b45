import SqlFragment.Decimal.Binary
import SqlFragment.Fault
import SqlFragment.Text.Digit

/-!
The values that queries are written with: operands, options and whole filter trees. A mapping keeps
the order of its entries.
-/
namespace SqlFragment

inductive SortDirection
  | asc
  | desc
deriving DecidableEq, Repr, Inhabited

def SortDirection.code : SortDirection → Int
  | .asc => 1
  | .desc => -1

def SortDirection.keyword : SortDirection → String
  | .asc => "ASC"
  | .desc => "DESC"

/-- Where the foreign key of an association is held. -/
inductive JoinStrategy
  | parentOwnsKey
  | childOwnsKey
  | junction
deriving DecidableEq, Repr, Inhabited

def JoinStrategy.code : JoinStrategy → Int
  | .parentOwnsKey => 1
  | .childOwnsKey => 2
  | .junction => 3

def JoinStrategy.keyword : JoinStrategy → String
  | .parentOwnsKey => "PARENT_OWNS_KEY"
  | .childOwnsKey => "CHILD_OWNS_KEY"
  | .junction => "JUNCTION"

inductive Value
  | null
  | bool (b : Bool)
  | int (n : Int)
  | decimal (d : Decimal)
  | text (s : String)
  | bytes (bs : List UInt8)
  | direction (d : SortDirection)
  | strategy (s : JoinStrategy)
  | list (xs : List Value)
  | tuple (xs : List Value)
  | set (xs : List Value)
  | map (entries : List (Value × Value))
deriving Repr, Inhabited

/-- Entries of a mapping. -/
abbrev Entries := List (Value × Value)

namespace Value

def kindName : Value → String
  | .null => "NoneType"
  | .bool _ => "bool"
  | .int _ => "int"
  | .decimal _ => "float"
  | .text _ => "str"
  | .bytes _ => "bytes"
  | .direction _ => "SortDirection"
  | .strategy _ => "JoinStrategy"
  | .list _ => "list"
  | .tuple _ => "tuple"
  | .set _ => "set"
  | .map _ => "dict"

/-- Everything but nothing, no, zero and what is empty. -/
def isTruthy : Value → Bool
  | .null => false
  | .bool b => b
  | .int n => n != 0
  | .decimal d => !d.isZero
  | .text s => !s.isEmpty
  | .bytes bs => !bs.isEmpty
  | .direction _ | .strategy _ => true
  | .list xs | .tuple xs | .set xs => !xs.isEmpty
  | .map es => !es.isEmpty

def isNull : Value → Bool
  | .null => true
  | _ => false

def isMap : Value → Bool
  | .map _ => true
  | _ => false

theorem map_or_other (v : Value) : (∃ es, v = .map es) ∨ v.isMap = false := by
  cases v with
  | map es => exact .inl ⟨es, rfl⟩
  | _ => exact .inr rfl

/-- A whole number; a truth value is none. -/
def toInt? : Value → Option Int
  | .int n => some n
  | .direction d => some d.code
  | .strategy s => some s.code
  | _ => none

def text? : Value → Option String
  | .text s => some s
  | _ => none

def isText (v : Value) : Bool := v.text?.isSome

/-- The members of a list or tuple. -/
def items? : Value → Option (List Value)
  | .list xs | .tuple xs => some xs
  | _ => none

/-- What a walk over the value visits: characters of a text, keys of a mapping. -/
def elements? : Value → Option (List Value)
  | .list xs | .tuple xs | .set xs => some xs
  | .text s => some (s.toList.map fun c => .text (String.ofList [c]))
  | .bytes bs => some (bs.map fun b => .int b.toNat)
  | .map es => some (es.map (·.1))
  | _ => none

def entries? : Value → Option Entries
  | .map es => some es
  | _ => none

/-! ## Equality -/

/-- Numbers of every kind on one scale, on which nought has no sign. -/
def number? : Value → Option Decimal
  | .bool b => some (.ofParts false (if b then 1 else 0) 0)
  | .int n => some (.ofParts (n < 0) n.natAbs 0)
  | .direction d => some (.ofParts (d.code < 0) d.code.natAbs 0)
  | .strategy s => some (.ofParts false s.code.natAbs 0)
  | .decimal d => some (if d.isZero then .ofParts false 0 0 else d.held)
  | _ => none

mutual

/-- Equality that does not tell kinds of numbers apart, nor orders of entries. -/
def same : Value → Value → Bool
  | .null, .null => true
  | .text a, .text b => a == b
  | .bytes a, .bytes b => a == b
  | .list xs, .list ys => sameItems xs ys
  | .tuple xs, .tuple ys => sameItems xs ys
  | .set xs, .set ys => xs.length == ys.length && sameMembers xs ys
  | .map es, .map fs => es.length == fs.length && sameEntries es fs
  | a, b =>
    match a.number?, b.number? with
    | some x, some y => x == y
    | _, _ => false

def sameItems : List Value → List Value → Bool
  | [], [] => true
  | x :: xs, y :: ys => same x y && sameItems xs ys
  | _, _ => false

def sameMembers : List Value → List Value → Bool
  | [], _ => true
  | x :: xs, ys => (ys.any fun y => same x y) && sameMembers xs ys

def sameEntries : List (Value × Value) → List (Value × Value) → Bool
  | [], _ => true
  | (k, v) :: es, fs => (fs.any fun f => same k f.1 && same v f.2) && sameEntries es fs

end

/-! ## Mappings -/

/-- What stands at a text key. -/
def lookup {α : Type} (key : String) : List (Value × α) → Option α
  | [] => none
  | (.text k, v) :: es => if k = key then some v else lookup key es
  | _ :: es => lookup key es

/-- The value at a text key of a mapping, the null value when there is none. -/
def get (es : Entries) (key : String) : Value := (lookup key es).getD .null

mutual

/-- What is no number, alone or in a tuple, is not equal to another such. -/
def holdsNan : Value → Bool
  | .decimal .nan => true
  | .tuple xs => anyHoldsNan xs
  | _ => false

def anyHoldsNan : List Value → Bool
  | [] => false
  | x :: xs => holdsNan x || anyHoldsNan xs

end

/-- Equality of keys. -/
def sameKey (a b : Value) : Bool := same a b && !holdsNan a

/-- Something put at a key; an old key keeps its place. -/
def put {α : Type} (key : Value) (value : α) : List (Value × α) → List (Value × α)
  | [] => [(key, value)]
  | (k, v) :: es => if sameKey k key then (k, value) :: es else (k, v) :: put key value es

/-- The mapping that putting each entry in turn gives. -/
def ofEntries {α : Type} (es : List (Value × α)) : List (Value × α) :=
  es.foldl (fun acc e => put e.1 e.2 acc) []

mutual

/-- Keys must not change: lists, sets and mappings are none. -/
def isStable : Value → Bool
  | .list _ | .set _ | .map _ => false
  | .tuple xs => areStable xs
  | _ => true

def areStable : List Value → Bool
  | [] => true
  | x :: xs => isStable x && areStable xs

end

/-- The pair that one element of a list of entries writes. -/
def toPair (v : Value) : Except Fault (Value × Value) :=
  match v.elements? with
  | none => .error .notIterable
  | some [k, w] => if k.isStable then .ok (k, w) else .error .unstableKey
  | some _ => .error .notPair

/-- A mapping as it is, or one made of pairs. -/
def toEntries (v : Value) : Except Fault Entries :=
  match v with
  | .map es => .ok es
  | v =>
    match v.elements? with
    | none => .error .notIterable
    | some xs => (xs.mapM toPair).map ofEntries

/-- The entries of a mapping and of nothing else. -/
def asMap (v : Value) : Except Fault Entries :=
  match v with
  | .map es => .ok es
  | _ => .error .notMapping

theorem sizeOf_lookup {key : String} {v : Value} : ∀ {es : Entries}, lookup key es = some v →
    sizeOf v < sizeOf es
  | [], h => by simp [lookup] at h
  | (k, w) :: es, h => by
    have tail : lookup key es = some v → sizeOf v < sizeOf ((k, w) :: es) := fun h => by
      have := sizeOf_lookup h
      simp
      omega
    cases k
    case text s =>
      simp only [lookup] at h
      split at h
      · cases h
        simp
        omega
      · exact tail h
    all_goals exact tail (by simpa [lookup] using h)

/-! ## Texts -/

mutual

/-- Whether all numbers in a value can be written; one with too many digits cannot. -/
def isWritable : Value → Bool
  | .int n => Text.isShort n
  | .list xs | .tuple xs | .set xs => areWritable xs
  | .map es => areWritableEntries es
  | _ => true

def areWritable : List Value → Bool
  | [] => true
  | x :: xs => isWritable x && areWritable xs

def areWritableEntries : List (Value × Value) → Bool
  | [] => true
  | (k, v) :: es => isWritable k && isWritable v && areWritableEntries es

end

theorem areWritable_iff {xs : List Value} :
    areWritable xs = true ↔ ∀ x ∈ xs, x.isWritable = true := by
  induction xs with
  | nil => simp [areWritable]
  | cons x xs ih => simp [areWritable, ih]

theorem areWritableEntries_iff {es : Entries} : areWritableEntries es = true ↔
    ∀ e ∈ es, e.1.isWritable = true ∧ e.2.isWritable = true := by
  induction es with
  | nil => simp [areWritableEntries]
  | cons e es ih => simp [areWritableEntries, ih]

/-- Parts between brackets, with commas. -/
def commas (texts : List String) : String := ", ".intercalate texts

mutual

/-- One line that writes a value, if it can be written, with texts between quotes. -/
def literal : Value → String
  | .null => "None"
  | .bool b => if b then "True" else "False"
  | .int n => toString n
  | .decimal d => d.text
  | .text s => Text.quoted s
  | .bytes bs => Text.quotedBytes bs
  | .direction d => "<SortDirection." ++ d.keyword ++ ": " ++ toString d.code ++ ">"
  | .strategy s => "<JoinStrategy." ++ s.keyword ++ ": " ++ toString s.code ++ ">"
  | .list xs => "[" ++ commas (literals xs) ++ "]"
  | .tuple [x] => "(" ++ literal x ++ ",)"
  | .tuple xs => "(" ++ commas (literals xs) ++ ")"
  | .set [] => "set()"
  | .set xs => "\x7b" ++ commas (literals xs) ++ "\x7d"
  | .map es => "\x7b" ++ commas (entryLiterals es) ++ "\x7d"

def literals : List Value → List String
  | [] => []
  | x :: xs => literal x :: literals xs

def entryLiterals : List (Value × Value) → List String
  | [] => []
  | (k, v) :: es => (literal k ++ ": " ++ literal v) :: entryLiterals es

end

/-- The text a value stands for, if it can be written: a text is itself, and a name for a number its
number. -/
def display : Value → String
  | .text s => s
  | .direction d => toString d.code
  | .strategy s => toString s.code
  | v => v.literal

/-- The text that is put into another one for a value. -/
def shown (v : Value) : Except Fault String :=
  if v.isWritable then .ok v.display else .error .unreadableNumber

@[simp] theorem shown_text (s : String) : (text s).shown = .ok s := by
  simp [shown, isWritable, display]

theorem shown_eq_ok {v : Value} {s : String} :
    v.shown = .ok s ↔ v.isWritable = true ∧ v.display = s := by
  unfold shown
  split <;> simp_all

end Value

end SqlFragment
