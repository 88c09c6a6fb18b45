import SqlFragment.Schema

/-!
Catalogs read from their descriptions. A table is described by a mapping of its attributes, or by
one that holds that mapping under `attributes`; an attribute by a mapping of its fields, or by
the name of its type alone.
-/
namespace SqlFragment

/-- Fields that were read, with every refusal on the way. -/
abbrev Checked (α : Type) := Except (List SchemaIssue) α

namespace Attribute

/-- Spellings of a truth value, in either case. -/
def boolOfText? (s : String) : Option Bool :=
  let word := s.toLower
  if ["1", "t", "y", "on", "yes", "true"].contains word then some true
  else if ["0", "f", "n", "no", "off", "false"].contains word then some false
  else none

def textOfBytes? (bs : List UInt8) : Option String := String.fromUTF8? ⟨bs.toArray⟩

/-- Nought and one stand for truth values. Other whole numbers of 64 bits are taken for misspelled
ones, and whatever is beyond for no number at all. -/
def boolOfInt (n : Int) : Except FieldIssue Bool :=
  if n = 0 then .ok false
  else if n = 1 then .ok true
  else if -Int.pow 2 63 ≤ n && n < Int.pow 2 63 then .error .boolUnreadable
  else .error .boolType

/-- A decimal counts as the whole number it equals, except the least of 64 bits. -/
def boolOfDecimal (d : Decimal) : Except FieldIssue Bool :=
  match d.toInt? with
  | some n => if n = -Int.pow 2 63 then .error .boolType else boolOfInt n
  | none => .error .boolType

/-- A truth value, or a number or text that stands for one. -/
def readBool (v : Value) : Except FieldIssue Bool :=
  match v with
  | .bool b => .ok b
  | .text s => (boolOfText? s).elim (.error .boolUnreadable) .ok
  | .bytes bs => ((textOfBytes? bs).bind boolOfText?).elim (.error .boolUnreadable) .ok
  | .decimal d => boolOfDecimal d
  | v => v.toInt?.elim (.error .boolType) boolOfInt

/-- The text of a name: bytes are read as text, and what names a number as its digits. -/
def readText (v : Value) : Except FieldIssue String :=
  match v with
  | .text s => .ok s
  | .bytes bs => (textOfBytes? bs).elim (.error .textEncoding) .ok
  | .direction d => .ok (toString d.code)
  | .strategy s => .ok (toString s.code)
  | _ => .error .textType

def readType (v : Value) : Except FieldIssue (Option String) :=
  match v with
  | .null => .ok none
  | v => (readText v).map some

/-- Anything but nothing and no names the rows of another table. -/
def readCollection : Value → Bool
  | .null | .bool false => false
  | _ => true

/-- The key that tells whether the attribute is a primary key: of its two spellings, the first
that is there. -/
def primaryKeyField (es : Entries) : String :=
  if (Value.lookup "primaryKey" es).isSome then "primaryKey" else "primary_key"

def isField (es : Entries) (key : Value) : Bool :=
  match key with
  | .text k => ["type", "collection", "unique", primaryKeyField es].contains k
  | _ => false

/-- A field read at its key, or its default. -/
def readField {α : Type} (es : Entries) (place : List Value) (key : String) (absent : α)
    (read : Value → Except FieldIssue α) : α × List SchemaIssue :=
  match Value.lookup key es with
  | none => (absent, [])
  | some v =>
    match read v with
    | .ok a => (a, [])
    | .error issue => (absent, [⟨place ++ [.text key], issue⟩])

/-- Reads the description of one attribute. What is no field is kept aside. -/
def ofValue (place : List Value) (v : Value) : Checked Attribute :=
  match v with
  | .map es =>
    let (type, i) := readField es place "type" none readType
    let (primaryKey, j) := readField es place (primaryKeyField es) false readBool
    let (unique, k) := readField es place "unique" false readBool
    let extra := es.filter fun e => !isField es e.1
    let badKeys := (extra.filter fun e => !e.1.isText).map fun e =>
      (⟨place ++ [e.1], .keyType⟩ : SchemaIssue)
    match i ++ j ++ k ++ badKeys with
    | [] =>
      let collection := ((Value.lookup "collection" es).map readCollection).getD false
      .ok { type, primaryKey, collection, unique, extra }
    | issues => .error issues
  | _ => .error [⟨place, .notAttribute⟩]

end Attribute

namespace Table

/-- An attribute before others. A later one of the same name stands in its place. -/
def withAttribute (name : String) (a : Attribute) (later : List (String × Attribute)) :
    List (String × Attribute) :=
  (name, (later.lookup name).getD a) :: later.filter fun e => e.1 != name

/-- The attributes that entries describe, and every refusal among them. -/
def readAttributes : Entries → List (String × Attribute) × List SchemaIssue
  | [] => ([], [])
  | (key, v) :: es =>
    let place := [.text "attributes", key]
    let (found, issues) := readAttributes es
    match Attribute.readText key, Attribute.ofValue place v with
    | .ok name, .ok a => (withAttribute name a found, issues)
    | .ok _, .error i => (found, i ++ issues)
    | .error k, .ok _ => (found, ⟨place ++ [.text "[key]"], k⟩ :: issues)
    | .error k, .error i => (found, ⟨place ++ [.text "[key]"], k⟩ :: i ++ issues)

/-- A table with the attributes that a mapping describes. -/
def ofValue (name attributes : Value) : Checked Table :=
  let (found, issues) := match attributes with
    | .map es => readAttributes es
    | _ => ([], [⟨[.text "attributes"], .notMapping⟩])
  match Attribute.readText name with
  | .ok text => if issues.isEmpty then .ok ⟨text, found⟩ else .error issues
  | .error issue => .error (⟨[.text "name"], issue⟩ :: issues)

end Table

namespace Catalog

/-- A text in the place of an attribute's description names its type. -/
def fullDescription (v : Value) : Value :=
  match v with
  | .text _ => .map [(.text "type", v)]
  | v => v

/-- A table as it stands in the description of a catalog. -/
inductive Source
  | ready (table : Table)
  | described (description : Value)

/-- The table that a source gives under a name. -/
def Source.table (name : Value) : Source → Except Error Table
  | .ready t => .ok t
  | .described v => do
    let es ← Error.ofFault v.asMap
    let attributes ← Error.ofFault ((Value.lookup "attributes" es).getD v).asMap
    match Table.ofValue name (.map (attributes.map fun e => (e.1, fullDescription e.2))) with
    | .ok t => .ok t
    | .error issues => .error (.attributes issues)

/-- The catalog that sources give, each under its name. -/
def ofSources : List (Value × Source) → Except Error Catalog
  | [] => .ok ⟨[]⟩
  | (name, source) :: rest => do
    let t ← source.table name
    let c ← ofSources rest
    return ⟨(name, t) :: c.tables⟩

/-- The catalog that a mapping of table descriptions gives. -/
def ofValue (v : Value) : Except Error Catalog := do
  let es ← Error.ofFault v.asMap
  ofSources (es.map fun e => (e.1, .described e.2))

end Catalog

end SqlFragment
