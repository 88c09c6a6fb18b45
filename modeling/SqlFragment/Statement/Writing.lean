import SqlFragment.Statement.Members

/-!
Statements written out: identifiers quoted, markers numbered, lists spelled member by member.
Values of a list get the numbers after those of all single values; where markers have no numbers,
values come in the order of the markers that are read.
-/
namespace SqlFragment

/-- A written statement and the values for its markers. -/
structure Written where
  text : String
  values : List Value
deriving Repr, Inhabited

/-! ## Slots -/

/-- A piece that is quoted if it is an identifier, under its key if it binds values, and spelled if
it is a list. -/
inductive Slot
  | text (s : String)
  | marker (m : Mark)
  | list (l : Listing)
deriving Repr, Inhabited

/-- The slots of pieces, of which the next single value has number `next` and the next value of a
list `nextListed`; `keys` has one for each marker and list. -/
def slotsOf (d : Dialect) (style : MarkerStyle) (lost : List String) :
    Nat → Nat → List String → List Piece → Except Fault (List Slot)
  | _, _, _, [] => .ok []
  | next, nextListed, keys, .word s :: ps =>
    (slotsOf d style lost next nextListed keys ps).map (.text s :: ·)
  | next, nextListed, keys, .name s :: ps =>
    (slotsOf d style lost next nextListed keys ps).map (.text ((d.quoting style).quote s) :: ·)
  | next, nextListed, keys, .marker _ v :: ps =>
    (slotsOf d style lost (next + 1) nextListed keys.tail ps).map
      (.marker ⟨keys.headD "", style.mark next, [v]⟩ :: ·)
  | next, nextListed, keys, .members _ negated vs :: ps => do
    let l ← Listing.ofMembers d style lost nextListed (keys.headD "") negated vs
    let slots ← slotsOf d style lost next (nextListed + l.marks.length) keys.tail ps
    return .list l :: slots

namespace Slot

def glyphs : Slot → List Glyph
  | .text s => Glyph.ofText s
  | .marker m => [.marker m]
  | .list l => l.place

/-- The mark of a single value. -/
def single? : Slot → Option Mark
  | .marker m => some m
  | _ => none

def list? : Slot → Option Listing
  | .list l => some l
  | _ => none

/-- What a key stands for where it is read as that of a marker. The key of a list stands for all its
values, and has no number. -/
def mark? (style : MarkerStyle) : Slot → Option Mark
  | .marker m => some m
  | .list l => some ⟨l.key, if style = .dollar then "" else style.mark 0, l.values⟩
  | .text _ => none

end Slot

/-! ## Statements -/

def markUnder (marks : List Mark) (key : String) : Option Mark := marks.find? (·.key == key)

def listUnder (lists : List Listing) (key : String) : Option Listing := lists.find? (·.key == key)

/-- Glyphs with the lists in their places and the markers written. -/
def fill (lists : List Listing) (gs : List Glyph) : Except Fault (List Glyph) :=
  (gs.mapM filled).map List.flatten
where
  filled : Glyph → Except Fault (List Glyph)
    | .char c => .ok [.char c]
    | .marker m => .ok (Glyph.ofText m.text)
    | .slot key => (listUnder lists key).elim (.error .lostName) fun l => .ok l.glyphs

/-- The marks of single values: with numbers all of them, and otherwise those that are read. -/
def singleMarks (style : MarkerStyle) (slots : List Slot) (gs : List Glyph) : List Mark :=
  match style with
  | .dollar => slots.filterMap Slot.single?
  | .question | .percent => gs.filterMap fun
    | .marker m => some m
    | _ => none

/-- The values in the order of the markers of a style. A marker has its value with it, whatever else is
bound under its key. -/
def boundValues (style : MarkerStyle) (slots : List Slot) (gs : List Glyph) : List Value :=
  let lists := slots.filterMap Slot.list?
  match style with
  | .dollar => (slots.filterMap Slot.single?).flatMap Mark.values ++ lists.flatMap Listing.values
  | .question | .percent => gs.flatMap fun
    | .marker m => m.values
    | .slot key => ((listUnder lists key).map Listing.values).getD []
    | .char _ => []

/-- Pieces written for a dialect with markers of a style. The lists are spelled before values are
looked up for the other markers, and numbers are given to their members when all are spelled. -/
def write (d : Dialect) (style : MarkerStyle) (ps : List Piece) : Except Fault Written := do
  let names := slotNames d ps
  let lost := lostSpellings names
  if clash style names then .error .sharedSpelling
  let slots ← slotsOf d style lost 1 (ps.countP Piece.isMarker + 1) (names.map spelled) ps
  let lists := slots.filterMap Slot.list?
  let read := readMarkers (markUnder (slots.filterMap (Slot.mark? style))) none
    (readSlots 0 (slots.flatMap Slot.glyphs))
  if (singleMarks style slots read).any fun m => lost.contains m.key then .error .lostName
  let filled ← fill lists read
  let members := if style = .dollar then lists.flatMap Listing.marks else []
  return ⟨Glyph.text (readMarkers (markUnder members) none filled), boundValues style slots read⟩

/-- A line without the word for a condition at its start. -/
def dropWhere (cs : List Char) : List Char :=
  if "WHERE ".toList.isPrefixOf cs then cs.drop 6 else cs

/-- The text after its first `head` characters, on one line, with numbered markers starting at
`start`. -/
def Written.settle (style : MarkerStyle) (start : Int) (head : Nat) (w : Written) :
    Except Fault Written :=
  let line := String.ofList (dropWhere (Text.collapseChars (w.text.toList.drop head)))
  if style = .dollar then (renumber start line).map fun text => { w with text }
  else .ok { w with text := line }

end SqlFragment
