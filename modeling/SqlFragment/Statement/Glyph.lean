import SqlFragment.Statement.Name

/-!
Statements as glyphs: characters, and markers and lists under their keys. Names may hold what looks
like the start of a marker, or like the place of a list. A statement is read from left to right, and
all between `%(` and the next `)s` is one key: a marker that ends a longer key stays text. Without
percent signs and brackets in names, reading changes nothing.
-/
namespace SqlFragment

/-- A marker under a key: how it is written in the end, and the values it binds. -/
structure Mark where
  key : String
  text : String
  values : List Value
deriving Repr, Inhabited

/-- How it is written while it is not read. -/
def Mark.opened (m : Mark) : String := "%(" ++ m.key ++ ")s"

inductive Glyph
  | char (c : Char)
  | marker (m : Mark)
  /-- The place of a list. -/
  | slot (key : String)
deriving Repr, Inhabited

namespace Glyph

def ofText (s : String) : List Glyph := s.toList.map .char

def chars : Glyph → List Char
  | .char c => [c]
  | .marker m => m.text.toList
  | .slot key => (slotText key).toList

def char? : Glyph → Option Char
  | .char c => some c
  | _ => none

/-- The text of glyphs, with markers as they are in the end. -/
def text (gs : List Glyph) : String := String.ofList (gs.flatMap chars)

end Glyph

/-! ## Markers -/

/-- What stands after `%(`, the last glyph first, when it is no marker. -/
def openText (held : List Glyph) : List Glyph := .char '%' :: .char '(' :: held.reverse

/-- What stands between `%(` and `)s`, the last glyph first: a marker if the key is found, and text
otherwise. -/
def readKey (found : String → Option Mark) (held : List Glyph) : List Glyph :=
  match (held.reverse.mapM Glyph.char?).bind fun key => found (String.ofList key) with
  | some m => [.marker m]
  | none => openText held ++ [.char ')', .char 's']

/-- Glyphs with markers read from the characters. What was opened is held until the first closing
parenthesis; that of a marker is one too. -/
def readMarkers (found : String → Option Mark) : Option (List Glyph) → List Glyph → List Glyph
  | none, [] => []
  | none, .char '%' :: .char '(' :: gs => readMarkers found (some []) gs
  | none, g :: gs => g :: readMarkers found none gs
  | some held, [] => openText held
  | some held, .char ')' :: .char 's' :: gs => readKey found held ++ readMarkers found none gs
  | some held, .char ')' :: gs => openText held ++ .char ')' :: readMarkers found none gs
  | some held, .marker m :: gs =>
    openText held ++ Glyph.ofText m.opened ++ readMarkers found none gs
  | some held, g :: gs => readMarkers found (some (g :: held)) gs

/-! ## Places of lists -/

/-- What follows given characters. -/
def glyphsAfter : List Char → List Glyph → Option (List Glyph)
  | [], gs => some gs
  | c :: cs, .char c' :: gs => if c = c' then glyphsAfter cs gs else none
  | _ :: _, _ => none

/-- The characters before the closing bracket, at least one and none of them white space; `key` are
those already read, the last one first. -/
def keyBefore (key : List Char) : List Glyph → Option (List Char)
  | .char c :: gs =>
    if c = ']' && !key.isEmpty then some key.reverse
    else if Text.isBlank c then none
    else keyBefore (c :: key) gs
  | _ => none

/-- The key of the list whose place glyphs start with. -/
def slotAt (gs : List Glyph) : Option String :=
  ((glyphsAfter slotStart.toList gs).bind (keyBefore [])).map String.ofList

/-- Glyphs with the places of lists read from the characters; the first `skip` are already read. -/
def readSlots : Nat → List Glyph → List Glyph
  | _, [] => []
  | skip + 1, _ :: gs => readSlots skip gs
  | 0, g :: gs =>
    match slotAt (g :: gs) with
    | some key => .slot key :: readSlots ((slotText key).length - 1) gs
    | none => g :: readSlots 0 gs

end SqlFragment
