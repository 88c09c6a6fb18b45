import SqlFragment.Text.Printable

/-!
Text and bytes written between quotes on one line. A backslash starts the written form of a
character that cannot stand for itself.
-/
namespace SqlFragment.Text

/-- Lower-case hexadecimal, at least `width` digits. -/
def hex (width n : Nat) : List Char :=
  let digits := Nat.toDigits 16 n
  List.replicate (width - digits.length) '0' ++ digits

/-- Single quotes, unless the text holds one and no double quote. -/
def quoteFor (cs : List Char) : Char :=
  if cs.contains '\x27' && !cs.contains '\x22' then '\x22' else '\x27'

/-- The characters that are written with a backslash and one more character. -/
def shortEscape? (quote c : Char) : Option Char :=
  if c = quote || c = '\\' then some c
  else if c = '\n' then some 'n'
  else if c = '\r' then some 'r'
  else if c = '\t' then some 't'
  else none

/-- An unprintable character is written by its code point, in the shortest of three forms. -/
def quoteChar (quote c : Char) : List Char :=
  match shortEscape? quote c with
  | some e => ['\\', e]
  | none =>
    let n := c.toNat
    if isPrintable c then [c]
    else if n ≤ 0xff then '\\' :: 'x' :: hex 2 n
    else if n ≤ 0xffff then '\\' :: 'u' :: hex 4 n
    else '\\' :: 'U' :: hex 8 n

def quoted (s : String) : String :=
  let q := quoteFor s.toList
  String.ofList (q :: s.toList.flatMap (quoteChar q) ++ [q])

/-- A byte outside printable ASCII is written in hexadecimal. -/
def quoteByte (quote : Char) (b : UInt8) : List Char :=
  let c := Char.ofNat b.toNat
  match shortEscape? quote c with
  | some e => ['\\', e]
  | none => if 32 ≤ b && b < 127 then [c] else '\\' :: 'x' :: hex 2 b.toNat

def quotedBytes (bs : List UInt8) : String :=
  let q := quoteFor (bs.map fun b => Char.ofNat b.toNat)
  String.ofList ('b' :: q :: bs.flatMap (quoteByte q) ++ [q])

end SqlFragment.Text
