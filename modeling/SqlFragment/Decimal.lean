import SqlFragment.Text.Quoted

/-!
Numbers with a fraction, held as the decimal they are written with. They are read, compared and
written, and never computed with.
-/
namespace SqlFragment

/-- `finite negative digits exponent` is `digits · 10 ^ exponent`, with its sign. -/
inductive Decimal
  | nan
  | infinite (negative : Bool)
  | finite (negative : Bool) (digits : Nat) (exponent : Int)
deriving DecidableEq, Repr, Inhabited

namespace Decimal

/-- Zeros at the end of the digits moved into the exponent. -/
def trimmed : Nat → Nat → Int → Nat × Int
  | 0, digits, exponent => (digits, exponent)
  | fuel + 1, digits, exponent =>
    if digits % 10 == 0 then trimmed fuel (digits / 10) (exponent + 1) else (digits, exponent)

/-- The same number with the fewest digits; every zero has exponent zero. -/
def ofParts (negative : Bool) (digits : Nat) (exponent : Int) : Decimal :=
  if digits == 0 then .finite negative 0 0
  else
    let (d, e) := trimmed digits digits exponent
    .finite negative d e

def isZero : Decimal → Bool
  | .finite _ digits _ => digits == 0
  | _ => false

/-- The integer it equals, if it is one. -/
def toInt? : Decimal → Option Int
  | .finite negative digits exponent =>
    let size? : Option Nat :=
      if 0 ≤ exponent then some (digits * Nat.pow 10 exponent.toNat)
      else
        let unit := Nat.pow 10 (-exponent).toNat
        if digits % unit == 0 then some (digits / unit) else none
    size?.map fun n => if negative then -(n : Int) else n
  | _ => none

/-- As a fraction with a positive denominator. -/
def toFraction? : Decimal → Option (Int × Nat)
  | .finite negative digits exponent =>
    let n : Int := if negative then -(digits : Int) else digits
    some (n * Nat.pow 10 exponent.toNat, Nat.pow 10 (-exponent).toNat)
  | _ => none

/-- Strict order; what is no number is neither less nor greater than anything. -/
def below : Decimal → Decimal → Bool
  | .nan, _ | _, .nan => false
  | .infinite a, .infinite b => a && !b
  | .infinite a, _ => a
  | _, .infinite b => !b
  | a, b =>
    match a.toFraction?, b.toFraction? with
    | some (m, c), some (n, d) => m * d < n * c
    | _, _ => false

/-- Which decimal exponents are written without an exponent part: the point then stands at most
three zeros before the first digit and at most sixteen places after it. -/
structure Layout where
  lowest : Int
  highest : Int

def layout : Layout := ⟨-3, 16⟩

/-- An exponent has a sign and at least two digits. -/
def exponentText (e : Int) : String :=
  let digits := toString e.natAbs
  "e" ++ (if e < 0 then "-" else "+") ++ (if digits.length < 2 then "0" ++ digits else digits)

/-- Digits `ds` with the point after the first `place` of them. -/
def digitsText (ds : List Char) (place : Int) : String :=
  let zeros (n : Int) : List Char := List.replicate n.toNat '0'
  if layout.lowest ≤ place && place ≤ layout.highest then
    let whole := if place ≤ 0 then ['0'] else ds.take place.toNat ++ zeros (place - ds.length)
    let fraction := zeros (-place) ++ ds.drop place.toNat
    String.ofList (whole ++ '.' :: (if fraction.isEmpty then ['0'] else fraction))
  else
    let fraction := ds.drop 1
    String.ofList (ds.take 1 ++ if fraction.isEmpty then [] else '.' :: fraction) ++
      exponentText (place - 1)

def text : Decimal → String
  | .nan => "nan"
  | .infinite negative => if negative then "-inf" else "inf"
  | .finite negative digits exponent =>
    let ds := Nat.toDigits 10 digits
    let sign := if negative then "-" else ""
    sign ++ (if digits == 0 then "0.0" else digitsText ds (ds.length + exponent))

/-- Digits, with what follows them. -/
def spanDigits (cs : List Char) : List Char × List Char := cs.span Char.isDigit

def natOf (cs : List Char) : Nat := cs.foldl (fun n c => 10 * n + (c.toNat - 48)) 0

/-- A sign, if there is one, and what follows it. -/
def spanSign : List Char → Bool × List Char
  | '-' :: cs => (true, cs)
  | '+' :: cs => (false, cs)
  | cs => (false, cs)

/-- The exponent part of a number, all of `cs`. -/
def exponentOf? : List Char → Option Int
  | [] => some 0
  | c :: cs =>
    let (negative, ds) := spanSign cs
    if (c == 'e' || c == 'E') && !ds.isEmpty && ds.all Char.isDigit then
      some (if negative then -(natOf ds : Int) else natOf ds)
    else none

/-- Reads what `text` writes, and other spellings of the same numbers. -/
def ofText? (s : String) : Option Decimal :=
  let (negative, cs) := spanSign s.toList
  if cs = "nan".toList then some .nan
  else if cs = "inf".toList then some (.infinite negative)
  else
    let (whole, rest) := spanDigits cs
    let (fraction, rest) := match rest with
      | '.' :: rest => spanDigits rest
      | rest => ([], rest)
    if whole.isEmpty && fraction.isEmpty then none
    else (exponentOf? rest).map fun e =>
      ofParts negative (natOf (whole ++ fraction)) (e - fraction.length)

end Decimal

end SqlFragment
