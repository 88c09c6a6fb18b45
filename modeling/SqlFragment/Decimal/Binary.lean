import SqlFragment.Decimal

/-!
Numbers with 53 significant bits, which is what is left of a decimal when it is compared. Of two
equally near ones, the one whose last bit is zero stands for a decimal.
-/
namespace SqlFragment

/-- `bits · 2 ^ exponent`. -/
structure Binary where
  bits : Nat
  exponent : Int
deriving DecidableEq, Repr, Inhabited

namespace Binary

/-- A quotient rounded to a whole number, a half to the even one. -/
def roundQuotient (n d : Nat) : Nat :=
  let twice := 2 * (n % d)
  if twice < d || (twice == d && n / d % 2 == 0) then n / d else n / d + 1

/-- No exponent is smaller. -/
def lowest : Int := -1074

/-- The number nearest to `n / d`. -/
def nearest (n d : Nat) : Binary :=
  if n == 0 then ⟨0, 0⟩
  else
    let above (e : Int) : Nat := n * Nat.pow 2 (-e).toNat
    let below (e : Int) : Nat := d * Nat.pow 2 e.toNat
    let guess : Int := (n.log2 : Int) - d.log2 - 52
    let exponent :=
      max lowest (if above guess / below guess < Nat.pow 2 52 then guess - 1 else guess)
    ⟨roundQuotient (above exponent) (below exponent), exponent⟩

def le (a b : Binary) : Bool :=
  let e := min a.exponent b.exponent
  a.bits * Nat.pow 2 (a.exponent - e).toNat ≤ b.bits * Nat.pow 2 (b.exponent - e).toNat

end Binary

namespace Decimal

/-- The number of 53 bits nearest to a decimal that is not negative. -/
def toBinary? (d : Decimal) : Option Binary :=
  match d.toFraction? with
  | some (n, d) => if 0 ≤ n then some (.nearest n.toNat d) else none
  | none => none

/-- A whole decimal too large for 53 bits, as the whole number that stands for it. -/
def held (d : Decimal) : Decimal :=
  match d.toInt? with
  | some n =>
    if n.natAbs < Nat.pow 2 53 then d
    else
      let b := Binary.nearest n.natAbs 1
      ofParts (n < 0) (b.bits * Nat.pow 2 b.exponent.toNat) 0
  | none => d

end Decimal

end SqlFragment
