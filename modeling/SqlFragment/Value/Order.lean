import SqlFragment.Value

/-!
Values in order. Texts have one, and so have bytes and numbers; tuples have it by the first members
that differ. Values of different kinds have none.
-/
namespace SqlFragment.Value

mutual

/-- Whether one value comes before another. -/
def before? : Value → Value → Option Bool
  | .text a, .text b => some (a < b)
  | .bytes a, .bytes b => some (a < b)
  | .tuple xs, .tuple ys => itemsBefore? xs ys
  | a, b =>
    match a.number?, b.number? with
    | some x, some y => some (x.below y)
    | _, _ => none

def itemsBefore? : List Value → List Value → Option Bool
  | x :: xs, y :: ys => if same x y then itemsBefore? xs ys else before? x y
  | [], ys => some !ys.isEmpty
  | _ :: _, [] => some false

end

/-- Whether each two of the values have an order. -/
def haveOrder (vs : List Value) : Bool := vs.all fun a => vs.all fun b => (before? a b).isSome

/-- The values in their order, where they have one. -/
def sorted (vs : List Value) : List Value := vs.mergeSort fun a b => before? b a != some true

end SqlFragment.Value
