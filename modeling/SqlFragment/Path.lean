/-!
Places inside a query: a root, and the keys and positions that lead down from it.
-/
namespace SqlFragment

inductive Path
  | root (name : String)
  | key (parent : Path) (name : String)
  | index (parent : Path) (position : Nat)
deriving DecidableEq, Repr, Inhabited

def Path.text : Path → String
  | .root name => name
  | .key p name => p.text ++ "." ++ name
  | .index p i => p.text ++ "[" ++ toString i ++ "]"

end SqlFragment
