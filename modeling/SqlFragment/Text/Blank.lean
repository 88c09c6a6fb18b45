/-!
White space: what separates words, and texts with every run of it written as one space.
-/
namespace SqlFragment.Text

/-- Unicode white space, and the four information separators. -/
def isBlank (c : Char) : Bool :=
  let n := c.toNat
  (9 ≤ n && n ≤ 13) || (28 ≤ n && n ≤ 32) || n == 0x85 || n == 0xa0 || n == 0x1680 ||
    (0x2000 ≤ n && n ≤ 0x200a) || n == 0x2028 || n == 0x2029 || n == 0x202f || n == 0x205f ||
    n == 0x3000

def stripChars (cs : List Char) : List Char :=
  ((cs.dropWhile isBlank).reverse.dropWhile isBlank).reverse

def strip (s : String) : String := String.ofList (stripChars s.toList)

/-- `gap` tells that white space came since the last character kept. -/
def collapseFrom (gap : Bool) : List Char → List Char
  | [] => []
  | c :: cs =>
    if isBlank c then collapseFrom true cs
    else if gap then ' ' :: c :: collapseFrom false cs
    else c :: collapseFrom false cs

/-- White space at the ends is dropped, and every other run of it becomes one space. -/
def collapseChars (cs : List Char) : List Char := collapseFrom false (cs.dropWhile isBlank)

end SqlFragment.Text
