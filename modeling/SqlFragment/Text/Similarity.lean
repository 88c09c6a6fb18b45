import SqlFragment.Decimal.Binary

/-!
Likely spellings of a word. Two texts are compared by their longest common run, then by the
longest common runs to the left and to the right of it, and so on; the score is the share of
characters in such runs.
-/
namespace SqlFragment.Text

section Sequences

variable {α : Type} [BEq α]

/-- In a word of 200 characters or more, those that make up more than a hundredth of it do not
start a run. -/
def isPopular (word : List α) (c : α) : Bool :=
  200 ≤ word.length && word.length / 100 + 1 < word.count c

/-- The lengths of the common runs that end at `c` and at each place of `word`, from those that
end one place before: `previous` starts with the run before the first place. -/
def runsEndingAt (popular : α → Bool) (c : α) : List α → List Nat → List Nat
  | w :: word, k :: previous =>
    (if w == c && !popular c then k + 1 else 0) :: runsEndingAt popular c word previous
  | _, _ => []

/-- A common run: where it starts in each text, and its length. -/
structure Run where
  left : Nat
  right : Nat
  size : Nat

/-- The first run longer than `best` among those that end at place `i` on the left, then `j`,
`j + 1`, … on the right. -/
def longerRun (i : Nat) (best : Run) : Nat → List Nat → Run
  | _, [] => best
  | j, k :: ks => longerRun i (if best.size < k then ⟨i + 1 - k, j + 1 - k, k⟩ else best) (j + 1) ks

/-- Walks the left text; `previous` holds the runs that end just before place `i`. -/
def longestFrom (popular : α → Bool) (word : List α) : Nat → Run → List Nat → List α → Run
  | _, best, _, [] => best
  | i, best, previous, c :: cs =>
    let runs := runsEndingAt popular c word (0 :: previous)
    longestFrom popular word (i + 1) (longerRun i best 0 runs) runs cs

/-- The number of equal characters at the starts. -/
def commonStart : List α → List α → Nat
  | a :: as, b :: bs => if a == b then commonStart as bs + 1 else 0
  | _, _ => 0

/-- A run made longer on both sides, over popular characters as well. -/
def Run.extend (as bs : List α) (r : Run) : Run :=
  let before := commonStart (as.take r.left).reverse (bs.take r.right).reverse
  let after := commonStart (as.drop (r.left + r.size)) (bs.drop (r.right + r.size))
  ⟨r.left - before, r.right - before, before + r.size + after⟩

/-- The longest common run of `as` and `bs`, the leftmost of equals. -/
def longestRun (popular : α → Bool) (as bs : List α) : Run :=
  (longestFrom popular bs 0 ⟨0, 0, 0⟩ (bs.map fun _ => 0) as).extend as bs

/-- The number of characters in common runs. Each step takes a run out of `as`, so `as.length`
steps are enough. -/
def matchedWithin (popular : α → Bool) : Nat → List α → List α → Nat
  | 0, _, _ => 0
  | fuel + 1, as, bs =>
    let r := longestRun popular as bs
    if r.size == 0 then 0
    else matchedWithin popular fuel (as.take r.left) (bs.take r.right) + r.size +
      matchedWithin popular fuel (as.drop (r.left + r.size)) (bs.drop (r.right + r.size))

/-- The score of `candidate` against `word`, as a fraction. -/
def similarity (word candidate : List α) : Nat × Nat :=
  let total := word.length + candidate.length
  if total == 0 then (1, 1)
  else (2 * matchedWithin (isPopular word) candidate.length candidate word, total)

end Sequences

/-- A score of at least the cutoff, in 53 bits. -/
def reaches (cutoff : Binary) (score : Nat × Nat) : Bool :=
  cutoff.le (.nearest score.1 score.2)

/-- Higher scores first; of equal scores, the greater text. -/
def rankedBefore (a b : (Nat × Nat) × String) : Bool :=
  b.1.1 * a.1.2 < a.1.1 * b.1.2 || (a.1.1 * b.1.2 == b.1.1 * a.1.2 && !(a.2 < b.2))

/-- The at most `count` candidates that come closest to `word`, the closest first. -/
def closeMatches (word : String) (candidates : List String) (count : Nat) (cutoff : Binary) :
    List String :=
  let scored := candidates.map fun c => (similarity word.toList c.toList, c)
  (((scored.filter fun s => reaches cutoff s.1).mergeSort rankedBefore).take count).map (·.2)

/-- Texts in the order of their code points. -/
def sorted (texts : List String) : List String := texts.mergeSort fun a b => !(b < a)

end SqlFragment.Text
