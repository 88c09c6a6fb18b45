import SqlFragment.Filter.Tree

/-!
Three-valued truth, and the values of trees for values of their leaves.
-/
namespace SqlFragment

inductive Truth
  | no
  | unknown
  | yes
deriving DecidableEq, Repr

namespace Truth

def ofBool (b : Bool) : Truth := if b then yes else no

def not : Truth → Truth
  | no => yes
  | unknown => unknown
  | yes => no

def and : Truth → Truth → Truth
  | no, _ => no
  | yes, b => b
  | unknown, no => no
  | unknown, _ => unknown

def or (a b : Truth) : Truth := ((a.not).and b.not).not

/-- All of them; nothing is no hindrance. -/
def all (ts : List Truth) : Truth := ts.foldr and yes

def any (ts : List Truth) : Truth := ts.foldr or no

@[simp] theorem not_not (a : Truth) : a.not.not = a := by cases a <;> rfl

@[simp] theorem and_yes (a : Truth) : a.and yes = a := by cases a <;> rfl

@[simp] theorem or_no (a : Truth) : a.or no = a := by cases a <;> rfl

theorem no_or (a : Truth) : no.or a = a := by cases a <;> rfl

theorem and_assoc (a b c : Truth) : (a.and b).and c = a.and (b.and c) := by
  cases a <;> cases b <;> cases c <;> rfl

theorem or_assoc (a b c : Truth) : (a.or b).or c = a.or (b.or c) := by
  simp [or, and_assoc]

theorem not_ofBool (b : Bool) : (ofBool b).not = ofBool !b := by cases b <;> rfl

theorem all_append (ts us : List Truth) : all (ts ++ us) = (all ts).and (all us) := by
  induction ts with
  | nil => rfl
  | cons t ts ih =>
    have htail : all (t :: (ts ++ us)) = t.and (all (ts ++ us)) := rfl
    rw [List.cons_append, htail, ih, ← and_assoc]
    rfl

theorem any_append (ts us : List Truth) : any (ts ++ us) = (any ts).or (any us) := by
  induction ts with
  | nil => exact (no_or _).symm
  | cons t ts ih =>
    have htail : any (t :: (ts ++ us)) = t.or (any (ts ++ us)) := rfl
    rw [List.cons_append, htail, ih, ← or_assoc]
    rfl

end Truth

namespace Filter.Tree

variable {α β : Type}

mutual

/-- The leaves from left to right. -/
def leaves : Tree α → List α
  | .leaf a => [a]
  | .all ts | .any ts => leavesOf ts
  | .negation t => t.leaves

def leavesOf : List (Tree α) → List α
  | [] => []
  | t :: ts => t.leaves ++ leavesOf ts

end

/-- The values of leaves but for the first `n` of them. -/
def past (n : Nat) (v : Nat → Truth) : Nat → Truth := fun i => v (n + i)

mutual

/-- The value of a tree whose leaf `i` has the value `v i`. -/
def value : Tree α → (Nat → Truth) → Truth
  | .leaf _, v => v 0
  | .all ts, v => .all (values ts v)
  | .any ts, v => .any (values ts v)
  | .negation t, v => (t.value v).not

def values : List (Tree α) → (Nat → Truth) → List Truth
  | [], _ => []
  | t :: ts, v => t.value v :: values ts (past t.leaves.length v)

end

theorem past_zero (v : Nat → Truth) : past 0 v = v := by
  funext i
  simp [past]

theorem past_past (n m : Nat) (v : Nat → Truth) : past m (past n v) = past (n + m) v := by
  funext i
  simp [past, Nat.add_assoc]

theorem leavesOf_append (ts us : List (Tree α)) :
    leavesOf (ts ++ us) = leavesOf ts ++ leavesOf us := by
  induction ts with
  | nil => rfl
  | cons t ts ih => simp [leavesOf, ih]

theorem values_append (ts us : List (Tree α)) (v : Nat → Truth) :
    values (ts ++ us) v = values ts v ++ values us (past (leavesOf ts).length v) := by
  induction ts generalizing v with
  | nil => simp [values, leavesOf, past_zero]
  | cons t ts ih => simp [values, leavesOf, ih, past_past]

mutual

/-- Only the values of the leaves count. -/
theorem value_congr : ∀ (t : Tree α) (v w : Nat → Truth),
    (∀ i < t.leaves.length, v i = w i) → t.value v = t.value w
  | .leaf _, v, w, h => h 0 Nat.one_pos
  | .all ts, v, w, h => by
    rw [value, value, values_congr ts v w h]
  | .any ts, v, w, h => by
    rw [value, value, values_congr ts v w h]
  | .negation t, v, w, h => by
    rw [value, value, value_congr t v w h]

theorem values_congr : ∀ (ts : List (Tree α)) (v w : Nat → Truth),
    (∀ i < (leavesOf ts).length, v i = w i) → values ts v = values ts w
  | [], _, _, _ => rfl
  | t :: ts, v, w, h => by
    rw [leavesOf, List.length_append] at h
    have htail : values ts (past t.leaves.length v) = values ts (past t.leaves.length w) :=
      values_congr ts _ _ fun i hi => h _ (Nat.add_lt_add_left hi _)
    rw [values, values, value_congr t v w fun i hi => h i (Nat.lt_add_right _ hi), htail]

end

end Filter.Tree

end SqlFragment
