import SqlFragment.Proofs.Predicates

/-!
The predicate of a tree has the value of the tree, though some of its conditions are turned around.
-/
namespace SqlFragment

open Filter.Tree

/-! ## Turned conditions -/

/-- A condition as it is or turned around. -/
def Condition.turned (turn : Bool) (x : Condition) : Condition := if turn then x.negate else x

/-- The values of leaves, of which some are turned around. -/
def turnedValues (turns : List Bool) (v : Nat → Truth) : Nat → Truth :=
  fun i => if turns[i]?.getD false then (v i).not else v i

theorem turnedValues_append_left (s u : List Bool) (v : Nat → Truth) :
    ∀ i < s.length, turnedValues (s ++ u) v i = turnedValues s v i := by
  intro i hi
  rw [turnedValues, turnedValues, List.getElem?_append_left hi]

theorem past_turnedValues (s u : List Bool) (v : Nat → Truth) :
    past s.length (turnedValues (s ++ u) v) = turnedValues u (past s.length v) := by
  funext i
  rw [past, turnedValues, turnedValues, List.getElem?_append_right (Nat.le_add_right _ _),
    Nat.add_sub_cancel_left]
  rfl

/-- A tree that differs from another in conditions that are turned around. -/
structure Turns (turns : List Bool) (t u : Filter.Tree Condition) : Prop where
  length : turns.length = t.leaves.length
  leaves : u.leaves = List.zipWith Condition.turned turns t.leaves
  value : ∀ v, u.value (turnedValues turns v) = t.value v

/-- Trees that differ one by one from others in conditions that are turned around. -/
structure TurnsEach (turns : List Bool) (ts us : List (Filter.Tree Condition)) : Prop where
  length : turns.length = (leavesOf ts).length
  leaves : leavesOf us = List.zipWith Condition.turned turns (leavesOf ts)
  values : ∀ v, values us (turnedValues turns v) = values ts v

theorem Turns.length_leaves {turns : List Bool} {t u : Filter.Tree Condition}
    (h : Turns turns t u) : u.leaves.length = turns.length := by
  rw [h.leaves, List.length_zipWith, ← h.length, Nat.min_self]

theorem Turns.cons {s s' : List Bool} {t u : Filter.Tree Condition}
    {ts us : List (Filter.Tree Condition)} (h : Turns s t u) (h' : TurnsEach s' ts us) :
    TurnsEach (s ++ s') (t :: ts) (u :: us) where
  length := by rw [leavesOf, List.length_append, List.length_append, h.length, h'.length]
  leaves := by
    rw [leavesOf, leavesOf, List.zipWith_append h.length, h.leaves, h'.leaves]
  values v := by
    have hhead : u.value (turnedValues (s ++ s') v) = t.value v := by
      rw [← h.value]
      refine value_congr u _ _ fun i hi => turnedValues_append_left s s' v i ?_
      rwa [h.length_leaves] at hi
    rw [Filter.Tree.values, Filter.Tree.values, hhead, h.length_leaves, past_turnedValues,
      h'.values, h.length]

/-! ## Groups of one kind -/

/-- Parts that are groups of the same kind are taken apart. -/
theorem toTrees_flatMap {f : List Truth → Truth} {op : Truth → Truth → Truth}
    {parts : Predicate → List Predicate} (hf : ∀ xs ys, f (xs ++ ys) = op (f xs) (f ys))
    (h : ∀ p : Predicate, leavesOf (Predicate.toTrees (parts p)) = p.toTree.leaves ∧
      ∀ v, f (values (Predicate.toTrees (parts p)) v) = f [p.toTree.value v])
    (ps : List Predicate) :
    leavesOf (Predicate.toTrees (ps.flatMap parts)) = leavesOf (Predicate.toTrees ps) ∧
      ∀ v, f (values (Predicate.toTrees (ps.flatMap parts)) v) =
        f (values (Predicate.toTrees ps) v) := by
  have happend (ps qs : List Predicate) :
      Predicate.toTrees (ps ++ qs) = Predicate.toTrees ps ++ Predicate.toTrees qs := by
    induction ps with
    | nil => rfl
    | cons p ps ih => rw [List.cons_append, Predicate.toTrees, ih, Predicate.toTrees, List.cons_append]
  induction ps with
  | nil => exact ⟨rfl, fun _ => rfl⟩
  | cons p ps ih =>
    obtain ⟨hleaves, hvalue⟩ := h p
    rw [List.flatMap_cons, happend, Predicate.toTrees, leavesOf_append, leavesOf, hleaves, ih.1]
    refine ⟨rfl, fun v => ?_⟩
    rw [values_append, hf, hvalue, hleaves, ih.2, ← hf]
    rfl

theorem toTree_conjunction (ps : List Predicate) :
    (Predicate.conjunction ps).toTree.leaves = leavesOf (Predicate.toTrees ps) ∧
      ∀ v, (Predicate.conjunction ps).toTree.value v = .all (values (Predicate.toTrees ps) v) := by
  unfold Predicate.conjunction
  split
  · simp [Predicate.toTrees, leavesOf, values, Truth.all]
  · refine toTrees_flatMap Truth.all_append (fun p => ?_) ps
    cases p with
    | all qs => exact ⟨rfl, fun v => (Truth.and_yes _).symm⟩
    | condition _ | any _ | negation _ => exact ⟨List.append_nil _, fun _ => rfl⟩

theorem toTree_disjunction (ps : List Predicate) :
    (Predicate.disjunction ps).toTree.leaves = leavesOf (Predicate.toTrees ps) ∧
      ∀ v, (Predicate.disjunction ps).toTree.value v = .any (values (Predicate.toTrees ps) v) := by
  unfold Predicate.disjunction
  split
  · simp [Predicate.toTrees, leavesOf, values, Truth.any]
  · refine toTrees_flatMap Truth.any_append (fun p => ?_) ps
    cases p with
    | any qs => exact ⟨rfl, fun v => (Truth.or_no _).symm⟩
    | condition _ | all _ | negation _ => exact ⟨List.append_nil _, fun _ => rfl⟩

/-! ## Trees -/

/-- What turns a single condition around turns its value around. -/
theorem turns_negate {s : List Bool} {t : Filter.Tree Condition} {p : Predicate}
    (h : Turns s t p.toTree) : ∃ s', Turns s' (.negation t) p.negate.toTree := by
  cases p with
  | condition x =>
    have hleaves : [x] = List.zipWith Condition.turned s t.leaves := h.leaves
    have hlength := h.length
    have hone : s.length = 1 := by
      have := congrArg List.length hleaves
      rw [List.length_zipWith, ← hlength, Nat.min_self] at this
      exact this.symm
    obtain ⟨b, rfl⟩ := List.length_eq_one_iff.mp hone
    obtain ⟨y, hy⟩ := List.length_eq_one_iff.mp (hlength.symm.trans hone)
    rw [hy] at hleaves
    obtain rfl : x = y.turned b := (List.cons.inj hleaves).1
    refine ⟨[!b], by simp [leaves, hy], ?_, fun v => ?_⟩
    · change [(y.turned b).negate] = List.zipWith Condition.turned [!b] t.leaves
      rw [hy]
      cases b <;> simp [Condition.turned]
    · have hvalue : turnedValues [b] v 0 = t.value v := h.value v
      change turnedValues [!b] v 0 = (t.value v).not
      rw [← hvalue]
      cases b <;> simp [turnedValues]
  | all ps | any ps | negation p =>
    refine ⟨s, h.length, h.leaves, fun v => ?_⟩
    change (Filter.Tree.value _ _).not = (t.value v).not
    exact congrArg Truth.not (h.value v)

mutual

theorem turns_ofTree : ∀ t : Filter.Tree Condition, ∃ s, Turns s t (Predicate.ofTree t).toTree
  | .leaf x => ⟨[false], rfl, rfl, fun _ => rfl⟩
  | .all ts => by
    obtain ⟨s, hs⟩ := turns_ofTrees ts
    obtain ⟨hleaves, hvalue⟩ := toTree_conjunction (Predicate.ofTrees ts)
    refine ⟨s, hs.length, ?_, fun v => ?_⟩
    · rw [Predicate.ofTree, hleaves, hs.leaves, leaves]
    · rw [Predicate.ofTree, hvalue, hs.values, value]
  | .any ts => by
    obtain ⟨s, hs⟩ := turns_ofTrees ts
    obtain ⟨hleaves, hvalue⟩ := toTree_disjunction (Predicate.ofTrees ts)
    refine ⟨s, hs.length, ?_, fun v => ?_⟩
    · rw [Predicate.ofTree, hleaves, hs.leaves, leaves]
    · rw [Predicate.ofTree, hvalue, hs.values, value]
  | .negation t => by
    obtain ⟨s, hs⟩ := turns_ofTree t
    rw [Predicate.ofTree]
    exact turns_negate hs

theorem turns_ofTrees : ∀ ts : List (Filter.Tree Condition),
    ∃ s, TurnsEach s ts (Predicate.toTrees (Predicate.ofTrees ts))
  | [] => ⟨[], rfl, rfl, fun _ => rfl⟩
  | t :: ts => by
    obtain ⟨s, hs⟩ := turns_ofTree t
    obtain ⟨s', hs'⟩ := turns_ofTrees ts
    rw [Predicate.ofTrees, Predicate.toTrees]
    exact ⟨s ++ s', hs.cons hs'⟩

end

/-- Conditions that no row changes have their values also where they are turned around. -/
theorem fits_turnedValues {s : List Bool} {v : Nat → Truth} {xs : List Condition}
    (h : Fits v xs) : Fits (turnedValues s v) (List.zipWith Condition.turned s xs) := by
  intro i y b hy hb
  obtain ⟨turn, x, hturn, hx, rfl⟩ := List.getElem?_zipWith_eq_some.mp hy
  have hfixed : (x.turned turn).fixed? = x.fixed?.map fun b => b ^^ turn := by
    obtain ⟨column, test⟩ := x
    cases turn <;> cases test with
    | member negated vs => cases vs <;> simp [Condition.turned, Condition.negate, Test.negate,
        Condition.fixed?]
    | _ => rfl
  rw [hfixed] at hb
  obtain ⟨b', hb', rfl⟩ := Option.map_eq_some_iff.mp hb
  have hv := h i x b' hx hb'
  simp only [turnedValues, hturn, Option.getD_some]
  cases turn
  · simpa using hv
  · simpa [hv] using Truth.not_ofBool b'

end SqlFragment
