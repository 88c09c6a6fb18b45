import Mathlib.Data.List.Induction
import Mathlib.Data.List.Nodup
import SqlFragment.Proofs.Catalogs

/-!
Registries after many changes. What a registry holds is told by the changes alone: which registrations
are not followed by a removal, the first of them for the place of an operator, and the last for its
strategy. Copies hold the same, because a strategy is always found under the operator it is for.
-/
namespace SqlFragment

namespace Registry

variable {τ : Type}

/-! ## Entries -/

section Entries

variable {op : Operator} {s : Strategy τ} {es : List (Operator × Strategy τ)}

theorem keys_putEntry (op : Operator) (s : Strategy τ) (es : List (Operator × Strategy τ)) :
    (putEntry op s es).map (·.1) =
      if op ∈ es.map (·.1) then es.map (·.1) else es.map (·.1) ++ [op] := by
  induction es with
  | nil => rfl
  | cons e es ih =>
    rw [putEntry]
    by_cases he : e.1 = op
    · rw [if_pos he, List.map_cons, List.map_cons, he, if_pos List.mem_cons_self]
    · have hmem : op ∈ (e :: es).map (·.1) ↔ op ∈ es.map (·.1) := by
        rw [List.map_cons, List.mem_cons]
        exact or_iff_right (Ne.symm he)
      rw [if_neg he, List.map_cons, ih]
      simp only [hmem]
      split <;> rfl

theorem lookup_putEntry (op op' : Operator) (s : Strategy τ) (es : List (Operator × Strategy τ)) :
    (putEntry op s es).lookup op' = if op' = op then some s else es.lookup op' := by
  induction es with
  | nil =>
    by_cases h : op' = op
    · simp [putEntry, h]
    · have hne : (op' == op) = false := beq_eq_false_iff_ne.mpr h
      simp [putEntry, List.lookup, h, hne]
  | cons e es ih =>
    rw [putEntry]
    by_cases he : e.1 = op
    · rw [if_pos he]
      by_cases h : op' = op
      · simp [h]
      · have hne : (op' == op) = false := beq_eq_false_iff_ne.mpr h
        simp [List.lookup, h, he, hne]
    · rw [if_neg he]
      by_cases h : op' = e.1
      · have hne : op' ≠ op := fun hop => he (h.symm.trans hop)
        rw [if_neg hne]
        simp [List.lookup, h]
      · have hne : (op' == e.1) = false := beq_eq_false_iff_ne.mpr h
        simp only [List.lookup, hne, ih]

theorem mem_putEntry {e : Operator × Strategy τ} (h : e ∈ putEntry op s es) :
    e = (op, s) ∨ e ∈ es := by
  induction es with
  | nil => exact .inl (List.mem_singleton.mp h)
  | cons e' es ih =>
    rw [putEntry] at h
    split at h
    · rcases List.mem_cons.mp h with rfl | h
      · exact .inl rfl
      · exact .inr (List.mem_cons_of_mem e' h)
    · rcases List.mem_cons.mp h with rfl | h
      · exact .inr List.mem_cons_self
      · exact (ih h).imp_right (List.mem_cons_of_mem e')

theorem putEntry_new (h : op ∉ es.map (·.1)) : putEntry op s es = es ++ [(op, s)] := by
  induction es with
  | nil => rfl
  | cons e es ih =>
    rw [List.map_cons, List.mem_cons, not_or] at h
    rw [putEntry, if_neg (Ne.symm h.1), ih h.2]
    rfl

theorem keys_unregister (r : Registry τ) (op : Operator) :
    (r.unregister op).operators = r.operators.filter (· ≠ op) := by
  rw [operators, operators, List.filter_map]
  rfl

theorem get?_unregister (r : Registry τ) (op op' : Operator) :
    (r.unregister op).get? op' = if op' = op then none else r.get? op' := by
  obtain ⟨entries⟩ := r
  change (entries.filter fun e => e.1 ≠ op).lookup op' = if op' = op then none else entries.lookup op'
  induction entries with
  | nil => simp
  | cons e entries ih =>
    by_cases he : e.1 = op
    · rw [List.filter_cons_of_neg (by simpa using he), ih]
      by_cases hop : op' = op
      · simp [hop]
      · have hne : (op' == op) = false := beq_eq_false_iff_ne.mpr hop
        simp [List.lookup, hop, he, hne]
    · rw [List.filter_cons_of_pos (by simpa using he)]
      by_cases hop : op' = e.1
      · simp [List.lookup, hop, he]
      · have hne : (op' == e.1) = false := beq_eq_false_iff_ne.mpr hop
        simp only [List.lookup, hne, ih]

theorem contains_iff {r : Registry τ} : r.contains op = true ↔ op ∈ r.operators := by
  simp [contains, get?, operators, List.lookup_isSome_iff]

theorem supported_perm (r : Registry τ) : r.supported.Perm (r.operators.map Operator.name) :=
  List.mergeSort_perm _ _

theorem supported_pairwise (r : Registry τ) : r.supported.Pairwise (· ≤ ·) := by
  have htrans (a b c : String) (hab : (!decide (b < a)) = true) (hbc : (!decide (c < b)) = true) :
      (!decide (c < a)) = true := by
    simp only [Bool.not_eq_true', decide_eq_false_iff_not, String.not_lt] at *
    exact String.le_trans hab hbc
  have htotal (a b : String) : (!decide (b < a) || !decide (a < b)) = true := by
    simp only [Bool.or_eq_true, Bool.not_eq_true', decide_eq_false_iff_not, String.not_lt]
    exact String.le_total a b
  refine (List.pairwise_mergeSort htrans htotal _).imp fun {a b} hab => ?_
  simpa only [Bool.not_eq_true', decide_eq_false_iff_not, String.not_lt] using hab

end Entries

/-! ## Changes -/

/-- A change of a registry. Several strategies are registered one after another, and going on with a
copy is a change, too. -/
inductive Change (τ : Type)
  | register (s : Strategy τ)
  | unregister (op : Operator)
  | copy

section History

variable {cs : List (Change τ)} {c : Change τ} [OwnTests τ]

def Change.apply (r : Registry τ) : Change τ → Registry τ
  | .register s => r.register s
  | .unregister op => r.unregister op
  | .copy => r.copy

/-- The registry that changes lead to. -/
def after (r : Registry τ) (cs : List (Change τ)) : Registry τ := cs.foldl Change.apply r

/-- A registration of an operator that is not taken out since. -/
structure Stands (cs : List (Change τ)) (op : Operator) (i : Nat) (s : Strategy τ) : Prop where
  registered : cs[i]? = some (.register s)
  operator : s.operator = op
  kept : ∀ j > i, cs[j]? ≠ some (.unregister op)

/-- When an operator was first registered since it was last taken out. -/
def IsFirst (cs : List (Change τ)) (op : Operator) (i : Nat) : Prop :=
  (∃ s, Stands cs op i s) ∧ ∀ j < i, ∀ s, ¬Stands cs op j s

/-- What an operator was last registered with. -/
def IsLast (cs : List (Change τ)) (op : Operator) (s : Strategy τ) : Prop :=
  ∃ i, Stands cs op i s ∧ ∀ j > i, ∀ s', ¬Stands cs op j s'

/-- Whether one operator was registered before another. -/
def Precedes (cs : List (Change τ)) (a b : Operator) : Prop :=
  ∀ i j, IsFirst cs a i → IsFirst cs b j → i < j

theorem Stands.lt_length {op : Operator} {i : Nat} {s : Strategy τ} (h : Stands cs op i s) :
    i < cs.length :=
  (List.getElem?_eq_some_iff.mp h.registered).1

theorem getElem?_concat_eq_some {α : Type} {xs : List α} {x y : α} {i : Nat} :
    (xs ++ [x])[i]? = some y ↔ xs[i]? = some y ∨ (i = xs.length ∧ x = y) := by
  rcases Nat.lt_trichotomy i xs.length with hi | rfl | hi
  · rw [List.getElem?_append_left hi]
    exact (or_iff_left fun h => Nat.ne_of_lt hi h.1).symm
  · simp
  · have hnone : xs[i]? = none := List.getElem?_eq_none (Nat.le_of_lt hi)
    rw [List.getElem?_append_right (Nat.le_of_lt hi), hnone,
      List.getElem?_eq_none (Nat.sub_pos_of_lt hi)]
    simp [Nat.ne_of_gt hi]

/-- One more change takes the operator out, or registers it, or leaves it as it is. -/
theorem stands_concat_iff {op : Operator} {i : Nat} {s : Strategy τ} :
    Stands (cs ++ [c]) op i s ↔ (Stands cs op i s ∧ c ≠ .unregister op) ∨
      (i = cs.length ∧ c = .register s ∧ s.operator = op) := by
  constructor
  · rintro ⟨hreg, hop, hkept⟩
    rcases getElem?_concat_eq_some.mp hreg with hreg | ⟨hi, hc⟩
    · refine .inl ⟨⟨hreg, hop, fun j hj hun => ?_⟩, ?_⟩
      · exact hkept j hj (getElem?_concat_eq_some.mpr (.inl hun))
      · intro hc
        have hi : i < cs.length := (List.getElem?_eq_some_iff.mp hreg).1
        exact hkept cs.length hi (getElem?_concat_eq_some.mpr (.inr ⟨rfl, hc⟩))
    · exact .inr ⟨hi, hc, hop⟩
  · rintro (⟨⟨hreg, hop, hkept⟩, hc⟩ | ⟨rfl, rfl, hop⟩)
    · refine ⟨getElem?_concat_eq_some.mpr (.inl hreg), hop, fun j hj hun => ?_⟩
      rcases getElem?_concat_eq_some.mp hun with hun | ⟨-, hun⟩
      · exact hkept j hj hun
      · exact hc hun
    · refine ⟨getElem?_concat_eq_some.mpr (.inr ⟨rfl, rfl⟩), hop, fun j hj hun => ?_⟩
      have hj' := (List.getElem?_eq_some_iff.mp hun).1
      rw [List.length_append, List.length_singleton] at hj'
      omega

/-- Whether a change is about an operator. -/
def Change.Touches (c : Change τ) (op : Operator) : Prop :=
  c = .unregister op ∨ ∃ s, c = .register s ∧ s.operator = op

section Untouched

variable {op : Operator} (h : ¬c.Touches op)
include h

theorem stands_of_not_touches {i : Nat} {s : Strategy τ} :
    Stands (cs ++ [c]) op i s ↔ Stands cs op i s := by
  rw [stands_concat_iff]
  constructor
  · rintro (⟨hs, -⟩ | ⟨-, hc, hop⟩)
    · exact hs
    · exact absurd (.inr ⟨s, hc, hop⟩) h
  · intro hs
    exact .inl ⟨hs, fun hc => h (.inl hc)⟩

theorem isFirst_of_not_touches {i : Nat} : IsFirst (cs ++ [c]) op i ↔ IsFirst cs op i := by
  simp only [IsFirst, stands_of_not_touches h]

theorem isLast_of_not_touches {s : Strategy τ} : IsLast (cs ++ [c]) op s ↔ IsLast cs op s := by
  simp only [IsLast, stands_of_not_touches h]

end Untouched

section Registered

variable {s : Strategy τ}

theorem stands_register_iff {i : Nat} {s' : Strategy τ} :
    Stands (cs ++ [.register s]) s.operator i s' ↔
      Stands cs s.operator i s' ∨ (i = cs.length ∧ s = s') := by
  rw [stands_concat_iff]
  constructor
  · rintro (⟨hs, -⟩ | ⟨hi, hs, -⟩)
    · exact .inl hs
    · exact .inr ⟨hi, Change.register.inj hs⟩
  · rintro (hs | ⟨hi, rfl⟩)
    · exact .inl ⟨hs, nofun⟩
    · exact .inr ⟨hi, rfl, rfl⟩

/-- The new strategy is the last. -/
theorem isLast_register_iff {s' : Strategy τ} :
    IsLast (cs ++ [.register s]) s.operator s' ↔ s' = s := by
  constructor
  · rintro ⟨i, hs, hlast⟩
    rcases stands_register_iff.mp hs with hs | ⟨-, rfl⟩
    · exact absurd (stands_register_iff.mpr (.inr ⟨rfl, rfl⟩)) (hlast cs.length hs.lt_length s)
    · rfl
  · rintro rfl
    refine ⟨cs.length, stands_register_iff.mpr (.inr ⟨rfl, rfl⟩), fun j hj s'' hs => ?_⟩
    rcases stands_register_iff.mp hs with hs | ⟨rfl, -⟩
    · exact absurd hs.lt_length (Nat.lt_asymm hj)
    · exact Nat.lt_irrefl _ hj

/-- An operator that is there keeps its place. -/
theorem isFirst_register_of_stands {i j : Nat} {s' : Strategy τ} (hs : Stands cs s.operator j s')
    (h : IsFirst (cs ++ [.register s]) s.operator i) : IsFirst cs s.operator i := by
  obtain ⟨⟨t, ht⟩, hfirst⟩ := h
  have hbefore (m : Nat) (hm : m < i) (u : Strategy τ) : ¬Stands cs s.operator m u := fun hu =>
    hfirst m hm u (stands_register_iff.mpr (.inl hu))
  rcases stands_register_iff.mp ht with ht | ⟨rfl, -⟩
  · exact ⟨⟨t, ht⟩, hbefore⟩
  · exact absurd hs (hbefore j hs.lt_length s')

/-- A new operator gets the last place. -/
theorem isFirst_register_of_new {i : Nat} (hnew : ∀ j s', ¬Stands cs s.operator j s')
    (h : IsFirst (cs ++ [.register s]) s.operator i) : i = cs.length := by
  obtain ⟨⟨t, ht⟩, -⟩ := h
  rcases stands_register_iff.mp ht with ht | ⟨hi, -⟩
  · exact absurd ht (hnew i t)
  · exact hi

end Registered

/-! ## Steps -/

/-- Whether a registry holds what changes leave: every strategy under the operator it is for, the
operators that were registered and not taken out since, in the order in which they came, and for each
the strategy that it was last registered with. -/
structure Follows (cs : List (Change τ)) (r : Registry τ) : Prop where
  named : ∀ e ∈ r.entries, e.2.operator = e.1
  distinct : r.operators.Nodup
  standing : ∀ op, op ∈ r.operators ↔ ∃ i s, Stands cs op i s
  ordered : r.operators.Pairwise (Precedes cs)
  last : ∀ op s, r.get? op = some s ↔ IsLast cs op s

variable {r : Registry τ}

theorem operators_register (r : Registry τ) (s : Strategy τ) : (r.register s).operators =
    if s.operator ∈ r.operators then r.operators else r.operators ++ [s.operator] :=
  keys_putEntry s.operator s r.entries

theorem mem_operators_register {r : Registry τ} {s : Strategy τ} {op : Operator} :
    op ∈ (r.register s).operators ↔ op ∈ r.operators ∨ op = s.operator := by
  rw [operators_register]
  split
  · rename_i hmem
    exact (or_iff_left_of_imp fun hop => hop ▸ hmem).symm
  · rw [List.mem_append, List.mem_singleton]

theorem get?_register (r : Registry τ) (s : Strategy τ) (op : Operator) :
    (r.register s).get? op = if op = s.operator then some s else r.get? op :=
  lookup_putEntry s.operator op s r.entries

theorem not_touches_register {s : Strategy τ} {op : Operator} (h : op ≠ s.operator) :
    ¬(Change.register s).Touches op := by
  rintro (hc | ⟨s', hs, rfl⟩)
  · cases hc
  · exact h (congrArg Strategy.operator (Change.register.inj hs).symm)

theorem not_touches_unregister {op op' : Operator} (h : op ≠ op') :
    ¬(Change.unregister op' : Change τ).Touches op := by
  rintro (hc | ⟨s, hs, -⟩)
  · exact h (Change.unregister.inj hc).symm
  · cases hs

theorem not_touches_copy (op : Operator) : ¬(Change.copy : Change τ).Touches op := by
  rintro (hc | ⟨s, hs, -⟩)
  · cases hc
  · cases hs

theorem Follows.nil : Follows [] ({} : Registry τ) where
  named := nofun
  distinct := .nil
  standing op := by
    constructor
    · exact nofun
    · rintro ⟨i, s, hs⟩
      exact absurd hs.lt_length (Nat.not_lt_zero i)
  ordered := .nil
  last op s := by
    constructor
    · exact nofun
    · rintro ⟨i, hs, -⟩
      exact absurd hs.lt_length (Nat.not_lt_zero i)

/-- An operator that was registered before does not come in anew. -/
theorem isFirst_of_register {s : Strategy τ} {op : Operator} {i j : Nat} {s' : Strategy τ}
    (hs : Stands cs op j s') (h : IsFirst (cs ++ [.register s]) op i) : IsFirst cs op i := by
  by_cases hop : op = s.operator
  · subst hop
    exact isFirst_register_of_stands hs h
  · exact (isFirst_of_not_touches (not_touches_register hop)).mp h

theorem Follows.register (h : Follows cs r) (s : Strategy τ) :
    Follows (cs ++ [.register s]) (r.register s) where
  named e he := by
    rcases mem_putEntry he with rfl | he
    · rfl
    · exact h.named e he
  distinct := by
    rw [operators_register]
    split
    · exact h.distinct
    · rename_i hnew
      rw [← List.concat_eq_append]
      exact h.distinct.concat hnew
  standing op := by
    rw [mem_operators_register]
    by_cases hop : op = s.operator
    · subst hop
      exact iff_of_true (.inr rfl) ⟨cs.length, s, stands_register_iff.mpr (.inr ⟨rfl, rfl⟩)⟩
    · simp only [hop, or_false, stands_of_not_touches (not_touches_register hop), h.standing op]
  ordered := by
    have hkept : r.operators.Pairwise (Precedes (cs ++ [.register s])) := by
      refine h.ordered.imp_of_mem fun {a b} ha hb hab i j hi hj => ?_
      obtain ⟨_, _, ha⟩ := (h.standing a).mp ha
      obtain ⟨_, _, hb⟩ := (h.standing b).mp hb
      exact hab i j (isFirst_of_register ha hi) (isFirst_of_register hb hj)
    rw [operators_register]
    split
    · exact hkept
    · -- a new operator was first registered just now, and all others before
      rename_i hnew
      refine List.pairwise_append.mpr ⟨hkept, List.pairwise_singleton _ _, ?_⟩
      rintro a ha b hb i j hi hj
      obtain rfl := List.mem_singleton.mp hb
      obtain ⟨_, _, ha⟩ := (h.standing a).mp ha
      obtain ⟨⟨_, hi⟩, -⟩ := isFirst_of_register ha hi
      have hj : j = cs.length := isFirst_register_of_new
        (fun m t hm => hnew ((h.standing _).mpr ⟨m, t, hm⟩)) hj
      rw [hj]
      exact hi.lt_length
  last op s' := by
    rw [get?_register]
    by_cases hop : op = s.operator
    · subst hop
      rw [if_pos rfl, isLast_register_iff, Option.some.injEq]
      exact eq_comm
    · rw [if_neg hop, isLast_of_not_touches (not_touches_register hop)]
      exact h.last op s'

/-- What is taken out stands no more. -/
theorem not_stands_unregister {op : Operator} {i : Nat} {s : Strategy τ} :
    ¬Stands (cs ++ [.unregister op]) op i s := by
  intro hs
  rcases stands_concat_iff.mp hs with ⟨-, hc⟩ | ⟨-, hc, -⟩
  · exact hc rfl
  · cases hc

theorem Follows.unregister (h : Follows cs r) (op : Operator) :
    Follows (cs ++ [.unregister op]) (r.unregister op) where
  named e he := h.named e (List.mem_of_mem_filter he)
  distinct := by
    rw [keys_unregister]
    exact h.distinct.filter _
  standing op' := by
    rw [keys_unregister, List.mem_filter, decide_eq_true_eq]
    by_cases hop : op' = op
    · subst hop
      exact iff_of_false (fun hmem => hmem.2 rfl) fun ⟨_, _, hs⟩ => not_stands_unregister hs
    · have hc : ¬(Change.unregister op : Change τ).Touches op' := not_touches_unregister hop
      simp only [stands_of_not_touches hc]
      rw [← h.standing op']
      exact and_iff_left hop
  ordered := by
    rw [keys_unregister]
    refine (h.ordered.filter _).imp_of_mem fun {a b} ha hb hab i j hi hj => ?_
    have ha : a ≠ op := of_decide_eq_true (List.mem_filter.mp ha).2
    have hb : b ≠ op := of_decide_eq_true (List.mem_filter.mp hb).2
    exact hab i j ((isFirst_of_not_touches (not_touches_unregister ha)).mp hi)
      ((isFirst_of_not_touches (not_touches_unregister hb)).mp hj)
  last op' s := by
    rw [get?_unregister]
    by_cases hop : op' = op
    · subst hop
      rw [if_pos rfl]
      exact iff_of_false nofun fun ⟨_, hs, _⟩ => not_stands_unregister hs
    · rw [if_neg hop, isLast_of_not_touches (not_touches_unregister hop)]
      exact h.last op' s

/-- Strategies that are registered under new operators are appended. -/
theorem registerAll_new {es acc : List (Operator × Strategy τ)}
    (named : ∀ e ∈ es, e.2.operator = e.1) (distinct : ((acc ++ es).map (·.1)).Nodup) :
    registerAll ⟨acc⟩ (es.map (·.2)) = ⟨acc ++ es⟩ := by
  induction es generalizing acc with
  | nil => simp [registerAll]
  | cons e es ih =>
    obtain ⟨hname, named⟩ := List.forall_mem_cons.mp named
    have hnew : e.1 ∉ acc.map (·.1) := by
      rw [List.map_append, List.map_cons, List.nodup_append] at distinct
      exact fun hmem => distinct.2.2 _ hmem _ List.mem_cons_self rfl
    have hput : Registry.register ⟨acc⟩ e.2 = ⟨acc ++ [e]⟩ := by
      rw [Registry.register, hname, putEntry_new hnew]
    have happend : acc ++ e :: es = acc ++ [e] ++ es := by simp
    rw [List.map_cons, registerAll, List.foldl_cons, hput, happend]
    exact ih named (by rwa [← happend])

/-- A copy holds the same, in the same order. -/
theorem Follows.copy_eq (h : Follows cs r) : r.copy = r :=
  registerAll_new h.named h.distinct

theorem Follows.copy (h : Follows cs r) : Follows (cs ++ [.copy]) r.copy := by
  rw [h.copy_eq]
  refine ⟨h.named, h.distinct, fun op => ?_, ?_, fun op s => ?_⟩
  · have hc : ¬(Change.copy : Change τ).Touches op := not_touches_copy op
    simp only [stands_of_not_touches hc]
    exact h.standing op
  · refine h.ordered.imp fun {a b} hab i j hi hj => ?_
    exact hab i j ((isFirst_of_not_touches (not_touches_copy a)).mp hi)
      ((isFirst_of_not_touches (not_touches_copy b)).mp hj)
  · rw [isLast_of_not_touches (not_touches_copy op)]
    exact h.last op s

/-! ## Runs -/

theorem Follows.step (h : Follows cs r) (c : Change τ) : Follows (cs ++ [c]) (c.apply r) := by
  cases c with
  | register s => exact h.register s
  | unregister op => exact h.unregister op
  | copy => exact h.copy

theorem follows_after (cs : List (Change τ)) : Follows cs (after {} cs) := by
  induction cs using List.reverseRecOn with
  | nil => exact .nil
  | append_singleton cs c ih =>
    rw [after, List.foldl_append]
    exact ih.step c

/-- What leads to the usual registry. -/
def usualChanges : List (Change τ) := Operator.all.map fun op => .register (.usual op)

theorem after_usual (cs : List (Change τ)) : after usual cs = after {} (usualChanges ++ cs) := by
  have husual : (usual : Registry τ) = after {} usualChanges := by
    rw [usual, registerAll, after, usualChanges, List.foldl_map, List.foldl_map]
    rfl
  rw [husual, after, after, after, List.foldl_append]

/-! ## What a registry tells -/

theorem exists_isFirst {op : Operator} (h : ∃ i s, Stands cs op i s) : ∃ i, IsFirst cs op i := by
  classical
  exact ⟨Nat.find h, Nat.find_spec h, fun j hj s hs => Nat.find_min h hj ⟨s, hs⟩⟩

theorem Follows.get?_eq_some_iff (h : Follows cs r) {op : Operator} {s : Strategy τ} :
    r.get? op = some s ↔ (op, s) ∈ r.entries :=
  lookup_eq_some_iff_mem h.distinct

theorem Follows.map_strategies (h : Follows cs r) : r.strategies.map some = r.operators.map r.get? := by
  rw [strategies, operators, List.map_map, List.map_map]
  exact List.map_congr_left fun e he => (h.get?_eq_some_iff.mpr he).symm

theorem testNamed_of_get? {op : Operator} {s : Strategy τ} (h : r.get? op = some s) (v : Value) :
    r.testNamed op.name v = s.test v := by
  simp only [testNamed, Operator.ofName?_name, test, h]

/-- Whether a word names an operator of a registry. -/
def Names (r : Registry τ) (word : String) : Prop := ∃ op ∈ r.operators, op.name = word

theorem testNamed_of_not_names {word : String} (h : ¬r.Names word) (v : Value) :
    r.testNamed word v = .error (.unknownOperator (.text word) r.supported) := by
  rw [testNamed]
  cases hword : Operator.ofName? word with
  | none => rfl
  | some op =>
    have hname := Operator.name_of_ofName? hword
    have hnone : r.get? op = none := by
      rw [← Option.not_isSome_iff_eq_none]
      exact fun hop => h ⟨op, contains_iff.mp hop, hname⟩
    simp only [test, hnone, hname]

/-- Whether the text of an operand is written into a pattern, or into what is said of one that is no
range. -/
def Writes : Strategy τ → Value → Prop
  | .usual .between, v | .usual .notBetween, v => ∀ low high, v.items? ≠ some [low, high]
  | .usual op, _ => op ∉ [.eq, .ne, .gt, .lt, .ge, .le, .isIn, .notIn, .isNull, .isNotNull]
  | .foldedNotLike, _ => True
  | .foldedEqual, _ | .own _, _ => False

theorem patternTest_eq_error {v : Value} {test : String → Test} {e : Error}
    (h : Strategy.patternTest v test = .error e) :
    e = .fault .unreadableNumber ∧ v.isWritable = false := by
  have h := map_eq_error.mp h
  unfold Value.shown at h
  split at h
  · cases h
  · exact ⟨(Except.error.inj h).symm, by simp_all⟩

/-- What is no range is told of, if it can be written. -/
theorem bounds_eq_error {op : Operator} {v : Value} {e : Error}
    (h : Strategy.bounds op v = .error e) :
    (e = .fault .unreadableNumber ∧ (∀ low high, v.items? ≠ some [low, high]) ∧
      v.isWritable = false) ∨ e = .invalid (.notRange op v) none := by
  unfold Strategy.bounds at h
  dsimp only at h
  split at h
  · cases h
  · rename_i hparts
    rcases Error.telling_eq_iff.mp (Except.error.inj h) with ⟨-, rfl⟩ | ⟨unwritable, rfl⟩
    · exact .inr rfl
    · refine .inl ⟨rfl, fun low high hv => ?_, unwritable⟩
      cases v with
      | list | tuple => exact hparts low high hv
      | _ => cases hv

/-- What a strategy that is not a caller's own says of an operand that it has no test for. -/
theorem strategy_fails {s : Strategy τ} {v : Value} {e : Error} (hs : ∀ t, s ≠ .own t)
    (h : s.test v = .error e) :
    (e = .fault .unreadableNumber ∧ Writes s v ∧ v.isWritable = false) ∨
      ∃ op, e = .invalid (.notRange op v) none := by
  cases s with
  | usual op =>
    cases op with
    | between | notBetween =>
      exact (bounds_eq_error (map_eq_error.mp h)).imp_right fun he => ⟨_, he⟩
    | eq | ne | gt | lt | ge | le | isIn | notIn | isNull | isNotNull => cases h
    | _ =>
      obtain ⟨he, unwritable⟩ := patternTest_eq_error h
      exact .inl ⟨he, by simp [Writes], unwritable⟩
  | foldedEqual => cases h
  | foldedNotLike =>
    obtain ⟨he, unwritable⟩ := patternTest_eq_error h
    exact .inl ⟨he, trivial, unwritable⟩
  | own t => exact absurd rfl (hs t)

/-- Whether a strategy never says that an operator is not there. -/
def NeverDenies (s : Strategy τ) : Prop :=
  ∀ v word names, s.test v ≠ .error (.unknownOperator word names)

theorem neverDenies_of_ne_own {s : Strategy τ} (h : ∀ t, s ≠ .own t) : NeverDenies s := by
  intro v word names hdenied
  rcases strategy_fails h hdenied with ⟨he, -⟩ | ⟨op, he⟩ <;> cases he

/-- What a registry tells of the changes that led to it, however it is asked. Whether it tells of an
unknown operator exactly for words that name none of its own is up to the tests that it holds, too. -/
structure IsToldBy (cs : List (Change τ)) (r : Registry τ) : Prop where
  named : ∀ op s, r.get? op = some s → s.operator = op
  standing : ∀ op, op ∈ r.operators ↔ ∃ i s, Stands cs op i s
  distinct : r.operators.Nodup
  ordered : r.operators.Pairwise fun a b => ∃ i j, IsFirst cs a i ∧ IsFirst cs b j ∧ i < j
  last : ∀ op s, r.get? op = some s ↔ IsLast cs op s
  walk : r.strategies.map some = r.operators.map r.get?
  size : r.size = r.operators.length
  contains_iff : ∀ op, r.contains op = true ↔ op ∈ r.operators
  supported : r.supported.Perm (r.operators.map Operator.name)
  sorted : r.supported.Pairwise (· ≤ ·)
  copy_operators : r.copy.operators = r.operators
  copy_get? : ∀ op, r.copy.get? op = r.get? op
  known : ∀ op s v, r.get? op = some s → r.testNamed op.name v = s.test v
  unknown : ∀ word v, ¬r.Names word →
    r.testNamed word v = .error (.unknownOperator (.text word) r.supported)
  unknown_iff : (∀ s ∈ r.strategies, NeverDenies s) → ∀ word v,
    (∃ w names, r.testNamed word v = .error (.unknownOperator w names)) ↔ ¬r.Names word

theorem Follows.isToldBy (h : Follows cs r) : IsToldBy cs r where
  named op s hs := h.named _ (h.get?_eq_some_iff.mp hs)
  standing := h.standing
  distinct := h.distinct
  ordered := by
    refine h.ordered.imp_of_mem fun {a b} ha hb hab => ?_
    obtain ⟨i, hi⟩ := exists_isFirst ((h.standing a).mp ha)
    obtain ⟨j, hj⟩ := exists_isFirst ((h.standing b).mp hb)
    exact ⟨i, j, hi, hj, hab i j hi hj⟩
  last := h.last
  walk := h.map_strategies
  size := by rw [size, operators, List.length_map]
  contains_iff _ := contains_iff
  supported := supported_perm r
  sorted := supported_pairwise r
  copy_operators := by rw [h.copy_eq]
  copy_get? op := by rw [h.copy_eq]
  known op s v hs := testNamed_of_get? hs v
  unknown word v hword := testNamed_of_not_names hword v
  unknown_iff hknows word v := by
    constructor
    · rintro ⟨w, names, herror⟩ ⟨op, hop, rfl⟩
      obtain ⟨s, hs⟩ := Option.isSome_iff_exists.mp (contains_iff.mpr hop)
      rw [testNamed_of_get? hs] at herror
      exact hknows s (List.mem_map_of_mem (h.get?_eq_some_iff.mp hs)) v w names herror
    · exact fun hword => ⟨_, _, testNamed_of_not_names hword v⟩

/-- Whatever is registered, taken out and copied, from nothing or from the usual registry: what comes
of it is told by the changes. The tests of the library's own strategies never deny the operator. -/
theorem told_by_changes (cs : List (Change τ)) :
    IsToldBy cs (after {} cs) ∧ IsToldBy (usualChanges ++ cs) (after usual cs) ∧
      ∀ s : Strategy τ, (∀ t, s ≠ .own t) → NeverDenies s := by
  refine ⟨(follows_after cs).isToldBy, ?_, fun s => neverDenies_of_ne_own⟩
  rw [after_usual]
  exact (follows_after _).isToldBy

end History

/-- An operator that is taken out and put back goes to the end; one that is registered anew stays. -/
example : (after {} [.register (.usual .eq), .register (.usual .like), .register .foldedEqual,
    .unregister .like, .register (.usual .gt), .copy, .register .foldedNotLike,
    .register (.usual .like)] : Registry).operators = [.eq, .gt, .notLike, .like] := by decide

end Registry

end SqlFragment
