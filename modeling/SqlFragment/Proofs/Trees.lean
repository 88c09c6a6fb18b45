import SqlFragment.Filter.Shorthand
import SqlFragment.Proofs.Outcome
import SqlFragment.Proofs.Truth
import SqlFragment.Statement.Predicate

/-!
Filters that are not empty have nodes that are not empty. Trees that are read have a condition below
every connective, and so have the predicates made of them; all their conditions were read.
-/
namespace SqlFragment

/-! ## Nodes -/

namespace Filter

theorem isTruthy_allOf {nodes : List Value} (h : ∀ n ∈ nodes, n.isTruthy = true) :
    (allOf nodes).isTruthy = true := by
  unfold allOf
  split
  · exact h _ List.mem_cons_self
  · rfl

theorem isTruthy_group (c : Connective) {nodes : List Value}
    (h : ∀ n ∈ nodes, n.isTruthy = true) : (group c nodes).isTruthy = true := by
  cases c with
  | and => exact isTruthy_allOf h
  | or | not => rfl

theorem isTruthy_modifierNode {field modifier operand node : Value}
    (h : modifierNode field modifier operand = .ok node) : node.isTruthy = true := by
  unfold modifierNode at h
  simp only [bind_eq_ok] at h
  obtain ⟨word, -, h⟩ := h
  split at h
  · contradiction
  · obtain rfl := pure_eq_ok.mp h
    rfl

theorem isTruthy_attributeNodes {here : Path} {field operand : Value} {nodes : List Value}
    (h : attributeNodes here field operand = .ok nodes) : ∀ n ∈ nodes, n.isTruthy = true := by
  unfold attributeNodes at h
  split at h
  · contradiction
  · intro n hn
    obtain ⟨e, -, he⟩ := exists_of_mem_mapM h n hn
    exact isTruthy_modifierNode he
  all_goals
    obtain rfl := Except.ok.inj h
    exact List.forall_mem_singleton.mpr rfl

theorem isTruthy_patternNodes {here : Path} {patterns : Value} {nodes : List Value}
    (h : patternNodes here patterns = .ok nodes) : ∀ n ∈ nodes, n.isTruthy = true := by
  unfold patternNodes at h
  split at h
  · contradiction
  · obtain rfl := Except.ok.inj h
    exact List.forall_mem_map.mpr fun e _ => rfl
  · contradiction

/-- No node that a mapping is brought into is empty. -/
theorem isTruthy_entryNodes (place : Path) (es : List (Value × Value)) {nodes : List Value}
    (h : entryNodes place es = .ok nodes) : ∀ n ∈ nodes, n.isTruthy = true := by
  have hinduct := entryNodes.mutual_induct
    (fun place es => ∀ nodes, entryNodes place es = .ok nodes → ∀ n ∈ nodes, n.isTruthy = true)
    (fun here c v => ∀ nodes, blockNode here c v = .ok nodes → ∀ n ∈ nodes, n.isTruthy = true)
    (fun here i vs => ∀ nodes, branchNodes here i vs = .ok nodes → ∀ n ∈ nodes, n.isTruthy = true)
  refine (hinduct ?list ?tuple ?noBranches ?noMore ?branch ?notMapping ?nil ?cons).1 place es nodes h
  case list | tuple =>
    intro here c b bs ih nodes h
    rw [blockNode] at h
    simp only [bind_eq_ok, pure_eq_ok] at h
    obtain ⟨branches, hbranches, rfl⟩ := h
    exact List.forall_mem_singleton.mpr (isTruthy_group c (ih branches hbranches))
  case noBranches =>
    intro v here c hlist htuple nodes h
    rw [blockNode] at h
    · contradiction
    · exact hlist
    · exact htuple
  case noMore =>
    intro here i nodes h
    rw [branchNodes] at h
    obtain rfl := Except.ok.inj h
    exact List.forall_mem_nil _
  case branch =>
    intro here i es rest ih ihrest nodes h
    rw [branchNodes] at h
    simp only [bind_eq_ok, ite_error_eq_ok, pure_eq_ok] at h
    obtain ⟨own, hown, -, more, hmore, rfl⟩ := h
    exact List.forall_mem_cons.mpr ⟨isTruthy_allOf (ih own hown), ihrest more hmore⟩
  case notMapping =>
    intro here i v rest hv nodes h
    rw [branchNodes] at h
    · contradiction
    · exact hv
  case nil =>
    intro place nodes h
    rw [entryNodes] at h
    obtain rfl := Except.ok.inj h
    exact List.forall_mem_nil _
  case cons =>
    intro place key operand rest ih ihand ihor nodes h
    rw [entryNodes] at h
    simp only [bind_eq_ok] at h
    obtain ⟨name, -, word, -, h⟩ := h
    split at h
    all_goals
      simp only [bind_eq_ok, pure_eq_ok] at h
      obtain ⟨own, hown, more, hmore, rfl⟩ := h
      refine List.forall_mem_append.mpr ⟨?_, ih more hmore⟩
    · exact ihand name own hown
    · exact ihor name own hown
    · exact isTruthy_patternNodes hown
    · exact isTruthy_attributeNodes hown

/-- A filter that is not empty has a node that is not empty, and no other has one. -/
theorem isTruthy_toNode {filter node : Value} (h : toNode filter = .ok node) :
    node.isTruthy = filter.isTruthy := by
  unfold toNode at h
  split at h
  · rename_i hfilter
    obtain rfl := Except.ok.inj h
    simpa [Value.isTruthy] using hfilter
  · rename_i hfilter
    have hfilter : filter.isTruthy = true := by simpa using hfilter
    split at h
    · split at h
      · obtain rfl := Except.ok.inj h
        rfl
      · simp only [bind_eq_ok, pure_eq_ok] at h
        obtain ⟨nodes, hnodes, rfl⟩ := h
        rw [isTruthy_allOf (isTruthy_entryNodes _ _ hnodes), hfilter]
    · contradiction

end Filter

/-! ## Trees -/

namespace Filter.Tree

variable {α : Type}

mutual

/-- Whether every group has a part. -/
def IsFull : Tree α → Prop
  | .leaf _ => True
  | .all ts | .any ts => ts ≠ [] ∧ AreFull ts
  | .negation t => t.IsFull

def AreFull : List (Tree α) → Prop
  | [] => True
  | t :: ts => t.IsFull ∧ AreFull ts

end

/-- The tree of the conditions below a connective. -/
def ofGroup (c : Connective) (ts : List (Tree α)) : Tree α :=
  match c with
  | .and => .all ts
  | .or => .any ts
  | .not => .negation (.all ts)

@[simp] theorem leaves_ofGroup (c : Connective) (ts : List (Tree α)) :
    (ofGroup c ts).leaves = leavesOf ts := by
  cases c <;> rfl

theorem isFull_ofGroup (c : Connective) {ts : List (Tree α)} (h : ts ≠ [] ∧ AreFull ts) :
    (ofGroup c ts).IsFull := by
  cases c <;> exact h

/-- Whether what is read below a connective are conditions, and not a single one. A negation has a
single one when it is there and there are no others. -/
structure IsGroup (es : Entries) (c : Connective) : Prop where
  word : Connective.ofName? (nodeWord es) = some c
  many : c = .not →
    (Value.get es "conditions").isTruthy = true ∨ Value.lookup "condition" es = none

theorem IsGroup.of_conditions {es : Entries} {c : Connective} {nodes : List Value}
    (word : Connective.ofName? (nodeWord es) = some c)
    (conditions : Value.lookup "conditions" es = some (.list nodes)) (filled : nodes ≠ []) :
    IsGroup es c := by
  obtain ⟨node, rest, rfl⟩ := List.exists_cons_of_ne_nil filled
  refine ⟨word, fun _ => .inl ?_⟩
  rw [Value.get, conditions]
  rfl

section Equations

variable {leaf : Leaf → Except Error α} {path : Path} {es : Entries}

theorem leafOf_eq_ok_iff {l : Leaf} : leafOf path es = .ok l ↔
    (Value.get es "op").isWritable = true ∧ Value.get es "attr" = .text l.field ∧ l.field ≠ "" ∧
      Operator.ofName? (nodeWord es) = some l.operator ∧ Value.get es "val" = l.operand := by
  obtain ⟨operator, field, operand⟩ := l
  unfold leafOf leafOf.unnamed
  cases (Value.get es "op").isWritable with
  | false => simp
  | true =>
    cases Value.get es "attr" with
    | text s =>
      cases Operator.ofName? (nodeWord es) with
      | none => simp
      | some op =>
        simp only [Bool.not_true, Bool.false_eq_true, if_false, ite_error_eq_ok,
          String.isEmpty_iff, Except.ok.injEq, Leaf.mk.injEq, Value.text.injEq, Option.some.injEq,
          true_and]
        constructor
        · rintro ⟨filled, rfl, rfl, rfl⟩
          exact ⟨rfl, filled, rfl, rfl⟩
        · rintro ⟨rfl, filled, rfl, rfl⟩
          exact ⟨filled, rfl, rfl, rfl⟩
    | _ => simp

/-- Whether entries name no attribute. -/
def IsNameless (es : Entries) : Prop := ∀ s, Value.get es "attr" = .text s → s = ""

/-- Why the entries of a node give no condition. -/
inductive LeafFault (path : Path) (es : Entries) : Error → Prop
  | unwritable (op : (Value.get es "op").isWritable = false) :
    LeafFault path es (.fault .unreadableNumber)
  | untold (nameless : IsNameless es) (node : (Value.map es).isWritable = false) :
    LeafFault path es (.fault .unreadableNumber)
  | nameless (nameless : IsNameless es) :
    LeafFault path es (.invalid (.noAttribute (.map es)) (some path))
  | unknown : LeafFault path es (.unknownOperator (.text (nodeWord es)) operatorNames)

theorem leafFault_of_unnamed {e : Error} (nameless : IsNameless es)
    (h : leafOf.unnamed path es = .error e) : LeafFault path es e := by
  rcases Error.telling_eq_iff.mp (Except.error.inj h) with ⟨-, rfl⟩ | ⟨node, rfl⟩
  · exact .nameless nameless
  · exact .untold nameless node

theorem leafFault_of_leafOf {e : Error} (h : leafOf path es = .error e) : LeafFault path es e := by
  unfold leafOf at h
  split at h
  · rename_i hop
    obtain rfl := Except.error.inj h
    exact .unwritable (by simpa using hop)
  · split at h
    · rename_i field hfield
      split at h
      · rename_i hempty
        refine leafFault_of_unnamed (fun s hs => ?_) h
        obtain rfl := Value.text.inj (hfield.symm.trans hs)
        exact String.isEmpty_iff.mp hempty
      · split at h
        · cases h
        · obtain rfl := Except.error.inj h
          exact .unknown
    · rename_i hfield
      exact leafFault_of_unnamed (fun s hs => absurd hs (hfield s)) h

theorem read_leaf (word : Connective.ofName? (nodeWord es) = none) :
    read leaf path (.map es) = (leafOf path es >>= leaf).map .leaf := by
  rw [read, word]
  cases leafOf path es with
  | error e => rfl
  | ok l => cases leaf l <;> rfl

theorem read_conditions {c : Connective} (h : IsGroup es c) :
    read leaf path (.map es) = (readConditions leaf path es).map (ofGroup c) := by
  rw [read]
  cases c with
  | and | or =>
    simp only [h.word]
    rfl
  | not =>
    simp only [h.word]
    split
    · rename_i found
      apply if_pos
      rcases h.many rfl with many | none
      · exact many
      · cases found.symm.trans none
    · rfl

theorem read_negation {node : Value} (word : Connective.ofName? (nodeWord es) = some .not)
    (condition : Value.lookup "condition" es = some node)
    (alone : (Value.get es "conditions").isTruthy = false) :
    read leaf path (.map es) = (read leaf (path.key "condition") node).map .negation := by
  rw [read]
  simp only [word]
  split
  · rename_i found
    obtain rfl := Option.some.inj (condition.symm.trans found)
    rw [if_neg (by simp [alone])]
  · rename_i missing
    cases condition.symm.trans missing

theorem read_other {v : Value} (other : v.isMap = false) :
    read leaf path v = .error (.invalid (.notNode v.kindName) (some path)) := by
  rw [read]
  rintro es rfl
  cases other

theorem readConditions_cons {node : Value} {nodes : List Value}
    (conditions : Value.lookup "conditions" es = some (.list (node :: nodes))) :
    readConditions leaf path es = readFrom leaf path 0 (node :: nodes) := by
  rw [readConditions]
  split
  · rename_i found
    obtain ⟨rfl, rfl⟩ := List.cons.inj (Value.list.inj (Option.some.inj (conditions.symm.trans found)))
    rfl
  · rename_i missing
    exact (missing node nodes conditions).elim

theorem readConditions_missing
    (missing : ∀ v vs, Value.lookup "conditions" es ≠ some (.list (v :: vs))) :
    readConditions leaf path es =
      .error (.invalid (.noConditions (Value.get es "op")) (some path)) := by
  rw [readConditions]
  split
  · rename_i found
    exact (missing _ _ found).elim
  · rfl

/-- Below any connective the conditions are read in order. -/
theorem read_group {c : Connective} {nodes : List Value}
    (word : Connective.ofName? (nodeWord es) = some c)
    (conditions : Value.lookup "conditions" es = some (.list nodes)) (filled : nodes ≠ []) :
    read leaf path (.map es) = (readFrom leaf path 0 nodes).map (ofGroup c) := by
  rw [read_conditions (.of_conditions word conditions filled)]
  obtain ⟨node, rest, rfl⟩ := List.exists_cons_of_ne_nil filled
  rw [readConditions_cons conditions]

end Equations

/-- Induction on the reading of a node, with one case for the groups of all connectives. -/
theorem read_induct {Node : Path → Value → Prop} {Below : Path → Entries → Prop}
    {From : Path → Nat → List Value → Prop}
    (group : ∀ path es c, IsGroup es c → Below path es → Node path (.map es))
    (negation : ∀ path es node, Connective.ofName? (nodeWord es) = some .not →
      Value.lookup "condition" es = some node → (Value.get es "conditions").isTruthy = false →
      Node (path.key "condition") node → Node path (.map es))
    (leaf : ∀ path es, Connective.ofName? (nodeWord es) = none → Node path (.map es))
    (other : ∀ path v, v.isMap = false → Node path v)
    (conditions : ∀ path es v vs, Value.lookup "conditions" es = some (.list (v :: vs)) →
      From path 0 (v :: vs) → Below path es)
    (missing : ∀ path es, (∀ v vs, Value.lookup "conditions" es ≠ some (.list (v :: vs))) →
      Below path es)
    (nil : ∀ path i, From path i [])
    (cons : ∀ path i v vs, Node ((path.key "conditions").index i) v → From path (i + 1) vs →
      From path i (v :: vs)) :
    (∀ path node, Node path node) ∧ (∀ path es, Below path es) ∧
      ∀ path i nodes, From path i nodes := by
  refine Tree.read.mutual_induct Node Below From ?and ?or ?notAll ?notOne ?notNone leaf ?notMapping
    conditions missing nil cons
  case and | or =>
    intro path es word below
    exact group path es _ ⟨word, nofun⟩ below
  case notAll =>
    intro path es word _ _ many below
    exact group path es .not ⟨word, fun _ => .inl many⟩ below
  case notOne =>
    intro path es word v condition alone below
    exact negation path es v word condition (Bool.eq_false_iff.mpr alone) below
  case notNone =>
    intro path es word none below
    exact group path es .not ⟨word, fun _ => .inr none⟩ below
  case notMapping =>
    intro path v hv
    exact other path v (v.map_or_other.resolve_left fun ⟨es, h⟩ => hv es h)

/-- What is read has a part in every group, and its leaves are made, in order, of those that the
node has by itself. -/
theorem read_facts (leaf : Leaf → Except Error α) :
    (∀ path node t, read leaf path node = .ok t → t.IsFull ∧
      ∃ t₀, read .ok path node = .ok t₀ ∧ t₀.leaves.mapM leaf = .ok t.leaves) ∧
    (∀ path es ts, readConditions leaf path es = .ok ts → (ts ≠ [] ∧ AreFull ts) ∧
      ∃ ts₀, readConditions .ok path es = .ok ts₀ ∧ (leavesOf ts₀).mapM leaf = .ok (leavesOf ts)) ∧
    ∀ path i nodes ts, readFrom leaf path i nodes = .ok ts →
      ((nodes ≠ [] → ts ≠ []) ∧ AreFull ts) ∧ ∃ ts₀, readFrom .ok path i nodes = .ok ts₀ ∧
        (leavesOf ts₀).mapM leaf = .ok (leavesOf ts) := by
  refine read_induct ?group ?negation ?leaf ?other ?conditions ?missing ?nil ?cons
  case group =>
    intro path es c hgroup ih t h
    rw [read_conditions hgroup, map_eq_ok] at h
    obtain ⟨ts, hts, rfl⟩ := h
    obtain ⟨hfull, ts₀, hts₀, hleaves⟩ := ih ts hts
    refine ⟨isFull_ofGroup c hfull, ofGroup c ts₀, ?_, ?_⟩
    · rw [read_conditions hgroup, hts₀]
      rfl
    · rw [leaves_ofGroup, leaves_ofGroup, hleaves]
  case negation =>
    intro path es v word condition alone ih t h
    rw [read_negation word condition alone, map_eq_ok] at h
    obtain ⟨t, ht, rfl⟩ := h
    obtain ⟨hfull, t₀, ht₀, hleaves⟩ := ih t ht
    refine ⟨hfull, .negation t₀, ?_, hleaves⟩
    rw [read_negation word condition alone, ht₀]
    rfl
  case leaf =>
    intro path es word t h
    rw [read_leaf word, map_eq_ok] at h
    obtain ⟨a, ha, rfl⟩ := h
    obtain ⟨l, hl, ha⟩ := bind_eq_ok.mp ha
    refine ⟨trivial, .leaf l, ?_, ?_⟩
    · rw [read_leaf word, hl]
      rfl
    · rw [leaves, List.mapM_cons, ha]
      rfl
  case other =>
    intro path v hv t h
    cases (read_other hv).symm.trans h
  case conditions =>
    intro path es v vs conditions ih ts h
    rw [readConditions_cons conditions] at h
    obtain ⟨⟨hne, hfull⟩, ts₀, hts₀, hleaves⟩ := ih ts h
    refine ⟨⟨hne (List.cons_ne_nil _ _), hfull⟩, ts₀, ?_, hleaves⟩
    rw [readConditions_cons conditions, hts₀]
  case missing =>
    intro path es missing ts h
    cases (readConditions_missing missing).symm.trans h
  case nil =>
    intro path i ts h
    rw [readFrom] at h
    obtain rfl := Except.ok.inj h
    exact ⟨⟨fun h => absurd rfl h, trivial⟩, [], by rw [readFrom], rfl⟩
  case cons =>
    intro path i v vs ihv ihvs ts h
    rw [readFrom] at h
    simp only [bind_eq_ok, pure_eq_ok] at h
    obtain ⟨t, ht, ts, hts, rfl⟩ := h
    obtain ⟨hfull, t₀, ht₀, hleaves⟩ := ihv t ht
    obtain ⟨⟨-, hfulls⟩, ts₀, hts₀, hrest⟩ := ihvs ts hts
    refine ⟨⟨fun _ => List.cons_ne_nil _ _, hfull, hfulls⟩, t₀ :: ts₀, ?_, ?_⟩
    · rw [readFrom, ht₀, hts₀]
      rfl
    · rw [leavesOf, leavesOf, List.mapM_append, hleaves, hrest]
      rfl

theorem isFull_read {leaf : Leaf → Except Error α} {path : Path} {node : Value} {t : Tree α}
    (h : read leaf path node = .ok t) : t.IsFull :=
  ((read_facts leaf).1 path node t h).1

theorem exists_read_leaves {leaf : Leaf → Except Error α} {path : Path} {node : Value}
    {t : Tree α} (h : read leaf path node = .ok t) :
    ∃ t₀, read .ok path node = .ok t₀ ∧ t₀.leaves.mapM leaf = .ok t.leaves :=
  ((read_facts leaf).1 path node t h).2

theorem exists_of_mem_leaves {leaf : Leaf → Except Error α} {path : Path} {node : Value}
    {t : Tree α} (h : read leaf path node = .ok t) {a : α} (ha : a ∈ t.leaves) :
    ∃ l, leaf l = .ok a := by
  obtain ⟨t₀, -, hleaves⟩ := exists_read_leaves h
  obtain ⟨l, -, hl⟩ := exists_of_mem_mapM hleaves a ha
  exact ⟨l, hl⟩

end Filter.Tree

/-! ## Predicates -/

namespace Predicate

mutual

def IsFull : Predicate → Prop
  | .condition _ => True
  | .all ps | .any ps => ps ≠ [] ∧ AreFull ps
  | .negation p => p.IsFull

def AreFull : List Predicate → Prop
  | [] => True
  | p :: ps => p.IsFull ∧ AreFull ps

end

theorem areFull_append {ps qs : List Predicate} (hp : AreFull ps) (hq : AreFull qs) :
    AreFull (ps ++ qs) := by
  induction ps with
  | nil => exact hq
  | cons p ps ih => exact ⟨hp.1, ih hp.2⟩

/-- The parts of full groups make full groups. -/
theorem areFull_flatMap {f : Predicate → List Predicate}
    (hf : ∀ p : Predicate, p.IsFull → f p ≠ [] ∧ AreFull (f p)) {ps : List Predicate}
    (h : ps ≠ [] ∧ AreFull ps) : ps.flatMap f ≠ [] ∧ AreFull (ps.flatMap f) := by
  obtain ⟨hne, hfull⟩ := h
  have hall : AreFull (ps.flatMap f) := by
    clear hne
    induction ps with
    | nil => trivial
    | cons p ps ih => exact areFull_append (hf p hfull.1).2 (ih hfull.2)
  cases ps with
  | nil => contradiction
  | cons p ps =>
    refine ⟨fun h => ?_, hall⟩
    exact (hf p hfull.1).1 (List.append_eq_nil_iff.mp h).1

theorem isFull_conjunction {ps : List Predicate} (h : ps ≠ [] ∧ AreFull ps) :
    (conjunction ps).IsFull := by
  have hconjuncts (p : Predicate) (hp : p.IsFull) : p.conjuncts ≠ [] ∧ AreFull p.conjuncts := by
    cases p with
    | all ps => exact hp
    | condition _ | any _ | negation _ => exact ⟨List.cons_ne_nil _ _, hp, trivial⟩
  unfold conjunction
  split
  · exact h.2.1
  · exact areFull_flatMap hconjuncts h

theorem isFull_disjunction {ps : List Predicate} (h : ps ≠ [] ∧ AreFull ps) :
    (disjunction ps).IsFull := by
  have hdisjuncts (p : Predicate) (hp : p.IsFull) : p.disjuncts ≠ [] ∧ AreFull p.disjuncts := by
    cases p with
    | any ps => exact hp
    | condition _ | all _ | negation _ => exact ⟨List.cons_ne_nil _ _, hp, trivial⟩
  unfold disjunction
  split
  · exact h.2.1
  · exact areFull_flatMap hdisjuncts h

theorem isFull_negate {p : Predicate} (h : p.IsFull) : p.negate.IsFull := by
  cases p <;> exact h

mutual

theorem isFull_ofTree : ∀ t : Filter.Tree Condition, t.IsFull → (ofTree t).IsFull
  | .leaf c, _ => trivial
  | .all ts, h => by
    rw [ofTree]
    exact isFull_conjunction (areFull_ofTrees ts h)
  | .any ts, h => by
    rw [ofTree]
    exact isFull_disjunction (areFull_ofTrees ts h)
  | .negation t, h => by
    rw [ofTree]
    exact isFull_negate (isFull_ofTree t h)

theorem areFull_ofTrees : ∀ ts : List (Filter.Tree Condition), ts ≠ [] ∧ Filter.Tree.AreFull ts →
    ofTrees ts ≠ [] ∧ AreFull (ofTrees ts)
  | [], h => absurd rfl h.1
  | t :: ts, h => by
    refine ⟨List.cons_ne_nil _ _, isFull_ofTree t h.2.1, ?_⟩
    cases ts with
    | nil => trivial
    | cons u ts => exact (areFull_ofTrees (u :: ts) ⟨List.cons_ne_nil _ _, h.2.2⟩).2

end

end Predicate

end SqlFragment
