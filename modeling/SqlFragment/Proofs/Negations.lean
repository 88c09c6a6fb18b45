import SqlFragment.Proofs.Blocks
import SqlFragment.Proofs.Conjunctions
import SqlFragment.Proofs.Permitted

/-!
Negations of conditions. A condition that is negated is compiled as the condition of the opposite
operator, and one that is negated twice as itself, wherever in a filter it stands. For what is
compiled depends on the nodes of a filter only through their predicates.
-/
namespace SqlFragment

/-! ## Opposite operators -/

/-- The operator that asks for the contrary. -/
def Operator.opposite? : Operator → Option Operator
  | .eq => some .ne
  | .ne => some .eq
  | .lt => some .ge
  | .ge => some .lt
  | .gt => some .le
  | .le => some .gt
  | .isIn => some .notIn
  | .notIn => some .isIn
  | .between => some .notBetween
  | .notBetween => some .between
  | .like => some .notLike
  | .notLike => some .like
  | .isNull => some .isNotNull
  | .isNotNull => some .isNull
  | .ilike | .contains | .icontains | .startsWith | .istartsWith | .endsWith | .iendsWith => none

namespace Strategy

variable {op op' : Operator} {v : Value} {t : Test}

theorem bounds_eq_ok {b : Value × Value} : bounds op v = .ok b ↔ bounds op' v = .ok b := by
  unfold bounds
  split
  all_goals
    dsimp only
    split
    · rfl
    · simp

/-- Opposite operators have tests that are negations of each other, for every operand that has one. -/
theorem usualTest_opposite (h : op.opposite? = some op') :
    usualTest op' v = .ok t ↔ ∃ s, usualTest op v = .ok s ∧ s.negate = t := by
  have hmap {α : Type} {x y : Except Error α} {f g : α → Test} (hxy : ∀ a, y = .ok a ↔ x = .ok a)
      (hfg : ∀ a, (f a).negate = g a) :
      y.map g = .ok t ↔ ∃ s, x.map f = .ok s ∧ s.negate = t := by
    simp only [map_eq_ok, hxy, ← hfg]
    constructor
    · rintro ⟨a, ha, rfl⟩
      exact ⟨_, ⟨a, ha, rfl⟩, rfl⟩
    · rintro ⟨_, ⟨a, ha, rfl⟩, rfl⟩
      exact ⟨a, ha, rfl⟩
  cases op with
  | between | notBetween =>
    cases h
    exact hmap (fun b => bounds_eq_ok) fun b => rfl
  | like | notLike =>
    cases h
    exact hmap (fun s => Iff.rfl) fun s => rfl
  | eq | ne =>
    cases h
    cases hv : v.isNull <;> simp [usualTest, hv, Test.negate, Comparison.negate]
  | lt | ge | gt | le | isIn | notIn | isNull | isNotNull =>
    cases h
    simp [usualTest, Test.negate, Comparison.negate]
  | ilike | contains | icontains | startsWith | istartsWith | endsWith | iendsWith => cases h

end Strategy

/-! ## Nodes in the place of others -/

/-- The predicates of a group, or what is negated with it. -/
def Predicate.group : Connective → List Predicate → Predicate
  | .and, ps => conjunction ps
  | .or, ps => disjunction ps
  | .not, ps => negate (conjunction ps)

theorem Predicate.ofTree_ofGroup (c : Connective) (ts : List (Filter.Tree Condition)) :
    ofTree (.ofGroup c ts) = group c (ofTrees ts) := by
  cases c <;> rfl

namespace Filter

/-- Whether a node negates another: alone under `condition`, or as the only one of `conditions`. -/
inductive Negates (node : Value) : Value → Prop
  | one {es : Entries} (word : Connective.ofName? (nodeWord es) = some .not)
      (condition : Value.lookup "condition" es = some node)
      (alone : (Value.get es "conditions").isTruthy = false) : Negates node (.map es)
  | only {es : Entries} (word : Connective.ofName? (nodeWord es) = some .not)
      (conditions : Value.lookup "conditions" es = some (.list [node])) : Negates node (.map es)

/-- Whether entries have the same values at all keys but one. -/
def AgreeBut (key : String) (es fs : Entries) : Prop :=
  ∀ other, other ≠ key → Value.lookup other es = Value.lookup other fs

/-- Whether one node becomes another by putting `b` in the place of `a`, at some depth. -/
inductive Replaces (a b : Value) : Value → Value → Prop
  | self : Replaces a b a b
  | among {es fs : Entries} {c : Connective} {x y : Value} {before after : List Value}
      (word : Connective.ofName? (nodeWord es) = some c) (agree : AgreeBut "conditions" es fs)
      (old : Value.lookup "conditions" es = some (.list (before ++ x :: after)))
      (new : Value.lookup "conditions" fs = some (.list (before ++ y :: after)))
      (part : Replaces a b x y) : Replaces a b (.map es) (.map fs)
  | alone {es fs : Entries} {x y : Value}
      (word : Connective.ofName? (nodeWord es) = some .not) (agree : AgreeBut "condition" es fs)
      (single : (Value.get es "conditions").isTruthy = false)
      (old : Value.lookup "condition" es = some x) (new : Value.lookup "condition" fs = some y)
      (part : Replaces a b x y) : Replaces a b (.map es) (.map fs)

theorem AgreeBut.nodeWord_eq {key : String} {es fs : Entries} (h : AgreeBut key es fs)
    (hkey : "op" ≠ key) : nodeWord es = nodeWord fs := by
  rw [nodeWord, nodeWord, h "op" hkey]

section Predicates

variable (leaf : Leaf → Except Error Condition)

/-- The predicate of a node at a place. -/
def predicateAt (path : Path) (node : Value) : Except Error Predicate :=
  (Tree.read leaf path node).map .ofTree

/-- The predicates of nodes, the first of them at position `i`. -/
def predicatesFrom (path : Path) (i : Nat) (nodes : List Value) : Except Error (List Predicate) :=
  (Tree.readFrom leaf path i nodes).map Predicate.ofTrees

/-- Whether two nodes have the same predicate, or both have none, at every place. -/
def SameMeaning (a b : Value) : Prop :=
  ∀ path p, predicateAt leaf path a = .ok p ↔ predicateAt leaf path b = .ok p

variable {leaf} {path : Path} {es : Entries} {node : Value} {nodes : List Value} {p : Predicate}

theorem predicatesFrom_cons {i : Nat} {ps : List Predicate} :
    predicatesFrom leaf path i (node :: nodes) = .ok ps ↔
      ∃ q, predicateAt leaf ((path.key "conditions").index i) node = .ok q ∧
        ∃ qs, predicatesFrom leaf path (i + 1) nodes = .ok qs ∧ q :: qs = ps := by
  unfold predicatesFrom predicateAt
  rw [Tree.readFrom]
  simp only [map_eq_ok, bind_eq_ok, pure_eq_ok]
  constructor
  · rintro ⟨_, ⟨t, ht, ts, hts, rfl⟩, rfl⟩
    exact ⟨_, ⟨t, ht, rfl⟩, _, ⟨ts, hts, rfl⟩, rfl⟩
  · rintro ⟨_, ⟨t, ht, rfl⟩, _, ⟨ts, hts, rfl⟩, rfl⟩
    exact ⟨_, ⟨t, ht, ts, hts, rfl⟩, rfl⟩

theorem predicateAt_group {c : Connective} (word : Connective.ofName? (nodeWord es) = some c)
    (conditions : Value.lookup "conditions" es = some (.list nodes)) (filled : nodes ≠ []) :
    predicateAt leaf path (.map es) =
      (predicatesFrom leaf path 0 nodes).map (Predicate.group c) := by
  unfold predicateAt predicatesFrom
  rw [Tree.read_group word conditions filled]
  cases Tree.readFrom leaf path 0 nodes with
  | error e => rfl
  | ok ts => exact congrArg Except.ok (Predicate.ofTree_ofGroup c ts)

theorem predicateAt_below (word : Connective.ofName? (nodeWord es) = some .not)
    (condition : Value.lookup "condition" es = some node)
    (alone : (Value.get es "conditions").isTruthy = false) :
    predicateAt leaf path (.map es) =
      (predicateAt leaf (path.key "condition") node).map Predicate.negate := by
  unfold predicateAt
  rw [Tree.read_negation word condition alone]
  cases Tree.read leaf (path.key "condition") node <;> rfl

/-- In either form a negation has the negated predicate of its node. -/
theorem Negates.exists_predicateAt {n : Value} (h : Negates node n) :
    ∃ place, predicateAt leaf path n = (predicateAt leaf place node).map Predicate.negate := by
  cases h with
  | one word condition alone => exact ⟨_, predicateAt_below word condition alone⟩
  | only word conditions =>
    refine ⟨(path.key "conditions").index 0, ?_⟩
    rw [predicateAt_group word conditions (List.cons_ne_nil _ _), predicatesFrom, Tree.readFrom,
      Tree.readFrom, predicateAt]
    cases Tree.read leaf ((path.key "conditions").index 0) node <;> rfl

variable {a b x y : Value}

theorem SameMeaning.among (h : SameMeaning leaf x y) {before after : List Value} {i : Nat}
    {ps : List Predicate} : predicatesFrom leaf path i (before ++ x :: after) = .ok ps ↔
      predicatesFrom leaf path i (before ++ y :: after) = .ok ps := by
  induction before generalizing i ps with
  | nil =>
    rw [List.nil_append, List.nil_append, predicatesFrom_cons, predicatesFrom_cons]
    simp only [h _ _]
  | cons v before ih =>
    rw [List.cons_append, List.cons_append, predicatesFrom_cons, predicatesFrom_cons]
    simp only [ih]

/-- Nodes with the same predicate may take each other's place at any depth. -/
theorem Replaces.sameMeaning (h : SameMeaning leaf a b) (replaces : Replaces a b x y) :
    SameMeaning leaf x y := by
  induction replaces with
  | self => exact h
  | among word agree old new _ ih =>
    intro path p
    have word' := (agree.nodeWord_eq (by decide)) ▸ word
    rw [predicateAt_group word old (by simp), predicateAt_group word' new (by simp), map_eq_ok,
      map_eq_ok]
    simp only [ih.among]
  | alone word agree single old new _ ih =>
    intro path p
    have word' := (agree.nodeWord_eq (by decide)) ▸ word
    have single' := single
    rw [Value.get, agree "conditions" (by decide), ← Value.get] at single'
    rw [predicateAt_below word old single, predicateAt_below word' new single', map_eq_ok, map_eq_ok]
    simp only [ih _ _]

/-! ### Leaves -/

/-- Whether the entries of a node give a condition. -/
structure IsLeaf (es : Entries) (l : Leaf) : Prop where
  word : nodeWord es = l.operator.name
  attr : Value.get es "attr" = .text l.field
  val : Value.get es "val" = l.operand

/-- The entries of a leaf give its condition, unless that has no attribute. -/
theorem IsLeaf.leafOf_eq_ok {l l' : Leaf} (h : IsLeaf es l) :
    leafOf path es = .ok l' ↔ l.field ≠ "" ∧ l = l' := by
  have hnames : ∀ op ∈ Operator.all, op.name ∈ operatorNames := by decide
  have hop : (Value.get es "op").isWritable = true :=
    isWritable_of_word (h.word ▸ hnames _ (Operator.mem_all _))
  obtain ⟨op, field, operand⟩ := l
  obtain ⟨op', field', operand'⟩ := l'
  rw [Tree.leafOf_eq_ok_iff, h.attr, h.val, h.word, Operator.ofName?_name]
  simp only [hop, Value.text.injEq, Option.some.injEq, Leaf.mk.injEq, true_and]
  constructor
  · rintro ⟨rfl, filled, rfl, rfl⟩
    exact ⟨filled, rfl, rfl, rfl⟩
  · rintro ⟨filled, rfl, rfl, rfl⟩
    exact ⟨rfl, filled, rfl, rfl⟩

theorem IsLeaf.notConnective {l : Leaf} (h : IsLeaf es l) :
    Connective.ofName? (nodeWord es) = none := by
  have hnone : ∀ op ∈ Operator.all, Connective.ofName? op.name = none := by decide
  rw [h.word]
  exact hnone _ (Operator.mem_all _)

theorem IsLeaf.predicateAt_eq {l : Leaf} (h : IsLeaf es l) (filled : l.field ≠ "") :
    predicateAt leaf path (.map es) = (leaf l).map .condition := by
  rw [predicateAt, Tree.read_leaf h.notConnective, h.leafOf_eq_ok.mpr ⟨filled, rfl⟩, ok_bind]
  cases leaf l <;> rfl

theorem IsLeaf.predicateAt_eq_ok {l : Leaf} (h : IsLeaf es l) :
    predicateAt leaf path (.map es) = .ok p ↔
      l.field ≠ "" ∧ ∃ x, leaf l = .ok x ∧ .condition x = p := by
  constructor
  · intro hp
    rw [predicateAt, Tree.read_leaf h.notConnective] at hp
    simp only [map_eq_ok, bind_eq_ok, h.leafOf_eq_ok] at hp
    obtain ⟨_, ⟨x, ⟨_, ⟨filled, rfl⟩, hx⟩, rfl⟩, rfl⟩ := hp
    exact ⟨filled, x, hx, rfl⟩
  · rintro ⟨filled, hx⟩
    rw [h.predicateAt_eq filled]
    exact map_eq_ok.mpr hx

end Predicates

/-- Whether a filter is a node as it stands. -/
def HasOp (filter : Value) : Prop := ∃ es, filter = .map es ∧ Value.lookup "op" es ≠ none

theorem hasOp_of_nodeWord {es : Entries} (h : nodeWord es ≠ "") : HasOp (.map es) := by
  refine ⟨es, rfl, fun hnone => h ?_⟩
  rw [nodeWord, hnone]
  rfl

theorem hasOp_of_word {es : Entries} {c : Connective}
    (word : Connective.ofName? (nodeWord es) = some c) : HasOp (.map es) := by
  apply hasOp_of_nodeWord
  intro hempty
  rw [hempty] at word
  exact absurd word (by decide +revert)

theorem isLeaf_leafNode (op : Operator) (field : String) (operand : Value) :
    IsLeaf [(.text "op", .text op.name), (.text "attr", .text field), (.text "val", operand)]
      ⟨op, field, operand⟩ := by
  have hlow : ∀ op ∈ Operator.all, op.name.toList.all Text.isLow = true := by decide
  refine ⟨?_, rfl, rfl⟩
  exact Text.lower_eq_self (hlow op (Operator.mem_all op))

theorem IsLeaf.hasOp {es : Entries} {l : Leaf} (h : IsLeaf es l) : HasOp (.map es) := by
  have hname : ∀ op ∈ Operator.all, op.name ≠ "" := by decide
  apply hasOp_of_nodeWord
  rw [h.word]
  exact hname _ (Operator.mem_all _)

theorem Negates.hasOp {node n : Value} (h : Negates node n) : HasOp n := by
  cases h with
  | one word | only word => exact hasOp_of_word word

theorem Replaces.hasOp {a b x y : Value} (h : Replaces a b x y) (ha : HasOp a) (hb : HasOp b) :
    HasOp x ∧ HasOp y := by
  cases h with
  | self => exact ⟨ha, hb⟩
  | among word agree | alone word agree =>
    exact ⟨hasOp_of_word word, hasOp_of_word ((agree.nodeWord_eq (by decide)) ▸ word)⟩

end Filter

/-! ## Negated conditions -/

namespace ClauseCompiler

open SqlFragment.Filter

variable {c : ClauseCompiler}

/-- A filter is compiled through its predicate. -/
theorem compile_congr {x y : Value} (h : ∀ p?, c.predicate x = .ok p? ↔ c.predicate y = .ok p?)
    (k : Criteria) (w : Written) :
    c.compile { k with filter := x } = .ok w ↔ c.compile { k with filter := y } = .ok w := by
  simp only [compile, clauses, bind_eq_ok, h]

theorem predicate_of_hasOp {filter : Value} (h : HasOp filter) :
    c.predicate filter = (predicateAt c.condition (.root "where") filter).map some := by
  obtain ⟨es, rfl, hop⟩ := h
  have filled : es ≠ [] := by
    rintro rfl
    exact hop rfl
  rw [predicate_eq_read (by simpa [Value.isTruthy] using filled) (toNode_of_op hop), predicateAt]
  cases Tree.read c.condition (.root "where") (.map es) <;> rfl

theorem compile_replaced {a b x y : Value} (h : SameMeaning c.condition a b) (ha : HasOp a)
    (hb : HasOp b) (replaces : Replaces a b x y) (k : Criteria) (w : Written) :
    c.compile { k with filter := x } = .ok w ↔ c.compile { k with filter := y } = .ok w := by
  obtain ⟨hx, hy⟩ := replaces.hasOp ha hb
  refine compile_congr (fun p? => ?_) k w
  rw [predicate_of_hasOp hx, predicate_of_hasOp hy, map_eq_ok, map_eq_ok]
  simp only [replaces.sameMeaning h _ _]

theorem condition_opposite (husual : c.registry = .usual) {l : Leaf} {op' : Operator}
    (opposite : l.operator.opposite? = some op') {x : Condition} :
    c.condition { l with operator := op' } = .ok x ↔
      ∃ y, c.condition l = .ok y ∧ y.negate = x := by
  unfold condition
  simp only [husual, Registry.test, Registry.get?_usual, Strategy.test, bind_eq_ok, pure_eq_ok,
    Strategy.usualTest_opposite opposite]
  constructor
  · rintro ⟨r, hr, _, ⟨s, hs, rfl⟩, rfl⟩
    exact ⟨_, ⟨r, hr, s, hs, rfl⟩, rfl⟩
  · rintro ⟨_, ⟨r, hr, s, hs, rfl⟩, rfl⟩
    exact ⟨r, hr, _, ⟨s, hs, rfl⟩, rfl⟩

variable {es fs : Entries} {l : Leaf} {n : Value}

theorem sameMeaning_opposite (husual : c.registry = .usual) {op' : Operator}
    (opposite : l.operator.opposite? = some op') (hleaf : IsLeaf es l)
    (hleaf' : IsLeaf fs { l with operator := op' }) (negates : Negates (.map es) n) :
    SameMeaning c.condition (.map fs) n := by
  intro path p
  obtain ⟨place, hn⟩ := @Negates.exists_predicateAt c.condition path _ _ negates
  rw [hn, map_eq_ok, hleaf'.predicateAt_eq_ok]
  simp only [hleaf.predicateAt_eq_ok, condition_opposite husual opposite]
  constructor
  · rintro ⟨hfield, _, ⟨y, hy, rfl⟩, rfl⟩
    exact ⟨_, ⟨hfield, y, hy, rfl⟩, rfl⟩
  · rintro ⟨_, ⟨hfield, y, hy, rfl⟩, rfl⟩
    exact ⟨hfield, _, ⟨y, hy, rfl⟩, rfl⟩

theorem sameMeaning_twice {m : Value} (hleaf : IsLeaf es l) (negates : Negates (.map es) n)
    (again : Negates n m) : SameMeaning c.condition (.map es) m := by
  intro path p
  obtain ⟨place, hm⟩ := @Negates.exists_predicateAt c.condition path _ _ again
  obtain ⟨place', hn⟩ := @Negates.exists_predicateAt c.condition place _ _ negates
  rw [hm, hn, map_eq_ok, hleaf.predicateAt_eq_ok]
  simp only [map_eq_ok, hleaf.predicateAt_eq_ok]
  constructor
  · rintro ⟨hfield, y, hy, rfl⟩
    exact ⟨_, ⟨_, ⟨hfield, y, hy, rfl⟩, rfl⟩, by simp [Predicate.negate]⟩
  · rintro ⟨_, ⟨_, ⟨hfield, y, hy, rfl⟩, rfl⟩, rfl⟩
    exact ⟨hfield, y, hy, by simp [Predicate.negate]⟩

/-- Anywhere in a filter a condition may be written as the negation of the opposite condition, in
either form, or as its own negation twice: the same is compiled, or nothing is. -/
theorem negations_are_opposites (husual : c.registry = .usual) (hleaf : IsLeaf es l)
    (negates : Negates (.map es) n) (k : Criteria) (w : Written) :
    (∀ {op' : Operator} {fs : Entries} {x y : Value}, l.operator.opposite? = some op' →
      IsLeaf fs { l with operator := op' } → Replaces (.map fs) n x y →
      (c.compile { k with filter := x } = .ok w ↔ c.compile { k with filter := y } = .ok w)) ∧
    ∀ {m x y : Value}, Negates n m → Replaces (.map es) m x y →
      (c.compile { k with filter := x } = .ok w ↔ c.compile { k with filter := y } = .ok w) := by
  constructor
  · intro op' fs x y opposite hleaf' replaces
    have hsame := sameMeaning_opposite husual opposite hleaf hleaf' negates
    exact compile_replaced hsame hleaf'.hasOp negates.hasOp replaces k w
  · intro m x y again replaces
    exact compile_replaced (sameMeaning_twice hleaf negates again) hleaf.hasOp again.hasOp replaces
      k w

section Sales

variable {node other : Value}

theorem replaces_group (connective : Connective) (before after : List Value) {a b : Value}
    (h : Replaces a b node other) :
    Replaces a b (groupNode connective (before ++ node :: after))
      (groupNode connective (before ++ other :: after)) := by
  refine .among (ofName?_groupNode connective _) (fun key hkey => ?_) rfl rfl h
  by_cases hop : "op" = key <;> simp [Value.lookup, hop, Ne.symm hkey]

theorem negates_group : Negates node (groupNode .not [node]) :=
  .only (ofName?_groupNode .not _) rfl

/-- The negation of a single node. -/
def notNode (node : Value) : Value := .map [(.text "op", .text "not"), (.text "condition", node)]

theorem negates_notNode : Negates node (notNode node) := by
  have hlow : "not".toList.all Text.isLow = true := by decide
  have hname : Connective.ofName? "not" = some .not := by decide
  refine .one ?_ rfl rfl
  simpa [nodeWord, Value.lookup, Value.display, Text.lower_eq_self hlow] using hname

/-- A condition on tags, of which one is null. -/
def tagNode (op : Operator) : Value :=
  leafNode op (.text "tag") (.tuple [.text "new", .null])

/-- The first sale, and those without an origin for which a condition on tags holds. -/
def firstOr (node : Value) : Value :=
  groupNode .or [leafNode .eq (.text "id") (.int 1),
    groupNode .and [node, leafNode .isNull (.text "origin") .null]]

theorem replaces_firstOr (node other : Value) : Replaces node other (firstOr node) (firstOr other) :=
  replaces_group .or [leafNode .eq (.text "id") (.int 1)] []
    (replaces_group .and [] [leafNode .isNull (.text "origin") .null] .self)

theorem compile_firstOr : ∃ w, (shopCompiler .question 1).compile
      { filter := firstOr (tagNode .notIn), limit := .int 3 } = .ok w ∧
    w.text = "(\"sales\".\"id\" = ? OR (\"sales\".\"tag\" NOT IN (?, ?)) AND " ++
      "\"sales\".\"origin\" IS NULL) LIMIT ?" := by
  have hclauses : (shopCompiler .question 1).clauses
      { filter := firstOr (tagNode .notIn), limit := .int 3 } =
        .ok (["sales"], [.word " \nWHERE ", .word "(", .name "sales", .word ".", .name "id",
          .word " = ", .marker "param" (.int 1), .word " OR ", .word "(", .name "sales", .word ".",
          .name "tag", .word " NOT IN (", .members "tag" true [.text "new", .null], .word "))",
          .word " AND ", .name "sales", .word ".", .name "origin", .word " IS NULL", .word ")",
          .word "\n LIMIT ", .marker "param" (.int 3)]) := by
    cbv
  apply exists_of_toOption
  rw [ClauseCompiler.compile, hclauses]
  decide +kernel

theorem negations_are_opposites_tags : ∃ w,
    w.text = "(\"sales\".\"id\" = ? OR (\"sales\".\"tag\" NOT IN (?, ?)) AND " ++
      "\"sales\".\"origin\" IS NULL) LIMIT ?" ∧
    (shopCompiler .question 1).compile
      { filter := firstOr (tagNode .notIn), limit := .int 3 } = .ok w ∧
    (shopCompiler .question 1).compile
      { filter := firstOr (notNode (tagNode .isIn)), limit := .int 3 } = .ok w ∧
    (shopCompiler .question 1).compile
      { filter := firstOr (groupNode .not [notNode (tagNode .notIn)]), limit := .int 3 } =
        .ok w := by
  have hin := isLeaf_leafNode .isIn "tag" (.tuple [.text "new", .null])
  have hnotIn := isLeaf_leafNode .notIn "tag" (.tuple [.text "new", .null])
  obtain ⟨w, hw, htext⟩ := compile_firstOr
  refine ⟨w, htext, hw, ?_, ?_⟩
  · obtain ⟨hopposite, -⟩ := @negations_are_opposites (shopCompiler .question 1) _ _ _ rfl hin
      negates_notNode { limit := .int 3 } w
    exact (hopposite rfl hnotIn (replaces_firstOr _ _)).mp hw
  · obtain ⟨-, htwice⟩ := @negations_are_opposites (shopCompiler .question 1) _ _ _ rfl hnotIn
      negates_notNode { limit := .int 3 } w
    exact (htwice negates_group (replaces_firstOr _ _)).mp hw

end Sales

end ClauseCompiler

end SqlFragment
