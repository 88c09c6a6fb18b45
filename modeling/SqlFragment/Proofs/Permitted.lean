import SqlFragment.Proofs.Registrations

/-!
Registries that operators were taken out of. Reading a filter stops at its first leaf that gives no
condition, and a leaf whose operator was taken out gives none; but a registry that nothing is left
of stands for the usual one.
-/
namespace SqlFragment

/-! ## Leaves of nodes -/

namespace Filter

/-- Whether a leaf stands in a node, whatever else does. -/
inductive HasLeaf : Value → Entries → Prop
  | leaf {es : Entries} (word : Connective.ofName? (nodeWord es) = none) : HasLeaf (.map es) es
  | group {es leaf : Entries} {c : Connective} {nodes : List Value} {node : Value}
      (word : Connective.ofName? (nodeWord es) = some c)
      (conditions : Value.lookup "conditions" es = some (.list nodes)) (mem : node ∈ nodes)
      (part : HasLeaf node leaf) : HasLeaf (.map es) leaf
  | negation {es leaf : Entries} {node : Value}
      (word : Connective.ofName? (nodeWord es) = some .not)
      (condition : Value.lookup "condition" es = some node)
      (alone : (Value.get es "conditions").isTruthy = false)
      (part : HasLeaf node leaf) : HasLeaf (.map es) leaf

/-- A leaf is told by its word. -/
theorem HasLeaf.word {node : Value} {leaf : Entries} (h : HasLeaf node leaf) :
    Connective.ofName? (nodeWord leaf) = none := by
  induction h with
  | leaf word => exact word
  | group _ _ _ _ ih | negation _ _ _ _ ih => exact ih

mutual

/-- All leaves of a node, depth first, each with its path; below every connective stands a list of
nodes, or one. -/
inductive HasLeaves : Path → Value → List (Path × Entries) → Prop
  | leaf {path : Path} {es : Entries} (word : Connective.ofName? (nodeWord es) = none) :
    HasLeaves path (.map es) [(path, es)]
  | group {path : Path} {es : Entries} {c : Connective} {node : Value} {nodes : List Value}
      {leaves : List (Path × Entries)} (word : Connective.ofName? (nodeWord es) = some c)
      (conditions : Value.lookup "conditions" es = some (.list (node :: nodes)))
      (parts : HaveLeaves path 0 (node :: nodes) leaves) : HasLeaves path (.map es) leaves
  | negation {path : Path} {es : Entries} {node : Value} {leaves : List (Path × Entries)}
      (word : Connective.ofName? (nodeWord es) = some .not)
      (condition : Value.lookup "condition" es = some node)
      (alone : (Value.get es "conditions").isTruthy = false)
      (part : HasLeaves (path.key "condition") node leaves) : HasLeaves path (.map es) leaves

inductive HaveLeaves : Path → Nat → List Value → List (Path × Entries) → Prop
  | nil {path : Path} {i : Nat} : HaveLeaves path i [] []
  | cons {path : Path} {i : Nat} {node : Value} {nodes : List Value}
      {leaves more : List (Path × Entries)}
      (first : HasLeaves ((path.key "conditions").index i) node leaves)
      (others : HaveLeaves path (i + 1) nodes more) :
    HaveLeaves path i (node :: nodes) (leaves ++ more)

end

namespace Tree

variable {α : Type} {leaf : Leaf → Except Error α} {path : Path} {es : Entries}

/-- What is read for a leaf. -/
def readLeaf (leaf : Leaf → Except Error α) (l : Path × Entries) : Except Error α :=
  leafOf l.1 l.2 >>= leaf

/-- Reading stops at the first node that cannot be read, wherever among others it stands. -/
theorem exists_readFrom_error {node : Value} {nodes : List Value} (mem : node ∈ nodes)
    (h : ∀ path, ∃ e, read leaf path node = .error e) (i : Nat) :
    ∃ e, readFrom leaf path i nodes = .error e := by
  induction nodes generalizing i with
  | nil => contradiction
  | cons v vs ih =>
    rw [readFrom]
    cases hv : read leaf ((path.key "conditions").index i) v with
    | error e => exact ⟨e, rfl⟩
    | ok t =>
      rcases List.mem_cons.mp mem with rfl | mem
      · obtain ⟨e, he⟩ := h ((path.key "conditions").index i)
        cases hv.symm.trans he
      · obtain ⟨e, he⟩ := ih mem (i + 1)
        exact ⟨e, by rw [he]; rfl⟩

end Tree

/-- A node is not read when it has a leaf that gives nothing. -/
theorem HasLeaf.exists_read_error {α : Type} {leaf : Leaf → Except Error α} {node : Value}
    {es : Entries} (h : HasLeaf node es) (hleaf : ∀ path, ∃ e, Tree.readLeaf leaf (path, es) = .error e)
    (path : Path) : ∃ e, Tree.read leaf path node = .error e := by
  induction h generalizing path with
  | leaf word =>
    obtain ⟨e, he⟩ := hleaf path
    exact ⟨e, (Tree.read_leaf word).trans (congrArg (Except.map Tree.leaf) he)⟩
  | @group es _ _ nodes node word conditions mem _ ih =>
    obtain ⟨e, he⟩ := @Tree.exists_readFrom_error α leaf path _ _ mem (ih hleaf) 0
    rw [Tree.read_group word conditions (List.ne_nil_of_mem mem), he]
    exact ⟨e, rfl⟩
  | negation word condition alone _ ih =>
    obtain ⟨e, he⟩ := ih hleaf (path.key "condition")
    rw [Tree.read_negation word condition alone, he]
    exact ⟨e, rfl⟩

section Reading

variable {α : Type} (leaf : Leaf → Except Error α)

mutual

/-- A node is read by reading its leaves one after the other. -/
theorem HasLeaves.map_read {path : Path} {node : Value} {leaves : List (Path × Entries)} :
    HasLeaves path node leaves →
      (Tree.read leaf path node).map Tree.leaves = leaves.mapM (Tree.readLeaf leaf)
  | .leaf word => by
    have hread : Tree.read leaf path _ = (Tree.readLeaf leaf (path, _)).map .leaf :=
      Tree.read_leaf word
    rw [hread, List.mapM_cons]
    cases Tree.readLeaf leaf (path, _) <;> rfl
  | .group word conditions parts => by
    rw [Tree.read_group word conditions (List.cons_ne_nil _ _), ← parts.map_readFrom]
    cases Tree.readFrom leaf path 0 _ with
    | error e => rfl
    | ok ts => exact congrArg Except.ok (Tree.leaves_ofGroup _ ts)
  | .negation word condition alone part => by
    rw [Tree.read_negation word condition alone, ← part.map_read]
    cases Tree.read leaf (path.key "condition") _ <;> rfl

theorem HaveLeaves.map_readFrom {path : Path} {i : Nat} {nodes : List Value}
    {leaves : List (Path × Entries)} : HaveLeaves path i nodes leaves →
      (Tree.readFrom leaf path i nodes).map Tree.leavesOf = leaves.mapM (Tree.readLeaf leaf)
  | .nil => by
    rw [Tree.readFrom]
    rfl
  | .cons first others => by
    rw [Tree.readFrom, List.mapM_append, ← first.map_read, ← others.map_readFrom]
    cases Tree.read leaf ((path.key "conditions").index i) _ with
    | error e => rfl
    | ok t => cases Tree.readFrom leaf path (i + 1) _ <;> rfl

end

end Reading

end Filter

/-! ## Registries with less operators -/

namespace Registry

theorem get?_foldl_unregister (ops : List Operator) (r : Registry) (op : Operator) :
    (ops.foldl unregister r).get? op = if op ∈ ops then none else r.get? op := by
  induction ops generalizing r with
  | nil => simp
  | cons op' ops ih =>
    rw [List.foldl_cons, ih, get?_unregister]
    by_cases hop : op = op' <;> simp [hop]

theorem get?_usual (op : Operator) : usual.get? op = some (.usual op) := by
  cases op <;> rfl

theorem get?_removed (ops : List Operator) (op : Operator) :
    (ops.foldl unregister usual).get? op = if op ∈ ops then none else some (.usual op) := by
  rw [get?_foldl_unregister, get?_usual]

theorem isEmpty_removed (ops : List Operator) :
    (ops.foldl unregister usual).entries.isEmpty ↔ ∀ op, op ∈ ops := by
  constructor
  · intro hempty op
    have hop := get?_removed ops op
    rw [get?, List.isEmpty_iff.mp hempty] at hop
    by_contra hkept
    simp [hkept] at hop
  · intro hall
    rw [List.isEmpty_iff]
    cases hentries : (ops.foldl unregister usual).entries with
    | nil => rfl
    | cons e entries =>
      have hop := get?_removed ops e.1
      rw [get?, hentries, if_pos (hall e.1)] at hop
      simp [List.lookup] at hop

/-- The operators that a filter may name, as far as an unknown one is told of them. -/
def listed (r : Registry) (word : String) : List String :=
  if (Operator.ofName? word).isSome then r.supported else operatorNames

end Registry

/-! ## Filters with an operator that is not there -/

namespace ClauseCompiler

open SqlFragment.Filter

variable {c : ClauseCompiler} {es : Entries}

/-- Whether the operator of a leaf is none of a registry. -/
def Lacks (r : Registry) (es : Entries) : Prop := ∀ op, op.name = nodeWord es → r.get? op = none

theorem exists_readLeaf_error (h : Lacks c.registry es) (path : Path) :
    ∃ e, Tree.readLeaf c.condition (path, es) = .error e := by
  cases hread : Tree.readLeaf c.condition (path, es) with
  | error e => exact ⟨e, rfl⟩
  | ok a =>
    rw [Tree.readLeaf, bind_eq_ok] at hread
    obtain ⟨l, hl, ha⟩ := hread
    obtain ⟨-, -, -, hoperator, -⟩ := Tree.leafOf_eq_ok_iff.mp hl
    simp only [condition, bind_eq_ok] at ha
    obtain ⟨column, -, test, htest, -⟩ := ha
    rw [Registry.test, h _ (Operator.name_of_ofName? hoperator)] at htest
    cases htest

theorem readLeaf_eq_error {field : String} {column : Column} (attr : Value.get es "attr" = .text field)
    (hfield : field ≠ "") (hcolumn : c.catalog.resolve c.table field = .ok column)
    (h : Lacks c.registry es) (path : Path) :
    Tree.readLeaf c.condition (path, es) = .error (.telling (Value.get es "op")
      (.unknownOperator (.text (nodeWord es)) (c.registry.listed (nodeWord es)))) := by
  unfold Tree.readLeaf leafOf Registry.listed Error.telling
  cases (Value.get es "op").isWritable with
  | false => rfl
  | true =>
    cases hop : Operator.ofName? (nodeWord es) with
    | none => simp [attr, hfield]
    | some op =>
      have hname := Operator.name_of_ofName? hop
      simp [attr, hfield, condition, hcolumn, Registry.test, h op hname, hname]

theorem predicate_eq_read {filter node : Value} (hfilter : filter.isTruthy = true)
    (hnode : toNode filter = .ok node) :
    c.predicate filter =
      (Tree.read c.condition (.root "where") node).map fun t => some (.ofTree t) := by
  have htruthy : node.isTruthy = true := (isTruthy_toNode hnode).trans hfilter
  rw [predicate, hnode, ok_bind, htruthy]
  cases Tree.read c.condition (.root "where") node <;> rfl

theorem compile_eq_error {k : Criteria} {e : Error} (h : c.predicate k.filter = .error e) :
    c.compile k = .error e := by
  rw [compile, clauses, h]
  rfl

section Unknown

variable {k : Criteria} {node : Value}

theorem exists_compile_error (hfilter : k.hasFilter = true) (hnode : toNode k.filter = .ok node)
    (hleaf : HasLeaf node es) (h : Lacks c.registry es) : ∃ e, c.compile k = .error e := by
  obtain ⟨e, he⟩ := hleaf.exists_read_error (exists_readLeaf_error h) (.root "where")
  refine ⟨e, compile_eq_error ?_⟩
  rw [predicate_eq_read hfilter hnode, he]
  rfl

/-- Leaves are read in order, so that the first that gives no condition is what fails. -/
theorem compile_eq_unknown {before after : List (Path × Entries)} {path : Path} {field : String}
    {column : Column} (hfilter : k.hasFilter = true) (hnode : toNode k.filter = .ok node)
    (hleaves : HasLeaves (.root "where") node (before ++ (path, es) :: after))
    (hbefore : ∀ l ∈ before, ∃ a, Tree.readLeaf c.condition l = .ok a)
    (attr : Value.get es "attr" = .text field) (hfield : field ≠ "")
    (hcolumn : c.catalog.resolve c.table field = .ok column) (h : Lacks c.registry es) :
    c.compile k = .error (.telling (Value.get es "op")
      (.unknownOperator (.text (nodeWord es)) (c.registry.listed (nodeWord es)))) := by
  have hleaf := readLeaf_eq_error attr hfield hcolumn h path
  have hread := hleaves.map_read c.condition
  rw [mapM_eq_error hleaf after hbefore] at hread
  apply compile_eq_error
  rw [predicate_eq_read hfilter hnode]
  cases htree : Tree.read c.condition (.root "where") node with
  | error e =>
    rw [htree] at hread
    exact congrArg Except.error (Except.error.inj hread)
  | ok t =>
    rw [htree] at hread
    cases hread

end Unknown

section Removed

variable {catalog : Catalog} {table : String} {d : Dialect} {style : MarkerStyle} {start : Int}
  {ops : List Operator}

/-- A registry with an operator is not replaced by the usual one. -/
theorem lacks_of_create
    (hc : create catalog table d style start (ops.foldl Registry.unregister .usual) = .ok c)
    (hkept : ∃ op, op ∉ ops) (hes : ∀ op ∉ ops, op.name ≠ nodeWord es) : Lacks c.registry es := by
  obtain ⟨kept, hkept⟩ := hkept
  have hregistry : c.registry = ops.foldl Registry.unregister .usual := by
    obtain ⟨_, -, rfl⟩ := map_eq_ok.mp hc
    apply if_neg
    intro hempty
    exact hkept ((Registry.isEmpty_removed ops).mp hempty kept)
  intro op hop
  rw [hregistry, Registry.get?_removed]
  apply if_pos
  by_contra hnot
  exact hes op hnot hop

/-- As long as an operator is left, no filter compiles that has a leaf with one that was taken out;
when the leaves before it give conditions and its own attribute is a column, the operator of the
first such leaf is what is not known, as far as it can be written. When all were taken out, the usual
operators compile. -/
theorem removed_operators_fail
    (hc : create catalog table d style start (ops.foldl Registry.unregister .usual) = .ok c) :
    ((∃ op, op ∉ ops) →
      (∀ {k : Criteria} {node : Value} {es : Entries}, k.hasFilter = true →
        toNode k.filter = .ok node → HasLeaf node es → (∀ op ∉ ops, op.name ≠ nodeWord es) →
        ∃ e, c.compile k = .error e) ∧
      ∀ {k : Criteria} {node : Value} {before after : List (Path × Entries)} {path : Path}
        {es : Entries} {field : String} {column : Column}, k.hasFilter = true →
        toNode k.filter = .ok node →
        HasLeaves (.root "where") node (before ++ (path, es) :: after) →
        (∀ l ∈ before, ∃ a, Tree.readLeaf c.condition l = .ok a) →
        Value.get es "attr" = .text field → field ≠ "" →
        catalog.resolve table field = .ok column → (∀ op ∉ ops, op.name ≠ nodeWord es) →
        c.compile k = .error (.telling (Value.get es "op")
          (.unknownOperator (.text (nodeWord es)) (c.registry.listed (nodeWord es))))) ∧
    ((∀ op, op ∈ ops) → create catalog table d style start .usual = .ok c) := by
  constructor
  · intro hkept
    constructor
    · intro k node es hfilter hnode hleaf hes
      exact exists_compile_error hfilter hnode hleaf (lacks_of_create hc hkept hes)
    · intro k node before after path es field column hfilter hnode hleaves hbefore hattr hfield
        hcolumn hes
      have hcolumn : c.catalog.resolve c.table field = .ok column := by
        obtain ⟨_, -, rfl⟩ := map_eq_ok.mp hc
        exact hcolumn
      exact compile_eq_unknown hfilter hnode hleaves hbefore hattr hfield hcolumn
        (lacks_of_create hc hkept hes)
  · intro hall
    obtain ⟨t, ht, rfl⟩ := map_eq_ok.mp hc
    have husual : (ops.foldl Registry.unregister .usual).orUsual = .usual :=
      if_pos ((Registry.isEmpty_removed ops).mpr hall)
    rw [create, ht, husual]
    rfl

end Removed

def idLeaf : Entries := [(.text "op", .text "="), (.text "attr", .text "id"), (.text "val", .int 1)]

def tagLeaf : Entries :=
  [(.text "op", .text "in"), (.text "attr", .text "tag"), (.text "val", .list [.int 1, .int 2])]

/-- The first sale, if it has one of two tags. -/
def taggedFirst : Criteria where
  filter := groupNode .and [.map idLeaf, .map tagLeaf]

/-- A compiler that knows no membership. -/
def withoutMembers : ClauseCompiler :=
  ⟨shop, "sales", .default, .question, 1, [.isIn].foldl Registry.unregister .usual⟩

theorem removed_operators_fail_sales :
    create shop "sales" .default .question 1 ([.isIn].foldl Registry.unregister .usual) =
      .ok withoutMembers ∧
    withoutMembers.compile taggedFirst =
      .error (.unknownOperator (.text "in") (withoutMembers.registry.listed "in")) ∧
    (∃ e, withoutMembers.compile tagged = .error e) ∧
    ∃ c, create shop "sales" .default .question 1
        (Operator.all.foldl Registry.unregister .usual) = .ok c ∧
      create shop "sales" .default .question 1 .usual = .ok c := by
  have hc : create shop "sales" .default .question 1 ([.isIn].foldl Registry.unregister .usual) =
      .ok withoutMembers := rfl
  obtain ⟨c, hempty⟩ : ∃ c, create shop "sales" .default .question 1
      (Operator.all.foldl Registry.unregister .usual) = .ok c := ⟨_, rfl⟩
  obtain ⟨hfails, hfirst⟩ := (removed_operators_fail hc).1 ⟨.eq, by decide⟩
  have hid : Connective.ofName? (nodeWord idLeaf) = none := by cbv
  have htag : Connective.ofName? (nodeWord tagLeaf) = none := by cbv
  have hword : nodeWord tagLeaf = "in" := by cbv
  have hremoved : ∀ op ∉ [Operator.isIn], op.name ≠ nodeWord tagLeaf := by
    rw [hword]
    intro op hop
    cases op <;> first | decide | simp at hop
  refine ⟨hc, ?_, ?_, c, hempty, (removed_operators_fail hempty).2 Operator.mem_all⟩
  · have hleaves : HasLeaves (.root "where") taggedFirst.filter
        ([(((Path.root "where").key "conditions").index 0, idLeaf)] ++
          (((Path.root "where").key "conditions").index 1, tagLeaf) :: []) := by
      refine .group (c := .and) ?_ rfl (.cons (.leaf hid) (.cons (.leaf htag) .nil))
      cbv
    have hcolumn : shop.resolve "sales" "tag" = .ok ⟨"sales", "tag"⟩ := by cbv
    rw [← hword]
    refine @hfirst taggedFirst taggedFirst.filter _ _ _ _ _ _ rfl rfl hleaves ?_ rfl (by decide)
      hcolumn hremoved
    refine List.forall_mem_singleton.mpr ⟨⟨⟨"sales", "id"⟩, .compare .eq (.int 1)⟩, ?_⟩
    cbv
  · exact @hfails tagged tagged.filter tagLeaf rfl rfl (.leaf htag) hremoved

end ClauseCompiler

end SqlFragment
