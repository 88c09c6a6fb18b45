import SqlFragment.Proofs.Alignment
import SqlFragment.Proofs.Negations

/-!
Membership asked by a modifier of an attribute and by a node. Both are the same test of the same
members, unless the operand is a set: the modifier takes a set for a single member.
-/
namespace SqlFragment

open Strategy (membersOf)

/-! ## Members -/

/-- The members that a modifier asks for: those of a list or tuple, or the operand itself. -/
def modifierMembers (v : Value) : List Value := v.items?.getD [v]

theorem membersOf_listed {op : Operator} (hop : op = .isIn ∨ op = .notIn) (v : Value) :
    membersOf (Filter.listed op v) = modifierMembers v := by
  rcases hop with rfl | rfl <;> rfl

/-- Members are found alike in everything but sets. -/
theorem modifierMembers_eq {v : Value} (h : ∀ xs, v ≠ .set xs) : modifierMembers v = membersOf v := by
  cases v with
  | set xs => exact absurd rfl (h xs)
  | _ => rfl

theorem sizeOf_lt_of_mem_elements {v : Value} {xs ys : List Value} (helements : v.elements? = some ys)
    (h : .set xs ∈ ys) : sizeOf xs < sizeOf v := by
  have hmem {zs : List Value} (h : .set xs ∈ zs) : sizeOf xs < sizeOf zs := by
    have := List.sizeOf_lt_of_mem h
    rw [Value.set.sizeOf_spec] at this
    omega
  cases v with
  | list zs | tuple zs | set zs =>
    obtain rfl := Option.some.inj helements
    have := hmem h
    simp only [Value.list.sizeOf_spec, Value.tuple.sizeOf_spec, Value.set.sizeOf_spec]
    omega
  | text s | bytes bs =>
    obtain rfl := Option.some.inj helements
    simp at h
  | map es =>
    obtain rfl := Option.some.inj helements
    obtain ⟨⟨key, w⟩, he, rfl⟩ := List.mem_map.mp h
    have := List.sizeOf_lt_of_mem he
    rw [Prod.mk.sizeOf_spec, Value.set.sizeOf_spec] at this
    rw [Value.map.sizeOf_spec]
    omega
  | _ => cases helements

/-- What a list binds is smaller than the list. -/
theorem set_notMem_boundMembers (xs : List Value) : .set xs ∉ boundMembers xs := by
  intro h
  unfold boundMembers at h
  split at h
  · obtain ⟨group, hgroup, hset⟩ := List.mem_flatten.mp h
    obtain ⟨v, hv, rfl⟩ := List.mem_map.mp hgroup
    cases hv' : v.elements? with
    | none =>
      rw [hv'] at hset
      cases hset
    | some ys =>
      rw [hv'] at hset
      have hlt := sizeOf_lt_of_mem_elements hv' hset
      have hmem := List.sizeOf_lt_of_mem hv
      omega
  · have := List.sizeOf_lt_of_mem h
    rw [Value.set.sizeOf_spec] at this
    omega

namespace Filter

variable {op : Operator} {field word : String} {v : Value}

/-- A modifier of an attribute, alone in a filter. -/
def modified (field word : String) (v : Value) : Value :=
  .map [(.text field, .map [(.text word, v)])]

theorem toNode_modified (hword : modifier? (Text.lower word) = some op)
    (hop : op = .isIn ∨ op = .notIn) (hfield : ¬IsReserved field) (hplain : field ≠ "op") :
    toNode (modified field word v) = .ok (leafNode op (.text field) (listed op v)) := by
  have hnode : modifierNode (.text field) (.text word) v =
      .ok (leafNode op (.text field) (listed op v)) := by
    have hsharp : sharpen op v = op := by rcases hop with rfl | rfl <;> rfl
    simp [modifierNode, keyword, Error.ofFault, hword, hsharp, pure, Except.pure]
  have hlookup : Value.lookup "op" [(Value.text field, Value.map [(.text word, v)])] = none := by
    simp [Value.lookup, hplain]
  rw [modified, toNode_map (List.cons_ne_nil _ _) hlookup, entryNodes_attribute (.text hfield),
    attributeNodes_map (List.cons_ne_nil _ _), List.mapM_cons, hnode]
  rfl

end Filter

namespace ClauseCompiler

open SqlFragment.Filter

variable {c : ClauseCompiler} {op : Operator} {field word : String} {v : Value} {w : Written}

theorem predicate_leafNode {p? : Option Predicate} :
    c.predicate (leafNode op (.text field) v) = .ok p? ↔
      field ≠ "" ∧ ∃ x, c.condition ⟨op, field, v⟩ = .ok x ∧ some (.condition x) = p? := by
  have hleaf := isLeaf_leafNode op field v
  rw [leafNode, predicate_of_hasOp hleaf.hasOp, map_eq_ok]
  simp only [hleaf.predicateAt_eq_ok]
  constructor
  · rintro ⟨_, ⟨filled, x, hx, rfl⟩, rfl⟩
    exact ⟨filled, x, hx, rfl⟩
  · rintro ⟨filled, x, hx, rfl⟩
    exact ⟨_, ⟨filled, x, hx, rfl⟩, rfl⟩

theorem predicate_modified (hword : modifier? (Text.lower word) = some op)
    (hop : op = .isIn ∨ op = .notIn) (hfield : ¬IsReserved field) (hplain : field ≠ "op") :
    c.predicate (modified field word v) = c.predicate (leafNode op (.text field) (listed op v)) := by
  have hnode : toNode (leafNode op (.text field) (listed op v)) =
      .ok (leafNode op (.text field) (listed op v)) := toNode_of_op (by simp [Value.lookup])
  rw [predicate, predicate, toNode_modified hword hop hfield hplain, hnode]

theorem condition_membership (husual : c.registry = .usual) (hop : op = .isIn ∨ op = .notIn) :
    c.condition ⟨op, field, v⟩ = (c.catalog.resolve c.table field).map fun r =>
      ⟨r, .member (op == .notIn) (membersOf v)⟩ := by
  rw [condition, husual]
  dsimp only
  rw [Registry.test, Registry.get?_usual]
  rcases hop with rfl | rfl <;> cases c.catalog.resolve c.table field <;> rfl

section Modified

variable (hword : modifier? (Text.lower word) = some op) (hop : op = .isIn ∨ op = .notIn)
  (hfield : ¬IsReserved field) (hplain : field ≠ "op")
include hword hop hfield hplain

theorem clauses_modified (k : Criteria) : c.clauses { k with filter := modified field word v } =
    c.clauses { k with filter := leafNode op (.text field) (listed op v) } := by
  rw [clauses, clauses, predicate_modified hword hop hfield hplain]

theorem compile_modified (k : Criteria) : c.compile { k with filter := modified field word v } =
    c.compile { k with filter := leafNode op (.text field) (listed op v) } := by
  rw [compile, compile, clauses_modified hword hop hfield hplain]

/-- Where members are found alike, the modifier and the node are compiled alike. -/
theorem compile_modified_iff (husual : c.registry = .usual) (h : ∀ xs, v ≠ .set xs) (k : Criteria)
    (w : Written) : c.compile { k with filter := modified field word v } = .ok w ↔
      c.compile { k with filter := leafNode op (.text field) v } = .ok w := by
  have hmembers : membersOf (listed op v) = membersOf v := by
    rw [membersOf_listed hop, modifierMembers_eq h]
  rw [compile_modified hword hop hfield hplain]
  refine compile_congr (fun p? => ?_) k w
  rw [predicate_leafNode, predicate_leafNode, condition_membership husual hop,
    condition_membership husual hop, hmembers]

end Modified

theorem valuesOf_member (d : Dialect) (style : MarkerStyle) (r : Column) (negated : Bool)
    (vs : List Value) : valuesOf style (body d (some (.condition ⟨r, .member negated vs⟩)) []) =
      boundMembers vs := by
  cases negated <;> cases style <;>
    simp [valuesOf, body, Predicate.conjunctText, Predicate.pieces, Condition.pieces,
      Column.pieces, Piece.singles, Piece.listed]

/-- What membership binds, and that there is a marker for each value. -/
theorem values_membership (husual : c.registry = .usual) (hop : op = .isIn ∨ op = .notIn)
    (hlegible : c.IsLegible { filter := leafNode op (.text field) v })
    (hw : c.compile { filter := leafNode op (.text field) v } = .ok w) :
    w.values = boundMembers (membersOf v) ∧
      ((c.lexemes w.text).filterMap (Lexeme.marker? c.style)).length = w.values.length := by
  obtain ⟨p?, tail, hc⟩ := exists_compiled hlegible hw
  refine ⟨?_, hc.length_markers⟩
  have hparts := hc.parts
  rw [parts_filter, map_eq_ok] at hparts
  obtain ⟨_, hpredicate, htail⟩ := hparts
  obtain ⟨rfl, rfl⟩ := Prod.mk.inj htail
  simp only [predicate_leafNode, condition_membership husual hop, map_eq_ok] at hpredicate
  obtain ⟨-, _, ⟨r, -, rfl⟩, rfl⟩ := hpredicate
  exact hc.values.trans (valuesOf_member _ _ _ _ _)

/-- A modifier of an attribute asks for membership as a node does, for every operand that is no set:
both are compiled to the same, or neither is. Where they are compiled, each member has a marker of
its own, or each element of a member that is a tuple. A set is bound as a whole by the modifier and
member by member by the node, so that the two never agree on it. -/
theorem memberships_agree_iff (husual : c.registry = .usual)
    (hword : modifier? (Text.lower word) = some op) (hop : op = .isIn ∨ op = .notIn)
    (hfield : ¬IsReserved field) (hplain : field ≠ "op") :
    ((∀ xs, v ≠ .set xs) → ∀ (k : Criteria) (w : Written),
      c.compile { k with filter := modified field word v } = .ok w ↔
        c.compile { k with filter := leafNode op (.text field) v } = .ok w) ∧
    (c.IsLegible { filter := leafNode op (.text field) v } → ∀ w,
      c.compile { filter := leafNode op (.text field) v } = .ok w →
      w.values = boundMembers (membersOf v) ∧
        ((c.lexemes w.text).filterMap (Lexeme.marker? c.style)).length = w.values.length) ∧
    (c.IsLegible { filter := modified field word v } → ∀ w,
      c.compile { filter := modified field word v } = .ok w →
      (w.values = boundMembers (modifierMembers v) ∧
        ((c.lexemes w.text).filterMap (Lexeme.marker? c.style)).length = w.values.length) ∧
      (c.IsLegible { filter := leafNode op (.text field) v } →
        (c.compile { filter := leafNode op (.text field) v } = .ok w ↔ ∀ xs, v ≠ .set xs))) := by
  have hagree (h : ∀ xs, v ≠ .set xs) (k : Criteria) (w : Written) :=
    @compile_modified_iff c op field word v hword hop hfield hplain husual h k w
  refine ⟨hagree, ?_, ?_⟩
  · intro hlegible w hw
    exact values_membership husual hop hlegible hw
  · intro hlegible w hw
    have hlegible' : c.IsLegible { filter := leafNode op (.text field) (listed op v) } := by
      unfold IsLegible at hlegible ⊢
      rwa [clauses_modified hword hop hfield hplain {}] at hlegible
    have hw' := hw
    rw [compile_modified hword hop hfield hplain {}] at hw'
    have hvalues := values_membership husual hop hlegible' hw'
    rw [membersOf_listed hop] at hvalues
    refine ⟨hvalues, ?_⟩
    intro hnode
    constructor
    · intro hsame xs hset
      subst hset
      -- the modifier binds the set, which is among nothing that the node binds
      have hbound := (values_membership husual hop hnode hsame).1
      rw [hvalues.1] at hbound
      apply set_notMem_boundMembers xs
      change boundMembers [.set xs] = boundMembers xs at hbound
      rw [← hbound]
      exact List.mem_singleton.mpr rfl
    · intro h
      exact (hagree h {} w).mp hw

section Sales

/-- New tags, or no tag. -/
def newTags : Value := .tuple [.text "new", .null]

theorem compile_newTags : ∃ w, (shopCompiler .question 1).compile
    { filter := leafNode .isIn (.text "tag") newTags } = .ok w ∧
    w.text = "\x22sales\x22.\x22tag\x22 IN (?, ?)" := by
  have hclauses : (shopCompiler .question 1).clauses
      { filter := leafNode .isIn (.text "tag") newTags } = .ok (["sales"], [.word " \nWHERE ",
        .name "sales", .word ".", .name "tag", .word " IN (",
        .members "tag" false [.text "new", .null], .word ")"]) := by
    cbv
  apply exists_of_toOption
  rw [compile, hclauses]
  decide +kernel

theorem modifier?_in : modifier? (Text.lower "in") = some .isIn := by
  have hlow : "in".toList.all Text.isLow = true := by decide
  rw [Text.lower_eq_self hlow]
  decide +kernel

theorem not_isReserved_tag : ¬IsReserved "tag" := by
  have hlow : "tag".toList.all Text.isLow = true := by decide
  rw [IsReserved, Text.lower_eq_self hlow]
  decide

/-- Two tags, in no order. -/
def tagSet : Value := .set [.text "new", .text "old"]

theorem compile_tagSet : ∃ w, (shopCompiler .question 1).compile
    { filter := modified "tag" "in" tagSet } = .ok w ∧
    w.text = "\x22sales\x22.\x22tag\x22 IN (?)" := by
  have hclauses : (shopCompiler .question 1).clauses
      { filter := leafNode .isIn (.text "tag") (listed .isIn tagSet) } = .ok (["sales"],
        [.word " \nWHERE ", .name "sales", .word ".", .name "tag", .word " IN (",
        .members "tag" false [tagSet], .word ")"]) := by
    cbv
  apply exists_of_toOption
  rw [compile, clauses_modified modifier?_in (.inl rfl) not_isReserved_tag (by decide) {}, hclauses]
  decide +kernel

/-- Of a tuple both bind two members; of a set the modifier binds the set itself. -/
theorem memberships_agree_iff_tags : ∃ w w',
    (shopCompiler .question 1).compile { filter := modified "tag" "in" newTags } = .ok w ∧
    (shopCompiler .question 1).compile { filter := leafNode .isIn (.text "tag") newTags } = .ok w ∧
    w.values = [.text "new", .null] ∧
    (shopCompiler .question 1).compile { filter := modified "tag" "in" tagSet } = .ok w' ∧
    w'.values = [tagSet] ∧
    (shopCompiler .question 1).compile { filter := leafNode .isIn (.text "tag") tagSet } ≠
      .ok w' := by
  have hlegible (k : Criteria) : (shopCompiler .question 1).IsLegible k :=
    isLegible_of_catalog isPlain_shop (by decide)
  have hmemberships (v : Value) := @memberships_agree_iff (shopCompiler .question 1) .isIn "tag"
    "in" v rfl modifier?_in (.inl rfl) not_isReserved_tag (by decide)
  have htuple : ∀ xs, newTags ≠ .set xs := by
    intro xs h
    cases h
  obtain ⟨w, hw, -⟩ := compile_newTags
  obtain ⟨w', hw', -⟩ := compile_tagSet
  obtain ⟨hagree, hvalues, -⟩ := hmemberships newTags
  obtain ⟨-, -, hset⟩ := hmemberships tagSet
  obtain ⟨⟨hbound, -⟩, hdiffer⟩ := hset (hlegible _) w' hw'
  refine ⟨w, w', (hagree htuple {} w).mpr hw, hw, (hvalues (hlegible _) w hw).1, hw', hbound, ?_⟩
  intro hsame
  exact (hdiffer (hlegible _)).mp hsame _ rfl

end Sales

end ClauseCompiler

end SqlFragment
