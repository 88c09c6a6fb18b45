import SqlFragment.Proofs.Conjunctions
import SqlFragment.Proofs.Permitted

/-!
Places in errors about filters. A filter is read twice, in its own form and as nodes; what is found
wrong with it in either reading is wrong with the value at the place that the error names.
-/
namespace SqlFragment

/-- Whether an error says that something is not valid. -/
def Error.IsValidation (e : Error) : Prop :=
  ∃ kind, e.kind? = some kind ∧ .validation ∈ kind.ancestors

theorem Error.not_isValidation {e : Error} {kind : Error.Kind} (h : e.kind? = some kind)
    (hkind : .validation ∉ kind.ancestors) : ¬e.IsValidation := by
  rintro ⟨kind', hkind', hmem⟩
  obtain rfl := Option.some.inj (h.symm.trans hkind')
  exact hkind hmem

theorem Error.not_isValidation_fault (f : Fault) : ¬(Error.fault f).IsValidation := by
  rintro ⟨kind, hkind, -⟩
  cases hkind

namespace Filter

/-! ## Faults -/

/-- What is wrong with a value by itself. -/
inductive HasFault : Invalid → Value → Prop
  | notMapping {v : Value} (other : v.isMap = false) : HasFault (.notMapping v.kindName) v
  | notNode {v : Value} (other : v.isMap = false) : HasFault (.notNode v.kindName) v
  | emptyCondition : HasFault .emptyCondition (.map [])
  | emptyModifiers : HasFault .emptyModifiers (.map [])
  | noBranches {c : Connective} {v : Value} (vacant : v.items?.getD [] = []) :
    HasFault (.noBranches c.name) v
  | likeNotMapping {v : Value} (other : v.isMap = false) : HasFault .likeNotMapping v
  | noConditions {es : Entries} {c : Connective}
      (word : Connective.ofName? (nodeWord es) = some c)
      (vacant : ∀ v vs, Value.lookup "conditions" es ≠ some (.list (v :: vs))) :
    HasFault (.noConditions (Value.get es "op")) (.map es)
  | noAttribute {es : Entries} (word : Connective.ofName? (nodeWord es) = none)
      (unnamed : ∀ s, Value.get es "attr" = .text s → s = "") :
    HasFault (.noAttribute (.map es)) (.map es)

/-- Whether an error names a place in a filter, and what is wrong with the value there. -/
def IsPlaced (filter : Value) (e : Error) : Prop :=
  ∃ cause place v, e = .invalid cause (some place) ∧ Reaches filter place v ∧ HasFault cause v

variable {filter : Value}

theorem Reaches.isPlaced {place : Path} {v : Value} {cause : Invalid} (h : Reaches filter place v)
    (fault : HasFault cause v) : IsPlaced filter (.invalid cause (some place)) :=
  ⟨cause, place, v, rfl, h, fault⟩

/-! ## Filters in their own form -/

mutual

theorem EntriesFault.isPlaced : ∀ {place : Path} {es : Entries} {e : Error},
    EntriesFault place es e → Reaches filter place (.map es) →
      e.kind? = some .operator ∨ IsPlaced filter e
  | _, _, _, .first _ fault, above => fault.isPlaced (.key above (by simp))

theorem EntryFault.isPlaced : ∀ {here : Path} {key : String} {operand : Value} {e : Error},
    EntryFault here key operand e → Reaches filter here operand →
      e.kind? = some .operator ∨ IsPlaced filter e
  | _, _, _, _, .noBranches _ vacant, above => .inr (above.isPlaced (.noBranches vacant))
  | _, _, _, _, .branch _ items _ fault, above => fault.isPlaced (.index above items (by simp))
  | _, _, _, _, .notPatterns _ other, above => .inr (above.isPlaced (.likeNotMapping other))
  | _, _, _, _, .noPatterns _, above => .inr (above.isPlaced .emptyCondition)
  | _, _, _, _, .noModifiers _, above => .inr (above.isPlaced .emptyModifiers)
  | _, _, _, _, .unknownModifier _ _ _, _ => .inl rfl

theorem FilterFault.isPlaced : ∀ {place : Path} {b : Value} {e : Error},
    FilterFault place b e → Reaches filter place b → e.kind? = some .operator ∨ IsPlaced filter e
  | _, _, _, .notMapping other, above => .inr (above.isPlaced (.notMapping other))
  | _, _, _, .empty, above => .inr (above.isPlaced .emptyCondition)
  | _, _, _, .entries fault, above => fault.isPlaced above

end

/-! ## Nodes -/

section Nodes

variable {α : Type} {leaf : Leaf → Except Error α} {root : Value}

theorem Reaches.lookup {place : Path} {es : Entries} {key : String} {v : Value}
    (h : Reaches root place (.map es)) (found : Value.lookup key es = some v) :
    Reaches root (place.key key) v :=
  .key h (mem_of_lookup found)

/-- Whether an error is of a leaf of one of the nodes, where it stands. -/
def IsOfLeaf (leaf : Leaf → Except Error α) (root : Value) (nodes : List Value) (e : Error) : Prop :=
  ∃ node ∈ nodes, ∃ place es, HasLeaf node es ∧ Reaches root place (.map es) ∧
    Tree.readLeaf leaf (place, es) = .error e

theorem IsOfLeaf.mono {leaf : Leaf → Except Error α} {nodes more : List Value} {e : Error}
    (h : IsOfLeaf leaf root nodes e) (hnodes : nodes ⊆ more) : IsOfLeaf leaf root more e := by
  obtain ⟨node, mem, h⟩ := h
  exact ⟨node, hnodes mem, h⟩

/-- What stops the reading of a node is a fault at the place that is named, or a leaf of it. -/
theorem Tree.read_fails (leaf : Leaf → Except Error α) (root : Value) :
    (∀ path node, Reaches root path node → ∀ e, read leaf path node = .error e →
      IsPlaced root e ∨ IsOfLeaf leaf root [node] e) ∧
    (∀ path es, Reaches root path (.map es) → ∀ c, Connective.ofName? (nodeWord es) = some c →
      ∀ e, readConditions leaf path es = .error e → IsPlaced root e ∨
        ∃ nodes, Value.lookup "conditions" es = some (.list nodes) ∧ IsOfLeaf leaf root nodes e) ∧
    ∀ path i nodes, (∀ j v, nodes[j]? = some v →
        Reaches root ((path.key "conditions").index (i + j)) v) →
      ∀ e, readFrom leaf path i nodes = .error e → IsPlaced root e ∨ IsOfLeaf leaf root nodes e := by
  refine read_induct ?group ?negation ?leaf ?other ?conditions ?missing ?nil ?cons
  case group =>
    intro path es c hgroup ih above e h
    rw [read_conditions hgroup, map_eq_error] at h
    refine (ih above c hgroup.word e h).imp_right ?_
    rintro ⟨nodes, conditions, node, mem, place, fs, part, hfs⟩
    exact ⟨_, List.mem_singleton_self _, place, fs, .group hgroup.word conditions mem part, hfs⟩
  case negation =>
    intro path es v word condition alone ih above e h
    rw [read_negation word condition alone, map_eq_error] at h
    refine (ih (above.lookup condition) e h).imp_right ?_
    rintro ⟨node, mem, place, fs, part, hfs⟩
    obtain rfl := List.mem_singleton.mp mem
    exact ⟨_, List.mem_singleton_self _, place, fs, .negation word condition alone part, hfs⟩
  case leaf =>
    intro path es word above e h
    rw [read_leaf word, map_eq_error] at h
    exact .inr ⟨_, List.mem_singleton_self _, path, es, .leaf word, above, h⟩
  case other =>
    intro path v other above e h
    obtain rfl := Except.error.inj ((read_other other).symm.trans h)
    exact .inl (above.isPlaced (.notNode other))
  case conditions =>
    intro path es v vs conditions ih above c word e h
    rw [readConditions_cons conditions] at h
    refine (ih (fun j v' hj => ?_) e h).imp_right fun hleaf => ⟨_, conditions, hleaf⟩
    rw [Nat.zero_add]
    exact .index (above.lookup conditions) rfl hj
  case missing =>
    intro path es missing above c word e h
    obtain rfl := Except.error.inj ((readConditions_missing missing).symm.trans h)
    exact .inl (above.isPlaced (.noConditions word missing))
  case nil =>
    intro path i above e h
    rw [readFrom] at h
    cases h
  case cons =>
    intro path i v vs ihv ihvs above e h
    rw [readFrom, bind_eq_error] at h
    rcases h with h | ⟨t, -, h⟩
    · refine (ihv (above 0 v rfl) e h).imp_right fun hleaf => hleaf.mono ?_
      exact List.cons_subset_cons v (List.nil_subset vs)
    · rcases bind_eq_error.mp h with h | ⟨ts, -, h⟩
      · -- behind the first node the positions are one higher
        refine (ihvs (fun j v' hj => ?_) e h).imp_right fun hleaf => hleaf.mono ?_
        · rw [Nat.add_assoc, Nat.add_comm 1]
          exact above (j + 1) v' hj
        · exact List.subset_cons_self v vs
      · cases h

end Nodes

/-! ## Nodes of filters in their own form -/

section Normal

mutual

/-- The nodes that a filter is brought into have just their leaves. -/
theorem IsNode.hasLeaves : ∀ {node : Value} {leaves : List Value}, IsNode node leaves →
    ∀ path, ∃ ls, HasLeaves path node ls ∧ ls.map (fun l => Value.map l.2) = leaves
  | _, _, .leaf _, path => ⟨_, .leaf (ofName?_leafNode _ _ _), rfl⟩
  | _, _, .all many each, path => by
    obtain ⟨ls, hls, hmap⟩ := each.haveLeaves path 0
    obtain ⟨node, rest, rfl⟩ := List.exists_cons_of_length_pos (Nat.zero_lt_of_lt many)
    exact ⟨ls, .group (ofName?_groupNode .and _) rfl hls, hmap⟩
  | _, _, .any filled each, path => by
    obtain ⟨ls, hls, hmap⟩ := each.haveLeaves path 0
    obtain ⟨node, rest, rfl⟩ := List.exists_cons_of_ne_nil filled
    exact ⟨ls, .group (ofName?_groupNode .or _) rfl hls, hmap⟩

theorem AreNodes.haveLeaves : ∀ {nodes leaves : List Value}, AreNodes nodes leaves →
    ∀ path i, ∃ ls, HaveLeaves path i nodes ls ∧ ls.map (fun l => Value.map l.2) = leaves
  | _, _, .nil, _, _ => ⟨[], .nil, rfl⟩
  | _, _, .cons first others, path, i => by
    obtain ⟨ls, hls, hmap⟩ := first.hasLeaves ((path.key "conditions").index i)
    obtain ⟨more, hmore, hrest⟩ := others.haveLeaves path (i + 1)
    exact ⟨ls ++ more, .cons hls hmore, by rw [List.map_append, hmap, hrest]⟩

end

mutual

theorem HasLeaves.reaches {root : Value} : ∀ {path : Path} {node : Value}
    {leaves : List (Path × Entries)}, HasLeaves path node leaves → Reaches root path node →
    ∀ l ∈ leaves, Reaches root l.1 (.map l.2)
  | _, _, _, .leaf _, above => List.forall_mem_singleton.mpr above
  | _, _, _, .group _ conditions parts, above =>
    parts.reaches fun j v hj => by
      rw [Nat.zero_add]
      exact .index (above.lookup conditions) rfl hj
  | _, _, _, .negation _ condition _ part, above => part.reaches (above.lookup condition)

theorem HaveLeaves.reaches {root : Value} : ∀ {path : Path} {i : Nat} {nodes : List Value}
    {leaves : List (Path × Entries)}, HaveLeaves path i nodes leaves →
    (∀ j v, nodes[j]? = some v → Reaches root ((path.key "conditions").index (i + j)) v) →
    ∀ l ∈ leaves, Reaches root l.1 (.map l.2)
  | _, _, _, _, .nil, _ => List.forall_mem_nil _
  | _, i, _, _, .cons first others, above =>
    List.forall_mem_append.mpr ⟨first.reaches (above 0 _ rfl), others.reaches fun j v hj => by
      rw [Nat.add_assoc, Nat.add_comm 1]
      exact above (j + 1) v hj⟩

end

/-- Whether a value is a key of a mapping somewhere in a filter. -/
def IsKeyIn (filter key : Value) : Prop :=
  ∃ place es operand, Reaches filter place (.map es) ∧ (key, operand) ∈ es

theorem exists_of_mem_branchConditions {branches : List Value} {leaf : Value}
    (h : leaf ∈ branchConditions branches) :
    ∃ (i : Nat) (es : Entries), branches[i]? = some (.map es) ∧ leaf ∈ conditionsOf es := by
  induction branches with
  | nil =>
    rw [branchConditions] at h
    cases h
  | cons b rest ih =>
    have hrest (h : leaf ∈ branchConditions rest) :
        ∃ (i : Nat) (es : Entries), (b :: rest)[i]? = some (.map es) ∧ leaf ∈ conditionsOf es := by
      obtain ⟨i, es, hi, hleaf⟩ := ih h
      exact ⟨i + 1, es, hi, hleaf⟩
    cases b with
    | map es =>
      rw [branchConditions, List.mem_append] at h
      rcases h with h | h
      · exact ⟨0, es, rfl, h⟩
      · exact hrest h
    | _ => exact hrest (by simpa [branchConditions] using h)

theorem exists_of_mem_conditionsOf {es : Entries} {leaf : Value} (h : leaf ∈ conditionsOf es) :
    ∃ e ∈ es, leaf ∈ conditionsOf [e] := by
  induction es with
  | nil =>
    rw [conditionsOf] at h
    cases h
  | cons e rest ih =>
    rw [conditionsOf_cons, List.mem_append] at h
    rcases h with h | h
    · exact ⟨e, List.mem_cons_self, h⟩
    · obtain ⟨e', he', h⟩ := ih h
      exact ⟨e', List.mem_cons_of_mem e he', h⟩

theorem exists_of_mem_attributeConditions {field operand leaf : Value}
    (h : leaf ∈ attributeConditions field operand) : ∃ op v, leaf = leafNode op field v := by
  unfold attributeConditions at h
  split at h
  · obtain ⟨e, -, he⟩ := List.mem_filterMap.mp h
    obtain ⟨op, -, rfl⟩ := Option.map_eq_some_iff.mp he
    exact ⟨_, _, rfl⟩
  all_goals exact ⟨_, _, List.mem_singleton.mp h⟩

/-- The attribute of a condition is a key in the filter that sets it. -/
theorem IsEntry.isKeyIn {e : Value × Value} (h : IsEntry e) {leaf : Value}
    (hleaf : leaf ∈ conditionsOf [e]) {place : Path} {es : Entries}
    (above : Reaches filter place (.map es)) (mem : e ∈ es) :
    ∃ op field v, leaf = leafNode op field v ∧ IsKeyIn filter field := by
  induction h generalizing place es with
  | @block key c operand branches word items filled full each ih =>
    rw [conditionsOf_block word items] at hleaf
    obtain ⟨i, fs, hi, hleaf⟩ := exists_of_mem_branchConditions hleaf
    obtain ⟨e, he, hleaf⟩ := exists_of_mem_conditionsOf hleaf
    exact ih fs (List.mem_of_getElem? hi) e he hleaf (.index (.key above mem) items hi) he
  | @patterns key fs word filled =>
    rw [conditionsOf_like word] at hleaf
    obtain ⟨e, he, rfl⟩ := List.mem_map.mp hleaf
    exact ⟨_, _, _, rfl, _, fs, e.2, .key above mem, he⟩
  | @operand key operand field plain =>
    rw [conditionsOf_attribute field] at hleaf
    obtain ⟨op, v, rfl⟩ := exists_of_mem_attributeConditions hleaf
    exact ⟨op, key, v, rfl, place, es, operand, above, mem⟩
  | @modified key fs field filled known =>
    rw [conditionsOf_attribute field] at hleaf
    obtain ⟨op, v, rfl⟩ := exists_of_mem_attributeConditions hleaf
    exact ⟨op, key, v, rfl, place, es, .map fs, above, mem⟩

end Normal

end Filter

/-! ## Compilers -/

namespace ClauseCompiler

open SqlFragment.Filter

variable {c : ClauseCompiler} {es : Entries} {e : Error} {place : Path}

/-- An attribute that is refused is named by its path, wherever it stands. -/
theorem resolve_eq_error {catalog : Catalog} {table name : String}
    (h : catalog.resolve table name = .error e) (hkind : e.IsValidation) :
    e.path? = some (.root name) := by
  unfold Catalog.resolve at h
  generalize splitAtLastDot name = parts at h
  obtain ⟨before, column⟩ := parts
  simp only at h
  split at h
  · obtain rfl := Except.error.inj h
    unfold Error.noFieldTable at hkind
    split at hkind
    · exact absurd hkind (Error.not_isValidation rfl (by decide))
    · exact absurd hkind (Error.not_isValidation_fault _)
  · split at h
    · obtain rfl := Except.error.inj h
      exact absurd hkind (Error.not_isValidation rfl (by decide))
    · split at h
      · obtain rfl := Except.error.inj h
        rfl
      · cases h

theorem test_eq_error {r : Registry} {op : Operator} {v : Value} (h : r.test op v = .error e)
    (hkind : e.IsValidation) : ∃ op, e = .invalid (.notRange op v) none := by
  unfold Registry.test at h
  split at h
  · rcases Registry.strategy_fails (fun t => t.elim) h with ⟨rfl, -⟩ | h
    · exact absurd hkind (Error.not_isValidation_fault _)
    · exact h
  · obtain rfl := Except.error.inj h
    exact absurd hkind (Error.not_isValidation rfl (by decide))

/-- Whether a leaf has no attribute, and is reported with its place. -/
def IsUnnamed (es : Entries) (place : Path) (e : Error) : Prop :=
  e = .invalid (.noAttribute (.map es)) (some place) ∧
    ∀ s, Value.get es "attr" = .text s → s = ""

/-- Whether the attribute of a leaf is refused, and named by its path. -/
def IsRefused (c : ClauseCompiler) (es : Entries) (e : Error) : Prop :=
  ∃ attr, Value.get es "attr" = .text attr ∧ c.catalog.resolve c.table attr = .error e ∧
    e.path? = some (.root attr)

/-- Whether an operand is refused that should be a range. -/
def IsRange (es : Entries) (e : Error) : Prop :=
  ∃ op path?, e = .invalid (.notRange op (Value.get es "val")) path?

theorem leafOf_eq_error (h : leafOf place es = .error e) (hkind : e.IsValidation) :
    IsUnnamed es place e := by
  cases Tree.leafFault_of_leafOf h with
  | unwritable | untold => exact absurd hkind (Error.not_isValidation_fault _)
  | nameless nameless => exact ⟨rfl, nameless⟩
  | unknown => exact absurd hkind (Error.not_isValidation rfl (by decide))

/-- Why a leaf gives no condition, where that is not valid. -/
theorem readLeaf_fails (h : Tree.readLeaf c.condition (place, es) = .error e)
    (hkind : e.IsValidation) : IsUnnamed es place e ∨ c.IsRefused es e ∨ IsRange es e := by
  rcases bind_eq_error.mp h with h | ⟨l, hl, h⟩
  · exact .inl (leafOf_eq_error h hkind)
  · obtain ⟨-, hattr, -, -, hval⟩ := Tree.leafOf_eq_ok_iff.mp hl
    rcases bind_eq_error.mp h with h | ⟨column, -, h⟩
    · exact .inr (.inl ⟨l.field, hattr, h, resolve_eq_error h hkind⟩)
    · rcases bind_eq_error.mp h with h | ⟨test, -, h⟩
      · obtain ⟨op, rfl⟩ := test_eq_error h hkind
        exact .inr (.inr ⟨op, none, by rw [hval]⟩)
      · cases h

section Errors

variable {k : Criteria} {filter : Value}

/-- Whether an error is of a refused attribute in a node; then its path is the attribute's name. -/
def NamesRefused (c : ClauseCompiler) (filter : Value) (e : Error) : Prop :=
  ∃ node place es, toNode filter = .ok node ∧ Reaches node place (.map es) ∧ c.IsRefused es e

/-- Whether an error is of an operand in a node that should be a range. -/
def ExpectsRange (filter : Value) (e : Error) : Prop :=
  ∃ node place es, toNode filter = .ok node ∧ Reaches node place (.map es) ∧ IsRange es e

/-- Whether an error is of a key in entries that names no attribute. -/
def MissesName (filter : Value) (e : Error) : Prop :=
  ∃ node place key, e = .invalid (.noAttribute node) (some place) ∧ IsKeyIn filter key ∧
    ∀ s, key = .text s → s = ""

/-- Errors in nodes. -/
theorem predicate_fails_node {es : Entries} (hop : (Value.lookup "op" es).isSome)
    (h : c.predicate (.map es) = .error e) (hkind : e.IsValidation) :
    IsPlaced (.map es) e ∨ c.NamesRefused (.map es) e ∨ ExpectsRange (.map es) e := by
  have htruthy : (Value.map es).isTruthy = true := by
    cases es with
    | nil => cases hop
    | cons => rfl
  have hnode : toNode (.map es) = .ok (.map es) := by
    simp [toNode, htruthy, hop]
  rw [predicate_eq_read htruthy hnode, map_eq_error] at h
  rcases (Tree.read_fails c.condition (.map es)).1 _ _ .root e h with
    h | ⟨node, -, place, fs, part, above, h⟩
  · exact .inl h
  · rcases readLeaf_fails h hkind with ⟨rfl, hunnamed⟩ | h | h
    · exact .inl (above.isPlaced (.noAttribute part.word hunnamed))
    · exact .inr (.inl ⟨_, place, fs, hnode, above, h⟩)
    · exact .inr (.inr ⟨_, place, fs, hnode, above, h⟩)

theorem predicate_fails_entries (keys : ∀ es, filter = .map es → ∀ e ∈ es, HasTextKeys e)
    (plain : ∀ es, filter = .map es → Value.lookup "op" es = none)
    (htruthy : filter.isTruthy = true) (h : c.predicate filter = .error e)
    (hkind : e.IsValidation) :
    IsPlaced filter e ∨ c.NamesRefused filter e ∨ ExpectsRange filter e ∨ MissesName filter e := by
  cases hnode : toNode filter with
  | error e' =>
    rw [predicate, hnode] at h
    obtain rfl := Except.error.inj h
    rcases ((toNode_eq_error_iff keys plain).mp hnode).2.isPlaced .root with hop | h
    · exact absurd hkind (Error.not_isValidation hop (by decide))
    · exact .inl h
  | ok node =>
    rcases toNode_eq_ok plain hnode with ⟨falsy, -⟩ | ⟨es, rfl, each, is⟩
    · cases htruthy.symm.trans falsy
    · rw [predicate_eq_read htruthy hnode, map_eq_error] at h
      obtain ⟨ls, hls, hleaves⟩ := is.hasLeaves (.root "where")
      have hread := hls.map_read c.condition
      rw [h] at hread
      obtain ⟨⟨place, fs⟩, hmem, h⟩ := exists_of_mapM_eq_error hread.symm
      have above := hls.reaches .root _ hmem
      rcases readLeaf_fails h hkind with ⟨rfl, hunnamed⟩ | h | h
      · have hleaf : Value.map fs ∈ conditionsOf es := hleaves ▸ List.mem_map_of_mem hmem
        obtain ⟨x, hx, hleaf⟩ := exists_of_mem_conditionsOf hleaf
        obtain ⟨op, field, v, hfs, hkey⟩ := (each x hx).isKeyIn hleaf .root hx
        obtain rfl := Value.map.inj hfs
        exact .inr (.inr (.inr ⟨_, place, field, rfl, hkey, hunnamed⟩))
      · exact .inr (.inl ⟨_, place, fs, hnode, above, h⟩)
      · exact .inr (.inr (.inl ⟨_, place, fs, hnode, above, h⟩))

/-- Compiling fails with the error of the filter. Where the error says that something is not valid,
it names the place in the filter of a value that is not, or else it is of a refused attribute, which
it names instead, of an operand that should be a range, or of an attribute without a name in a filter
that is no node. -/
theorem errors_lead_to_faults
    (keys : ∀ es, k.filter = .map es → Value.lookup "op" es = none → ∀ x ∈ es, HasTextKeys x)
    (h : c.predicate k.filter = .error e) (hkind : e.IsValidation) :
    c.compile k = .error e ∧
      (IsPlaced k.filter e ∨ c.NamesRefused k.filter e ∨ ExpectsRange k.filter e ∨
        (∀ es, k.filter = .map es → Value.lookup "op" es = none) ∧ MissesName k.filter e) := by
  refine ⟨compile_eq_error h, ?_⟩
  by_cases hop : ∃ es, k.filter = .map es ∧ (Value.lookup "op" es).isSome
  · obtain ⟨es, hes, hop⟩ := hop
    rw [hes] at h ⊢
    rcases predicate_fails_node hop h hkind with h | h | h
    · exact .inl h
    · exact .inr (.inl h)
    · exact .inr (.inr (.inl h))
  · have plain : ∀ es, k.filter = .map es → Value.lookup "op" es = none := fun es hes =>
      Option.not_isSome_iff_eq_none.mp fun hsome => hop ⟨es, hes, hsome⟩
    have htruthy : k.filter.isTruthy = true := by
      rw [← Bool.not_eq_false]
      intro falsy
      rw [predicate, toNode_of_falsy falsy] at h
      cases h
    rcases predicate_fails_entries (fun es hes => keys es hes (plain es hes)) plain htruthy h hkind
      with h | h | h | h
    · exact .inl h
    · exact .inr (.inl h)
    · exact .inr (.inr (.inl h))
    · exact .inr (.inr (.inr ⟨plain, h⟩))

/-- Authors and their posts, which are no column. -/
def authors : ClauseCompiler :=
  ⟨⟨[(.text "authors", ⟨"authors", [("id", { primaryKey := true }),
    ("posts", { collection := true })]⟩)]⟩, "authors", .default, .question, 1, .usual⟩

/-- A condition and an empty group. -/
def halfEmpty : Criteria where
  filter := groupNode .and [leafNode .eq (.text "id") (.int 1), .map [(.text "op", .text "or")]]

theorem predicate_halfEmpty : authors.predicate halfEmpty.filter =
    .error (.invalid (.noConditions (.text "or"))
      (some (((Path.root "where").key "conditions").index 1))) := by
  cbv

/-- The empty group is found where it stands. -/
theorem errors_lead_to_faults_authors : ∃ v,
    Reaches halfEmpty.filter (((Path.root "where").key "conditions").index 1) v ∧
    HasFault (.noConditions (.text "or")) v ∧
    authors.compile halfEmpty = .error (.invalid (.noConditions (.text "or"))
      (some (((Path.root "where").key "conditions").index 1))) := by
  have keys (es : Entries) (hes : halfEmpty.filter = .map es)
      (hop : Value.lookup "op" es = none) : ∀ x ∈ es, HasTextKeys x := by
    obtain rfl := Value.map.inj hes
    cases hop
  obtain ⟨hcompile, hplace⟩ :=
    errors_lead_to_faults keys predicate_halfEmpty ⟨.validation, rfl, by decide⟩
  rcases hplace with ⟨cause, place, v, he, above, fault⟩ | h | h | ⟨-, h⟩
  · cases he
    exact ⟨v, above, fault, hcompile⟩
  · obtain ⟨_, _, _, _, _, _, _, _, hpath⟩ := h
    cases hpath
  · obtain ⟨_, _, _, _, _, _, _, he⟩ := h
    cases he
  · obtain ⟨_, _, _, he, -⟩ := h
    cases he

def asking (op : Operator) (field : String) (n : Int) : Criteria where
  filter := leafNode op (.text field) (.int n)

/-- An attribute that is no column is named by no place in the filter, and an operand that is no
range by no path at all. -/
theorem refused_without_place :
    (∃ e place, authors.compile (asking .eq "posts" 1) = .error e ∧ e.IsValidation ∧
      e.path? = some place ∧ ∀ v, ¬Reaches (asking .eq "posts" 1).filter place v) ∧
    ∃ e, authors.compile (asking .between "id" 5) = .error e ∧ e.IsValidation ∧
      e.path? = none := by
  constructor
  · have hrefused : authors.predicate (asking .eq "posts" 1).filter =
        .error (.notQueryable "posts" "authors" ["id"] (some "posts")) := by cbv
    refine ⟨_, .root "posts", compile_eq_error hrefused, ⟨.queryable, rfl, by decide⟩, rfl,
      fun v h => ?_⟩
    generalize hplace : Path.root "posts" = place at h
    cases h with
    | root => exact absurd (Path.root.inj hplace) (by decide)
    | key | index => cases hplace
  · have hrefused : authors.predicate (asking .between "id" 5).filter =
        .error (.invalid (.notRange .between (.int 5)) none) := by cbv
    exact ⟨_, compile_eq_error hrefused, ⟨.validation, rfl, by decide⟩, rfl⟩

end Errors

end ClauseCompiler

end SqlFragment
