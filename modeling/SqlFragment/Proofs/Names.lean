import Mathlib
import SqlFragment.Proofs.Turns

/-!
Names of a catalog. Where those of all tables and columns are plain, the statements for all criteria
are read as they are written.
-/
namespace SqlFragment

/-! ## Plain catalogs -/

/-- A column with plain names, whose lists are spelled. -/
def Column.IsPlain (c : Column) : Prop :=
  IsPlainName c.table ∧ IsPlainName c.name ∧ isStuck (columnLabel c.name) = false

instance (c : Column) : Decidable c.IsPlain := inferInstanceAs (Decidable (_ ∧ _))

/-- Whether all tables and columns have plain names. -/
def Catalog.IsPlain (c : Catalog) : Prop :=
  ∀ e ∈ c.tables, ∀ name ∈ e.1.text?,
    IsPlainName name ∧ ∀ a ∈ e.2.attributes, Column.IsPlain ⟨name, a.1⟩

instance (c : Catalog) : Decidable c.IsPlain := inferInstanceAs (Decidable (∀ e ∈ _, ∀ n ∈ _, _))

/-- A column of a table, and no collection. -/
def Catalog.HasColumn (catalog : Catalog) (r : Column) : Prop :=
  ∃ t a, catalog.table? r.table = some t ∧ t.attribute? r.name = some a ∧ a.collection = false

theorem Catalog.hasColumn_of_resolve {catalog : Catalog} {table name : String} {r : Column}
    (h : catalog.resolve table name = .ok r) : catalog.HasColumn r := by
  unfold Catalog.resolve at h
  generalize splitAtLastDot name = parts at h
  obtain ⟨before, column⟩ := parts
  simp only at h
  generalize (if before.isEmpty then table else before) = place at h
  cases ht : catalog.table? place with
  | none => simp [ht] at h
  | some t =>
    cases ha : t.attribute? column with
    | none => simp [ht, ha] at h
    | some a =>
      simp only [ht, ha, ite_error_eq_ok] at h
      obtain ⟨hcollection, h⟩ := h
      obtain rfl := Except.ok.inj h
      exact ⟨t, a, ht, ha, eq_false_of_ne_true hcollection⟩

theorem mem_of_lookup {α : Type} {key : String} {v : α} {es : List (Value × α)}
    (h : Value.lookup key es = some v) : (.text key, v) ∈ es := by
  fun_induction Value.lookup key es with
  | case1 => contradiction
  | case2 v' es =>
    obtain rfl := Option.some.inj h
    exact List.mem_cons_self
  | case3 k v' es hk ih => exact List.mem_cons_of_mem _ (ih h)
  | case4 e es he ih => exact List.mem_cons_of_mem _ (ih h)

namespace Catalog.IsPlain

variable {catalog : Catalog} (h : catalog.IsPlain)
include h

theorem table {name : String} {t : Table} (ht : catalog.table? name = some t) :
    IsPlainName name ∧ ∀ a ∈ t.attributes, Column.IsPlain ⟨name, a.1⟩ :=
  h _ (mem_of_lookup ht) name rfl

/-- A name that means a column means one with plain names. -/
theorem column {table name : String} {column : Column}
    (hcolumn : catalog.resolve table name = .ok column) : column.IsPlain := by
  obtain ⟨t, a, ht, ha, -⟩ := hasColumn_of_resolve hcolumn
  obtain ⟨xs, ys, hattributes, -⟩ := List.lookup_eq_some_iff.mp ha
  exact (h.table ht).2 (column.name, a) (by simp [hattributes])

end Catalog.IsPlain

/-! ## Columns of predicates -/

mutual

theorem columns_eq : ∀ p : Predicate, p.columns = p.toTree.leaves.map Condition.column
  | .condition _ => rfl
  | .all ps | .any ps => columnsOf_eq ps
  | .negation p => columns_eq p

theorem columnsOf_eq : ∀ ps : List Predicate,
    Predicate.columnsOf ps = (Filter.Tree.leavesOf (Predicate.toTrees ps)).map Condition.column
  | [] => rfl
  | p :: ps => by
    rw [Predicate.columnsOf, Predicate.toTrees, Filter.Tree.leavesOf, List.map_append,
      columns_eq p, columnsOf_eq ps]

end

/-- The predicate of a tree is about the columns of its conditions, in their order. -/
theorem columns_ofTree_eq (t : Filter.Tree Condition) :
    (Predicate.ofTree t).columns = t.leaves.map Condition.column := by
  obtain ⟨turns, hturns⟩ := turns_ofTree t
  have hcolumn (turn : Bool) (x : Condition) : (x.turned turn).column = x.column := by
    cases turn <;> rfl
  rw [columns_eq, hturns.leaves, List.map_zipWith]
  simp only [hcolumn]
  rw [List.zipWith_comm, ← List.map_uncurry_zip_eq_zipWith]
  change (t.leaves.zip turns).map (Condition.column ∘ Prod.fst) = _
  rw [← List.map_map, List.map_fst_zip hturns.length.ge]

/-! ## Pieces -/

/-- Whether all pieces that may be made for a column have a property. -/
structure Column.Admits (P : Piece → Prop) (c : Column) : Prop where
  table : P (.name c.table)
  name : P (.name c.name)
  marker (v : Value) : P (.marker (columnLabel c.name) v)
  members (negated : Bool) (vs : List Value) : P (.members (columnLabel c.name) negated vs)

theorem Column.IsPlain.admits {c : Column} (h : c.IsPlain) : c.Admits Piece.IsPlain :=
  ⟨h.1, h.2.1, fun _ => trivial, fun _ _ => h.2.2⟩

/-- Whether words, and markers for values that are compared with no name, have a property. -/
structure AdmitsWords (P : Piece → Prop) : Prop where
  word (w : String) : P (.word w)
  marker (v : Value) : P (.marker valueLabel v)
  folded (v : Value) : P (.marker "lower" v)

theorem admitsWords_isPlain : AdmitsWords Piece.IsPlain :=
  ⟨fun _ => trivial, fun _ => trivial, fun _ => trivial⟩

section Pieces

variable (d : Dialect) {P : Piece → Prop} (hwords : AdmitsWords P)
include hwords

theorem forall_column {column : Column} (h : column.Admits P) : ∀ p ∈ column.pieces, P p := by
  simp only [Column.pieces, List.forall_mem_cons]
  exact ⟨h.table, hwords.word _, h.name, List.forall_mem_nil _⟩

theorem forall_lowered {ps : List Piece} (h : ∀ p ∈ ps, P p) : ∀ p ∈ Condition.lowered ps, P p :=
  List.forall_mem_append.mpr
    ⟨List.forall_mem_cons.mpr ⟨hwords.word _, h⟩, List.forall_mem_singleton.mpr (hwords.word _)⟩

theorem forall_condition {x : Condition} (h : x.column.Admits P) : ∀ p ∈ x.pieces d, P p := by
  have hcolumn := forall_column hwords h
  obtain ⟨column, test⟩ := x
  cases test with
  | compare | isNull | between | like =>
    refine List.forall_mem_append.mpr ⟨hcolumn, ?_⟩
    simp [hwords.word, hwords.marker, h.marker]
  | ilike negated pattern =>
    simp only [Condition.pieces]
    split
    · refine List.forall_mem_append.mpr ⟨hcolumn, ?_⟩
      simp [hwords.word, h.marker]
    · exact List.forall_mem_append.mpr ⟨forall_lowered hwords hcolumn,
        List.forall_mem_cons.mpr ⟨hwords.word _, forall_lowered hwords
          (List.forall_mem_singleton.mpr (h.marker _))⟩⟩
  | member negated vs =>
    cases negated with
    | false =>
      refine List.forall_mem_append.mpr ⟨hcolumn, ?_⟩
      exact List.forall_mem_cons.mpr ⟨hwords.word _, List.forall_mem_cons.mpr
        ⟨h.members _ _, List.forall_mem_singleton.mpr (hwords.word _)⟩⟩
    | true =>
      refine List.forall_mem_append.mpr
        ⟨List.forall_mem_cons.mpr ⟨hwords.word _, hcolumn⟩, ?_⟩
      exact List.forall_mem_cons.mpr ⟨hwords.word _, List.forall_mem_cons.mpr
        ⟨h.members _ _, List.forall_mem_singleton.mpr (hwords.word _)⟩⟩
  | equalFold negated v =>
    exact List.forall_mem_append.mpr ⟨forall_lowered hwords hcolumn,
      List.forall_mem_cons.mpr ⟨hwords.word _, forall_lowered hwords
        (List.forall_mem_singleton.mpr (hwords.folded _))⟩⟩

theorem forall_joinPieces {w : String} {parts : List (List Piece)}
    (h : ∀ part ∈ parts, ∀ p ∈ part, P p) : ∀ p ∈ joinPieces (.word w) parts, P p := by
  intro p hp
  rcases eq_or_mem_of_joinPieces hp with rfl | ⟨part, hpart, hp⟩
  · exact hwords.word w
  · exact h part hpart p hp

theorem forall_grouped {ps : List Piece} (h : ∀ p ∈ ps, P p) : ∀ p ∈ Predicate.grouped ps, P p :=
  List.forall_mem_append.mpr
    ⟨List.forall_mem_cons.mpr ⟨hwords.word _, h⟩, List.forall_mem_singleton.mpr (hwords.word _)⟩

theorem forall_conjunctText {p : Predicate} (h : ∀ q ∈ p.pieces d, P q) :
    ∀ q ∈ p.conjunctText d, P q := by
  cases p with
  | any ps => exact forall_grouped hwords h
  | _ => exact h

omit hwords

mutual

theorem forall_predicate (hwords : AdmitsWords P) : ∀ p : Predicate,
    (∀ column ∈ p.columns, column.Admits P) → ∀ q ∈ p.pieces d, P q
  | .condition x, h => by
    rw [Predicate.pieces]
    exact forall_condition d hwords (h _ List.mem_cons_self)
  | .all ps, h => by
    rw [Predicate.pieces, Predicate.conjunctPieces_eq]
    refine forall_joinPieces hwords (List.forall_mem_map.mpr fun p hp => ?_)
    exact forall_conjunctText d hwords (forall_predicates hwords ps h p hp)
  | .any ps, h => by
    rw [Predicate.pieces, Predicate.disjunctPieces_eq]
    exact forall_joinPieces hwords (List.forall_mem_map.mpr (forall_predicates hwords ps h))
  | .negation p, h => by
    rw [Predicate.pieces]
    exact List.forall_mem_cons.mpr
      ⟨hwords.word _, forall_grouped hwords (forall_predicate hwords p h)⟩

theorem forall_predicates (hwords : AdmitsWords P) : ∀ ps : List Predicate,
    (∀ column ∈ Predicate.columnsOf ps, column.Admits P) → ∀ p ∈ ps, ∀ q ∈ p.pieces d, P q
  | [], _ => List.forall_mem_nil _
  | p :: ps, h => by
    obtain ⟨hp, hps⟩ := List.forall_mem_append.mp h
    exact List.forall_mem_cons.mpr
      ⟨forall_predicate hwords p hp, forall_predicates hwords ps hps⟩

end

end Pieces

/-! ## Criteria -/

namespace ClauseCompiler

variable {c : ClauseCompiler} {k : Criteria}

/-- The columns of a predicate are columns of the catalog. -/
theorem exists_resolve_of_mem_columns {p : Predicate} (h : c.predicate k.filter = .ok (some p)) :
    ∀ column ∈ p.columns, ∃ name, c.catalog.resolve c.table name = .ok column := by
  obtain ⟨node, tree, -, -, htree, rfl⟩ := predicate_eq_ok h
  intro column hcolumn
  rw [columns_ofTree_eq] at hcolumn
  obtain ⟨x, hx, rfl⟩ := List.mem_map.mp hcolumn
  obtain ⟨l, hl⟩ := Filter.Tree.exists_of_mem_leaves htree hx
  exact ⟨l.field, resolve_of_condition hl⟩

section Clauses

variable {P : Piece → Prop} (hwords : AdmitsWords P)
  (hcolumns : ∀ name column, c.catalog.resolve c.table name = .ok column → column.Admits P)
include hwords hcolumns

theorem forall_tail {p? : Option Predicate} {tail : List Piece} (h : c.parts k = .ok (p?, tail)) :
    ∀ p ∈ tail, P p := by
  obtain ⟨sort, skip, limit, hsort, rfl⟩ := tail_of_parts h
  refine List.forall_mem_append.mpr ⟨?_, ?_⟩
  · rcases sortPieces_eq_ok hsort with rfl | ⟨terms, rfl, hterms⟩
    · exact List.forall_mem_nil _
    · refine List.forall_mem_cons.mpr ⟨hwords.word _, forall_joinPieces hwords fun t ht => ?_⟩
      obtain ⟨name, column, d, hcolumn, rfl⟩ := hterms t ht
      exact List.forall_mem_append.mpr ⟨forall_column hwords (hcolumns name column hcolumn),
        List.forall_mem_singleton.mpr (hwords.word _)⟩
  · cases skip <;> cases limit <;> cases c.dialect <;>
      simp [rangePieces, hwords.word, hwords.marker]

/-- What holds of all words and of the pieces for all columns holds of the pieces of clauses. -/
theorem forall_clauses {r : List String × List Piece} (hr : c.clauses k = .ok r) :
    ∀ p ∈ r.2, P p := by
  rw [clauses_eq, map_eq_ok] at hr
  obtain ⟨⟨p?, tail⟩, hparts, rfl⟩ := hr
  have hpredicate := predicate_of_parts hparts
  refine List.forall_mem_append.mpr ⟨?_, forall_tail hwords hcolumns hparts⟩
  cases p? with
  | none => exact List.forall_mem_nil _
  | some p =>
    have hp : ∀ column ∈ p.columns, column.Admits P := by
      intro column hcolumn
      obtain ⟨name, hname⟩ := exists_resolve_of_mem_columns hpredicate column hcolumn
      exact hcolumns name column hname
    exact List.forall_mem_cons.mpr ⟨hwords.word _,
      forall_conjunctText c.dialect hwords (forall_predicate c.dialect hwords p hp)⟩

end Clauses

/-- In a catalog with plain names the statements for all criteria are read as they are written. -/
theorem isLegible_of_catalog (hcatalog : c.catalog.IsPlain) (htable : IsPlainName c.table) :
    c.IsLegible k := by
  refine isLegible_of_plain fun r hr => List.forall_mem_append.mpr ⟨fun p hp => ?_, ?_⟩
  · rw [clauses_eq, map_eq_ok] at hr
    obtain ⟨⟨p?, tail⟩, hparts, rfl⟩ := hr
    have hpredicate := predicate_of_parts hparts
    rcases mem_headPieces hp with rfl | rfl | ⟨t, ht, rfl⟩
    · trivial
    · trivial
    · rcases List.mem_cons.mp (List.mem_eraseDups.mp ht) with rfl | ht
      · exact htable
      · obtain ⟨column, hcolumn, rfl⟩ := List.mem_map.mp ht
        cases p? with
        | none => contradiction
        | some p =>
          obtain ⟨name, hname⟩ := exists_resolve_of_mem_columns hpredicate column hcolumn
          exact (hcatalog.column hname).1
  · exact forall_clauses admitsWords_isPlain (fun _ _ h => (hcatalog.column h).admits) hr

end ClauseCompiler

/-! ## Sales -/

/-- Sales, each with a tag and the sale that it stems from. -/
def shop : Catalog :=
  ⟨[(.text "sales", ⟨"sales", [("id", { primaryKey := true }), ("tag", {}), ("origin", {})]⟩)]⟩

theorem isPlain_shop : shop.IsPlain := by decide

def shopCompiler (style : MarkerStyle) (start : Int) : ClauseCompiler :=
  ⟨shop, "sales", .default, style, start, .usual⟩

/-- The first sales that have one of two tags. -/
def tagged : Criteria where
  filter := .map [(.text "op", .text "in"), (.text "attr", .text "tag"),
    (.text "val", .list [.int 1, .int 2])]
  sort := .map [(.text "id", .int 1)]
  limit := .int 3

theorem clauses_tagged (style : MarkerStyle) (start : Int) :
    (shopCompiler style start).clauses tagged = .ok (["sales"], [.word " \nWHERE ", .name "sales",
      .word ".", .name "tag", .word " IN (", .members "tag" false [.int 1, .int 2], .word ")",
      .word " ORDER BY ", .name "sales", .word ".", .name "id", .word " ASC", .word "\n LIMIT ",
      .marker "param" (.int 3)]) := by
  cbv

theorem isLegible_tagged (style : MarkerStyle) (start : Int) :
    (shopCompiler style start).IsLegible tagged :=
  ClauseCompiler.isLegible_of_catalog isPlain_shop (by decide : IsPlainName "sales")

/-- Sales are compiled with markers numbered from the start, or after three others. -/
theorem exists_compile_tagged (style : MarkerStyle) {start : Int} (h : start = 1 ∨ start = 4) :
    ∃ w, (shopCompiler style start).compile tagged = .ok w ∧ w.values.length = 3 := by
  have hall : ∀ start ∈ [(1 : Int), 4], (((shopCompiler style start).compile tagged).toOption.map
      fun w => w.values.length) = some 3 := by
    intro start hstart
    rw [ClauseCompiler.compile, clauses_tagged]
    revert start
    cases style <;> decide +kernel
  exact exists_of_toOption (hall start (by simpa using h))

end SqlFragment
