import SqlFragment.Proofs.Catalogs
import SqlFragment.Proofs.Negations
import SqlFragment.Proofs.Quotation

/-!
Columns by their names. A name without a dot means a column of the table that is asked about, and
behind the name of a table and a dot, a column of that table. So all columns can be named whose own
names have no dot, and no others.
-/
namespace SqlFragment

/-! ## Names cut at their last dot -/

theorem forall_ne_dot {s : String} (h : '.' ∉ s.toList) :
    ∀ c ∈ s.toList.reverse, (c != '.') = true := by
  intro c hc
  have hne : c ≠ '.' := by
    rintro rfl
    exact h (List.mem_reverse.mp hc)
  simpa using hne

theorem splitAtLastDot_of_notMem {s : String} (h : '.' ∉ s.toList) : splitAtLastDot s = ("", s) := by
  have hcolumn : s.toList.reverse.takeWhile (· != '.') = s.toList.reverse :=
    List.takeWhile_eq_self_iff.mpr (forall_ne_dot h)
  unfold splitAtLastDot
  rw [hcolumn]
  dsimp only
  rw [List.reverse_reverse, String.length_toList, Nat.sub_self, Nat.zero_sub, List.take_zero,
    String.ofList_toList]

theorem splitAtLastDot_append (place : String) {s : String} (h : '.' ∉ s.toList) :
    splitAtLastDot (place ++ "." ++ s) = (place, s) := by
  have htext : (place ++ "." ++ s).toList = place.toList ++ '.' :: s.toList := by simp
  have hcolumn : (place ++ "." ++ s).toList.reverse.takeWhile (· != '.') = s.toList.reverse := by
    rw [htext, List.reverse_append, List.reverse_cons, List.append_assoc,
      List.takeWhile_append_of_pos (forall_ne_dot h)]
    simp
  have hlength : (place ++ "." ++ s).length - s.toList.length - 1 = place.toList.length := by
    rw [← String.length_toList, htext, List.length_append, List.length_cons]
    omega
  unfold splitAtLastDot
  rw [hcolumn]
  dsimp only
  rw [List.reverse_reverse, hlength, htext, List.take_left, String.ofList_toList,
    String.ofList_toList]

theorem dot_notMem_splitAtLastDot (s : String) : '.' ∉ (splitAtLastDot s).2.toList := by
  intro h
  simp only [splitAtLastDot, String.toList_ofList, List.mem_reverse] at h
  exact absurd (List.mem_takeWhile_imp h) (by simp)

/-! ## Columns of tables -/

theorem Table.mem_columnNames_iff {t : Table} (distinct : t.attributeNames.Nodup) {name : String} :
    name ∈ t.columnNames ↔ ∃ a, t.attribute? name = some a ∧ a.collection = false := by
  simp [columnNames, attribute?, lookup_eq_some_iff_mem distinct]

namespace Catalog

variable {catalog : Catalog} {table name word : String} {r : Column} {t : Table}

theorem hasColumn_iff_mem (ht : catalog.table? table = some t) (distinct : t.attributeNames.Nodup) :
    catalog.HasColumn ⟨table, name⟩ ↔ name ∈ t.columnNames := by
  rw [Table.mem_columnNames_iff distinct]
  constructor
  · rintro ⟨t', a, ht', ha, hcollection⟩
    obtain rfl := Option.some.inj (ht.symm.trans ht')
    exact ⟨a, ha, hcollection⟩
  · rintro ⟨a, ha, hcollection⟩
    exact ⟨t, a, ht, ha, hcollection⟩

theorem resolve_eq_ok_iff : catalog.resolve table word = .ok r ↔ catalog.HasColumn r ∧
    (splitAtLastDot word).2 = r.name ∧
    (if (splitAtLastDot word).1.isEmpty then table else (splitAtLastDot word).1) = r.table := by
  obtain ⟨place, name⟩ := r
  unfold resolve HasColumn
  generalize splitAtLastDot word = parts
  obtain ⟨before, column⟩ := parts
  dsimp only
  generalize (if before.isEmpty then table else before) = here
  constructor
  · intro h
    cases ht : catalog.table? here with
    | none => simp [ht] at h
    | some t =>
      cases ha : t.attribute? column with
      | none => simp [ht, ha] at h
      | some a =>
        simp only [ht, ha, ite_error_eq_ok, Except.ok.injEq, Column.mk.injEq] at h
        obtain ⟨hcollection, rfl, rfl⟩ := h
        exact ⟨⟨t, a, ht, ha, eq_false_of_ne_true hcollection⟩, rfl, rfl⟩
  · rintro ⟨⟨t, a, ht, ha, hcollection⟩, rfl, rfl⟩
    simp [ht, ha, hcollection]

theorem resolve_bare (h : catalog.HasColumn ⟨table, name⟩) (hdot : '.' ∉ name.toList) :
    catalog.resolve table name = .ok ⟨table, name⟩ := by
  apply resolve_eq_ok_iff.mpr
  rw [splitAtLastDot_of_notMem hdot]
  exact ⟨h, rfl, rfl⟩

theorem resolve_dotted (h : catalog.HasColumn ⟨table, name⟩) (hdot : '.' ∉ name.toList)
    (htable : table ≠ "") (here : String) :
    catalog.resolve here (table ++ "." ++ name) = .ok ⟨table, name⟩ := by
  apply resolve_eq_ok_iff.mpr
  rw [splitAtLastDot_append table hdot]
  exact ⟨h, rfl, if_neg (by simpa using htable)⟩

theorem dot_notMem_of_resolve (h : catalog.resolve table word = .ok r) : '.' ∉ r.name.toList := by
  obtain ⟨-, hname, -⟩ := resolve_eq_ok_iff.mp h
  rw [← hname]
  exact dot_notMem_splitAtLastDot word

end Catalog

/-! ## Words for columns -/

namespace ClauseCompiler

open SqlFragment.Filter

variable {c : ClauseCompiler} {key word : String} {r : Column} {w : Written}

/-- Whether a word stands for a column in the leaves of filters, wherever they are, and in orders. -/
structure StandsFor (c : ClauseCompiler) (word : String) (r : Column) : Prop where
  leaf {path : Path} {es : Entries} {l : Leaf} (h : IsLeaf es l) (field : l.field = word) :
    predicateAt c.condition path (.map es) =
      (c.registry.test l.operator l.operand).map fun test => .condition ⟨r, test⟩
  order (direction : Value) : c.sortTerm (.text word) direction =
    (SortDirection.ofValue direction).map fun d => r.pieces ++ [.word (" " ++ d.keyword)]

theorem standsFor_of_resolve (h : c.catalog.resolve c.table word = .ok r) (hword : word ≠ "") :
    c.StandsFor word r where
  leaf := by
    intro path es l hl hfield
    rw [hl.predicateAt_eq (hfield ▸ hword), condition, hfield, h, ok_bind]
    cases c.registry.test l.operator l.operand <;> rfl
  order direction := by
    rw [sortTerm, ok_bind]
    dsimp only
    rw [h, ok_bind]
    cases SortDirection.ofValue direction <;> rfl

/-! ## The default order -/

/-- The order by a key, with the last row first. -/
def lastFirst (key : String) : Criteria := { sort := .map [(.text key, .direction .desc)] }

/-- The clause that orders rows by a column, with the last row first. -/
def orderPieces (r : Column) : List Piece := .word " ORDER BY " :: (r.pieces ++ [.word " DESC"])

theorem parts_lastFirst (h : c.catalog.resolve c.table key = .ok r) :
    c.parts (lastFirst key) = .ok (none, orderPieces r) := by
  have hterm : c.sortTerm (.text key) (.direction .desc) = .ok (r.pieces ++ [.word " DESC"]) := by
    rw [sortTerm, ok_bind]
    dsimp only
    rw [h]
    rfl
  have hsort : c.sortPieces (lastFirst key).sort = .ok (orderPieces r) := by
    rw [sortPieces, lastFirst, if_neg (by simp [Value.isTruthy]), Value.asMap]
    change ([(Value.text key, Value.direction .desc)].mapM (fun e => c.sortTerm e.1 e.2) >>= _) = _
    rw [List.mapM_cons, hterm]
    rfl
  rw [parts, hsort]
  rfl

theorem label_orderPieces (r : Column) : ∀ p ∈ orderPieces r, p.label? = none := by
  simp [orderPieces, Column.pieces, Piece.label?]

theorem spellable_orderPieces (d : Dialect) (r : Column) :
    Spellable d (body d none (orderPieces r)) := by
  have hbody : body d none (orderPieces r) = orderPieces r ++ [] := (List.append_nil _).symm
  rw [hbody]
  constructor
  · rw [slotNames_silent (label_orderPieces r)]
    exact List.forall_mem_nil _
  · rw [members_silent (label_orderPieces r)]
    exact List.forall_mem_nil _

theorem exists_compile_lastFirst (hstart : c.start = 1) (hlegible : c.IsLegible (lastFirst key))
    (h : c.catalog.resolve c.table key = .ok r) : ∃ w, c.compile (lastFirst key) = .ok w := by
  have hrestyled (s : String) : c.restyled s = .ok s := by
    rw [restyled, renumber, hstart]
    exact ite_self _
  exact ⟨⟨_, _⟩, (compile_eq_ok hlegible).mpr ⟨none, orderPieces r, parts_lastFirst h,
    spellable_orderPieces c.dialect r, hrestyled _, rfl⟩⟩

theorem compiled_lastFirst (hlegible : c.IsLegible (lastFirst key))
    (h : c.catalog.resolve c.table key = .ok r) (hw : c.compile (lastFirst key) = .ok w) :
    c.Compiled (lastFirst key) w none (orderPieces r) := by
  obtain ⟨p?, tail, hc⟩ := exists_compiled hlegible hw
  obtain ⟨rfl, rfl⟩ := Prod.mk.inj (Except.ok.inj ((parts_lastFirst h).symm.trans hc.parts))
  exact hc

/-- What a text says that orders rows by a column, with the last row first. -/
def orderLexemes (table name : Lexeme) : List Lexeme :=
  [.word "ORDER", .word "BY", table, .symbol '.', name, .word "DESC"]

theorem lexemes_lastFirst (hc : c.Compiled (lastFirst key) w none (orderPieces r)) :
    w.values = [] ∧ c.lexemes w.text = orderLexemes (settledName c.dialect c.style c.start r.table)
      (settledName c.dialect c.style c.start r.name) := by
  have hwords (d : Dialect) : lex d.mark " ORDER BY ".toList = [.word "ORDER", .word "BY"] ∧
      lex d.mark ".".toList = [.symbol '.'] ∧ lex d.mark " DESC".toList = [.word "DESC"] := by
    cases d <;> decide
  obtain ⟨horder, hdot, hdesc⟩ := hwords c.dialect
  have hbody : body c.dialect none (orderPieces r) = orderPieces r ++ [] := (List.append_nil _).symm
  constructor
  · rw [hc.values, hbody, valuesOf_silent (label_orderPieces r)]
    cases c.style <;> rfl
  · rw [hc.lexemes, settledPieces]
    change lex c.dialect.mark " ORDER BY ".toList ++ (_ :: (lex c.dialect.mark ".".toList ++
      (_ :: (lex c.dialect.mark " DESC".toList ++ [])))) = _
    rw [horder, hdot, hdesc]
    rfl

end ClauseCompiler

theorem shownName_first {d : Dialect} {style : MarkerStyle} {s : String}
    (h : squeezedName s = s) :
    shownName d style 1 s = String.ofList ((d.quoting style).shown s.toList) := by
  have hsqueezed : squeezeChars s.toList = s.toList := by
    rw [← String.toList_inj, squeezedName, String.toList_ofList] at h
    exact h
  rw [shownName, shownChars, if_neg (by simp), squeezeChars_shown, hsqueezed]

namespace QueryCompiler

open ClauseCompiler

variable {q : QueryCompiler} {c : ClauseCompiler} {catalog : Catalog} {d : Dialect}
  {style : MarkerStyle} {table key placeholder aliasStart : String}

theorem exists_rows_empty
    (hq : create catalog table (.dialect d) none style.name placeholder aliasStart = .ok q)
    (hc : ClauseCompiler.create catalog table d style 1 .usual = .ok c)
    (hkey : catalog.primaryKey table = .ok key) {w : Written}
    (hw : c.compile (lastFirst key) = .ok w) :
    ∃ f, (q.rows (some .empty)).outcome = .ok f ∧ f.text = dropConnective ("" ++ "" ++ w.text) ∧
      f.values = w.values := by
  have hstyle : MarkerStyle.ofName style.name = .ok style := by cases style <;> rfl
  rw [create, hstyle] at hq
  obtain rfl := Except.ok.inj hq
  let sorted : Query := ⟨lastFirst key, []⟩
  have hsort : (Query.sortedByKey .empty catalog table .desc).outcome = .ok sorted := by
    change (Traced.outcome (_ >>= fun key => _)) = _
    simp only [Traced.outcome_bind, Traced.outcome_of, hkey]
    rfl
  have hclauses : (usualSource catalog d style table 1 (lastFirst key)).outcome =
      .ok (.ofWritten w) := by
    simp only [usualSource, ClauseCompiler.run, Traced.outcome_bind, Traced.outcome_of, hc, hw,
      ok_bind]
    rfl
  simp only [rows, Traced.outcome_bind]
  exact ⟨_, bind_eq_ok.mpr ⟨sorted, hsort, bind_eq_ok.mpr ⟨_, hclauses, rfl⟩⟩, rfl, rfl⟩

/-- What the rows of a query that asks for nothing are ordered by. -/
theorem rows_empty
    (hq : create catalog table (.dialect d) none style.name placeholder aliasStart = .ok q)
    (hc : ClauseCompiler.create catalog table d style 1 .usual = .ok c)
    (hkey : catalog.primaryKey table = .ok key)
    (hcolumn : catalog.resolve table key = .ok ⟨table, key⟩)
    (hlegible : c.IsLegible (lastFirst key)) :
    ∃ f, (q.rows (some .empty)).outcome = .ok f ∧ f.values = [] ∧ lex d.mark f.text.toList =
      orderLexemes (.name (shownName d style 1 table)) (.name (shownName d style 1 key)) := by
  obtain ⟨t, ht, rfl⟩ := map_eq_ok.mp hc
  obtain ⟨w, hw⟩ := exists_compile_lastFirst rfl hlegible hcolumn
  have hcompiled := compiled_lastFirst hlegible hcolumn hw
  obtain ⟨hvalues, hlexemes⟩ := lexemes_lastFirst hcompiled
  obtain ⟨f, hf, htext, hbound⟩ := exists_rows_empty hq hc hkey hw
  have hquoter : q.quoter = .dialect d := by
    obtain ⟨_, -, rfl⟩ := map_eq_ok.mp hq
    rfl
  have hreads := (readsAs_rows hcompiled hquoter []).lexemes
  rw [settledName_eq, settledName_eq] at hlexemes
  refine ⟨f, hf, hbound.trans hvalues, ?_⟩
  rw [htext]
  exact hreads.trans hlexemes

end QueryCompiler

namespace Catalog

open ClauseCompiler

variable {catalog : Catalog} {table : String} {t : Table}

/-- A column whose name has no dot is named by itself in queries on its table, and behind the name of
its table and a dot in all others; and if it is the primary key, then a query that asks for nothing
is ordered by it. A column whose name has a dot has no name. -/
theorem columns_are_addressable (distinct : ∀ e ∈ catalog.tables, e.2.attributeNames.Nodup)
    (ht : catalog.table? table = some t) :
    (∀ name ∈ t.columnNames, name ≠ "" → '.' ∉ name.toList →
      ∀ c : ClauseCompiler, c.catalog = catalog →
        (c.table = table → c.StandsFor name ⟨table, name⟩) ∧
        (table ≠ "" → c.StandsFor (table ++ "." ++ name) ⟨table, name⟩)) ∧
    (∀ key ∈ t.columnNames, t.primaryKey = .ok key → '.' ∉ key.toList →
      ∀ d (style : MarkerStyle) placeholder aliasStart q c,
        QueryCompiler.create catalog table (.dialect d) none style.name placeholder aliasStart =
          .ok q →
        ClauseCompiler.create catalog table d style 1 .usual = .ok c → c.IsLegible (lastFirst key) →
        squeezedName table = table → squeezedName key = key →
        ∃ f, (q.rows (some .empty)).outcome = .ok f ∧ f.values = [] ∧
          lex d.mark f.text.toList =
            orderLexemes (.name (String.ofList ((d.quoting style).shown table.toList)))
              (.name (String.ofList ((d.quoting style).shown key.toList)))) ∧
    ∀ here word r, catalog.resolve here word = .ok r → '.' ∉ r.name.toList := by
  have hcolumn (name : String) := @hasColumn_iff_mem catalog table name t ht
    (distinct _ (mem_of_lookup ht))
  refine ⟨?_, ?_, fun here word r => dot_notMem_of_resolve⟩
  · intro name hname hfilled hdot c hcatalog
    have hhas := (hcolumn name).mpr hname
    constructor
    · intro htable
      apply standsFor_of_resolve _ hfilled
      rw [hcatalog, htable]
      exact resolve_bare hhas hdot
    · intro htable
      apply standsFor_of_resolve
      · rw [hcatalog]
        exact resolve_dotted hhas hdot htable c.table
      · intro hempty
        exact htable (by simp [String.append_eq_empty_iff] at hempty)
  · intro key hkey hprimary hdot d style placeholder aliasStart q c hq hc hlegible hplace hname
    have hprimary' : catalog.primaryKey table = .ok key := by
      rw [primaryKey, Catalog.table, ht]
      exact hprimary
    have hresolve := resolve_bare ((hcolumn key).mpr hkey) hdot
    obtain ⟨f, hf, hvalues, htext⟩ :=
      QueryCompiler.rows_empty hq hc hprimary' hresolve hlegible
    rw [shownName_first hplace, shownName_first hname] at htext
    exact ⟨f, hf, hvalues, htext⟩

section Sales

theorem create_shopCompiler (style : MarkerStyle) :
    ClauseCompiler.create shop "sales" .default style 1 .usual = .ok (shopCompiler style 1) := rfl

/-- Tags of sales are named in two ways, and sales are ordered by their number. -/
theorem columns_are_addressable_sales : ∃ f,
    (shopCompiler .question 1).StandsFor "tag" ⟨"sales", "tag"⟩ ∧
    (shopCompiler .question 1).StandsFor "sales.tag" ⟨"sales", "tag"⟩ ∧
    ((shopQueries .question).rows (some .empty)).outcome = .ok f ∧ f.values = [] ∧
    lex Dialect.default.mark f.text.toList = orderLexemes (.name "sales") (.name "id") := by
  obtain ⟨t, ht, hcolumns, hkey⟩ : ∃ t, shop.table? "sales" = some t ∧
      t.columnNames = ["id", "tag", "origin"] ∧ t.primaryKey = .ok "id" := ⟨_, rfl, rfl, rfl⟩
  have hdistinct : ∀ e ∈ shop.tables, e.2.attributeNames.Nodup := by decide
  obtain ⟨hwords, horder, -⟩ := columns_are_addressable hdistinct ht
  rw [hcolumns] at hwords horder
  obtain ⟨hbare, hdotted⟩ := hwords "tag" (by decide) (by decide) (by decide)
    (shopCompiler .question 1) rfl
  obtain ⟨f, hf, hvalues, htext⟩ := horder "id" (by decide) hkey (by decide) .default .question
    QueryCompiler.usualPlaceholder QueryCompiler.usualAliasStart _ _
    (QueryCompiler.create_shop .question) (create_shopCompiler .question)
    (isLegible_of_catalog isPlain_shop (by decide)) (by decide) (by decide)
  exact ⟨f, hbare rfl, hdotted (by decide), hf, hvalues, htext⟩

/-- Users, and sales with a column that is named like one of users. -/
def namesakes : Catalog :=
  ⟨[(.text "users", ⟨"users", [("id", { primaryKey := true })]⟩),
    (.text "sales", ⟨"sales", [("id", { primaryKey := true }), ("users.id", {})]⟩)]⟩

def namesakesCompiler : ClauseCompiler := ⟨namesakes, "sales", .default, .question, 1, .usual⟩

/-- In queries on sales, the name of that column means the one of users. -/
theorem dotted_name_means_another : ∃ t, namesakes.table? "sales" = some t ∧
    "users.id" ∈ t.columnNames ∧ namesakesCompiler.StandsFor "users.id" ⟨"users", "id"⟩ ∧
    ¬namesakesCompiler.StandsFor "users.id" ⟨"sales", "users.id"⟩ := by
  have hword : "users.id" = "users" ++ "." ++ "id" := by decide
  have hresolve : namesakes.resolve "sales" "users.id" = .ok ⟨"users", "id"⟩ := by
    rw [hword]
    exact resolve_dotted ⟨_, _, rfl, rfl, rfl⟩ (by decide) (by decide) "sales"
  have hstands : namesakesCompiler.StandsFor "users.id" ⟨"users", "id"⟩ :=
    standsFor_of_resolve hresolve (by decide)
  refine ⟨_, rfl, by decide, hstands, fun hsales => ?_⟩
  have hsame := (hstands.order (.direction .asc)).symm.trans (hsales.order (.direction .asc))
  simp [SortDirection.ofValue, Column.pieces, Except.map] at hsame

end Sales

end Catalog

end SqlFragment
