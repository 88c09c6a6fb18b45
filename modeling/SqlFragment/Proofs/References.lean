import SqlFragment.Proofs.Filters

/-!
Names in compiled texts. They are those of the columns that criteria mean, but that white space in
them is squeezed with that of the rest of the text.
-/
namespace SqlFragment

/-! ## Columns that criteria mean -/

namespace ClauseCompiler

variable (c : ClauseCompiler)

/-- The columns of the conditions of a filter, depth first. -/
def filterColumns (filter : Value) : Except Error (List Column) := do
  let node ← Filter.toNode filter
  if !node.isTruthy then return []
  let tree ← Filter.Tree.read .ok (.root "where") node
  tree.leaves.mapM fun l => c.catalog.resolve c.table l.field

/-- The column that a key of a sort means. Only texts mean columns. -/
def sortColumn (key : Value) : Except Error Column :=
  match key with
  | .text s => c.catalog.resolve c.table s
  | _ => .error (.fault .notText)

/-- The columns of a sort in its order. -/
def sortColumns (sort : Value) : Except Error (List Column) :=
  if !sort.isTruthy then .ok []
  else do
    let es ← Error.ofFault sort.asMap
    es.mapM fun e => c.sortColumn e.1

/-- The columns that criteria mean: those of the filter, then those of the sort. -/
def referred (k : Criteria) : Except Error (List Column) := do
  let filter ← c.filterColumns k.filter
  let sort ← c.sortColumns k.sort
  return filter ++ sort

end ClauseCompiler

/-! ## Names of pieces -/

def Column.names (r : Column) : List String := [r.table, r.name]

def Piece.name? : Piece → Option String
  | .name s => some s
  | _ => none

/-- The identifiers of pieces, from left to right. -/
def namesOf (ps : List Piece) : List String := ps.filterMap Piece.name?

section Names

variable (d : Dialect)

theorem namesOf_append (ps qs : List Piece) : namesOf (ps ++ qs) = namesOf ps ++ namesOf qs :=
  List.filterMap_append

theorem namesOf_word (w : String) (ps : List Piece) : namesOf (.word w :: ps) = namesOf ps := rfl

theorem namesOf_joinPieces (w : String) (parts : List (List Piece)) :
    namesOf (joinPieces (.word w) parts) = parts.flatMap namesOf := by
  induction parts with
  | nil => rfl
  | cons p parts ih =>
    cases parts with
    | nil => simp [joinPieces]
    | cons q parts =>
      have hjoin : joinPieces (.word w) (p :: q :: parts) =
          p ++ .word w :: joinPieces (.word w) (q :: parts) := rfl
      rw [hjoin, namesOf_append, namesOf_word, ih]
      rfl

theorem namesOf_grouped (ps : List Piece) : namesOf (Predicate.grouped ps) = namesOf ps := by
  rw [Predicate.grouped, namesOf_append, namesOf_word]
  exact List.append_nil _

/-- A condition names its column once. -/
theorem namesOf_condition (x : Condition) : namesOf (x.pieces d) = x.column.names := by
  obtain ⟨r, test⟩ := x
  cases test with
  | ilike negated pattern =>
    simp only [Condition.pieces]
    split <;> rfl
  | member negated vs => cases negated <;> rfl
  | _ => rfl

theorem namesOf_conjunctText (p : Predicate) :
    namesOf (p.conjunctText d) = namesOf (p.pieces d) := by
  cases p with
  | any ps => exact namesOf_grouped _
  | _ => rfl

mutual

theorem namesOf_predicate : ∀ p : Predicate,
    namesOf (p.pieces d) = p.columns.flatMap Column.names
  | .condition x => by
    rw [Predicate.pieces, namesOf_condition, Predicate.columns, List.flatMap_singleton]
  | .all ps => by
    rw [Predicate.pieces, Predicate.conjunctPieces_eq, namesOf_joinPieces, List.flatMap_map,
      Predicate.columns, ← namesOf_predicates ps]
    exact List.flatMap_congr fun p _ => namesOf_conjunctText d p
  | .any ps => by
    rw [Predicate.pieces, Predicate.disjunctPieces_eq, namesOf_joinPieces, List.flatMap_map,
      Predicate.columns, ← namesOf_predicates ps]
  | .negation p => by
    rw [Predicate.pieces, namesOf_word, namesOf_grouped, namesOf_predicate p, Predicate.columns]

theorem namesOf_predicates : ∀ ps : List Predicate,
    (ps.flatMap fun p => namesOf (p.pieces d)) = (Predicate.columnsOf ps).flatMap Column.names
  | [] => rfl
  | p :: ps => by
    rw [List.flatMap_cons, Predicate.columnsOf, List.flatMap_append, namesOf_predicate p,
      namesOf_predicates ps]

end

theorem namesOf_rangePieces (skip limit : Option Value) :
    namesOf (ClauseCompiler.rangePieces d skip limit) = [] := by
  cases limit <;> cases skip <;> cases d <;> rfl

end Names

/-! ## Names of texts -/

def Lexeme.name? : Lexeme → Option String
  | .name s => some s
  | _ => none

/-- The names among lexemes. -/
def namesIn (ls : List Lexeme) : List String := ls.filterMap Lexeme.name?

/-- A name with every run of white space in it as one space. -/
def squeezedName (s : String) : String := String.ofList (squeezeChars s.toList)

def Column.squeezed (r : Column) : Column := ⟨squeezedName r.table, squeezedName r.name⟩

/-- The name that a segment is. -/
def Segment.name? : Segment → Option String
  | .name s => some s
  | _ => none

section Texts

variable (d : Dialect) (style : MarkerStyle) (start : Int)

/-- The characters of a name in a compiled text, where its mark reads as one. -/
def shownChars (cs : List Char) : List Char :=
  let squeezed := squeezeChars ((d.quoting style).shown cs)
  if style = .dollar ∧ start ≠ 1 then movedChars (start - 1) squeezed else squeezed

/-- A name as a compiled text shows it. -/
def shownName (s : String) : String := String.ofList (shownChars d style start s.toList)

theorem settledName_eq (s : String) :
    settledName d style start s = .name (shownName d style start s) := by
  unfold settledName Lexeme.settled shownName shownChars
  split <;> simp [Lexeme.squeezed, Lexeme.moved]

theorem shownName_question (s : String) : shownName d .question start s = squeezedName s := by
  have hshown : (d.quoting .question).shown s.toList = s.toList := shown_eq_self rfl _
  simp [shownName, shownChars, squeezedName, hshown]

theorem namesIn_append (ls ms : List Lexeme) : namesIn (ls ++ ms) = namesIn ls ++ namesIn ms :=
  List.filterMap_append

theorem namesIn_keyword {w : String} (h : IsKeyword w) : namesIn (lex d.mark w.toList) = [] := by
  apply List.filterMap_eq_nil_iff.mpr
  intro l hl
  have hplain : ∀ c ∈ w.toList, c ≠ d.mark ∧ True := by
    intro c hc
    refine ⟨?_, trivial⟩
    rintro rfl
    exact mark_notMem_keyword d h hc
  rcases mem_lexFrom (.inl rfl) hplain hl with ⟨w, rfl, -⟩ | ⟨c, rfl⟩ <;> rfl

/-- Where each segment shows its own name, segments show theirs in order. -/
theorem namesIn_flatMap {g : Segment → List Lexeme} {f : String → String}
    (h : ∀ s, s.IsOrdinary → namesIn (g s) = s.name?.toList.map f) {ss : List Segment}
    (hss : ∀ s ∈ ss, s.IsOrdinary) :
    namesIn (ss.flatMap g) = (ss.filterMap Segment.name?).map f := by
  induction ss with
  | nil => rfl
  | cons s ss ih =>
    obtain ⟨hs, hss⟩ := List.forall_mem_cons.mp hss
    rw [List.flatMap_cons, namesIn_append, h s hs, ih hss]
    cases s <;> rfl

theorem namesIn_settled {s : Segment} (h : s.IsOrdinary) :
    namesIn (s.settled d style start) = s.name?.toList.map (shownName d style start) := by
  cases s with
  | word w => exact namesIn_keyword d h
  | name s =>
    rw [Segment.settled, settledName_eq]
    rfl
  | marker n v => rfl

theorem filterMap_name_segmentsFrom (n m : Nat) (ps : List Piece) :
    (segmentsFrom d n m ps).filterMap Segment.name? = namesOf ps := by
  induction ps generalizing n m with
  | nil => rfl
  | cons p ps ih =>
    have hpiece : (p.segments d n m).filterMap Segment.name? = namesOf [p] := by
      cases p with
      | members label negated vs =>
        -- a list has words and markers only
        rw [Piece.segments, filterMap_listSegments fun _ => rfl]
        exact List.filterMap_eq_nil_iff.mpr fun _ _ => rfl
      | _ => rfl
    rw [segmentsFrom, List.filterMap_append, hpiece, ih, ← namesOf_append]
    rfl

end Texts

/-! ## Names of criteria -/

theorem flatMap_names_injective {rs ss : List Column}
    (h : rs.flatMap Column.names = ss.flatMap Column.names) : rs = ss := by
  induction rs generalizing ss with
  | nil =>
    cases ss with
    | nil => rfl
    | cons s ss => cases h
  | cons r rs ih =>
    cases ss with
    | nil => cases h
    | cons s ss =>
      -- each column has two names, so that both lists are cut at the same places
      simp only [List.flatMap_cons, Column.names, List.cons_append, List.nil_append,
        List.cons.injEq] at h
      obtain ⟨htable, hname, hrest⟩ := h
      have hcolumn : r = s := by
        cases r
        cases s
        simp_all
      rw [hcolumn, ih hrest]

namespace ClauseCompiler

variable {c : ClauseCompiler} {k : Criteria} {w : Written}

theorem filterColumns_eq_ok {filter : Value} {p? : Option Predicate}
    (h : c.predicate filter = .ok p?) :
    c.filterColumns filter = .ok ((p?.map Predicate.columns).getD []) := by
  obtain ⟨node, hnode, hcases⟩ := predicate_cases h
  rw [filterColumns, hnode]
  obtain ⟨hempty, rfl⟩ | ⟨hsome, tree, htree, rfl⟩ := hcases
  · exact if_pos (by simpa using hempty)
  · obtain ⟨tree₀, htree₀, hleaves⟩ := Filter.Tree.exists_read_leaves htree
    obtain ⟨columns, hcolumns, hall⟩ :=
      exists_mapM_of_mapM (fun l x hx => ⟨x.column, resolve_of_condition hx, rfl⟩) hleaves
    obtain rfl : tree.leaves.map Condition.column = columns := by
      rw [← List.forall₂_eq_eq_eq, List.forall₂_map_left_iff]
      exact hall
    rw [Option.map_some, Option.getD_some, columns_ofTree_eq, ← hcolumns]
    refine (if_neg (by simpa using hsome)).trans ?_
    rw [htree₀]
    rfl

theorem sortColumns_eq_ok {sort : Value} {ps : List Piece} (h : c.sortPieces sort = .ok ps) :
    ∃ columns, c.sortColumns sort = .ok columns ∧ namesOf ps = columns.flatMap Column.names := by
  unfold sortPieces at h
  split at h
  · rename_i hempty
    obtain rfl := Except.ok.inj h
    exact ⟨[], by rw [sortColumns, if_pos hempty], rfl⟩
  · rename_i hsome
    simp only [bind_eq_ok, pure_eq_ok] at h
    obtain ⟨es, hes, terms, hterms, rfl⟩ := h
    have hterm (e : Value × Value) (t : List Piece) (ht : c.sortTerm e.1 e.2 = .ok t) :
        ∃ r, c.sortColumn e.1 = .ok r ∧ namesOf t = r.names := by
      obtain ⟨name, r, d, hkey, hr, rfl⟩ := sortTerm_eq_ok ht
      refine ⟨r, ?_, rfl⟩
      rw [hkey]
      exact hr
    obtain ⟨rs, hrs, hall⟩ := exists_mapM_of_mapM hterm hterms
    refine ⟨rs, ?_, ?_⟩
    · rw [sortColumns, if_neg hsome, hes]
      exact hrs
    · rw [namesOf_word, namesOf_joinPieces]
      clear hterms hrs
      induction hall with
      | nil => rfl
      | cons hfirst _ ih => rw [List.flatMap_cons, List.flatMap_cons, hfirst, ih]

theorem hasColumn_of_filterColumns {filter : Value} {columns : List Column}
    (h : c.filterColumns filter = .ok columns) : ∀ r ∈ columns, c.catalog.HasColumn r := by
  intro r hr
  unfold filterColumns at h
  simp only [bind_eq_ok] at h
  obtain ⟨node, -, h⟩ := h
  split at h
  · obtain rfl := pure_eq_ok.mp h
    contradiction
  · simp only [bind_eq_ok] at h
    obtain ⟨tree, -, hleaves⟩ := h
    obtain ⟨l, -, hl⟩ := exists_of_mem_mapM hleaves r hr
    exact Catalog.hasColumn_of_resolve hl

theorem hasColumn_of_sortColumns {sort : Value} {columns : List Column}
    (h : c.sortColumns sort = .ok columns) : ∀ r ∈ columns, c.catalog.HasColumn r := by
  intro r hr
  unfold sortColumns at h
  split at h
  · obtain rfl := Except.ok.inj h
    contradiction
  · simp only [bind_eq_ok] at h
    obtain ⟨es, -, hkeys⟩ := h
    obtain ⟨⟨key, direction⟩, -, hkey⟩ := exists_of_mem_mapM hkeys r hr
    cases key with
    | text s => exact Catalog.hasColumn_of_resolve hkey
    | _ => cases hkey

theorem hasColumn_of_referred {columns : List Column} (h : c.referred k = .ok columns) :
    ∀ r ∈ columns, c.catalog.HasColumn r := by
  unfold referred at h
  simp only [bind_eq_ok, pure_eq_ok] at h
  obtain ⟨filter, hfilter, sort, hsort, rfl⟩ := h
  exact List.forall_mem_append.mpr
    ⟨hasColumn_of_filterColumns hfilter, hasColumn_of_sortColumns hsort⟩

/-- The names of a predicate and of the clauses behind it. -/
theorem namesOf_body (d : Dialect) (p? : Option Predicate) (tail : List Piece) :
    namesOf (body d p? tail) =
      ((p?.map Predicate.columns).getD []).flatMap Column.names ++ namesOf tail := by
  rw [body, namesOf_append]
  cases p? with
  | none => rfl
  | some p =>
    rw [Option.map_some, Option.map_some, Option.getD_some, Option.getD_some, namesOf_conjunctText,
      namesOf_predicate]

theorem exists_referred_of_parts {p? : Option Predicate} {tail : List Piece}
    (h : c.parts k = .ok (p?, tail)) : ∃ columns, c.referred k = .ok columns ∧
      namesOf (body c.dialect p? tail) = columns.flatMap Column.names := by
  have hfilter := filterColumns_eq_ok (predicate_of_parts h)
  obtain ⟨sort, skip, limit, hsort, rfl⟩ := tail_of_parts h
  obtain ⟨columns, hcolumns, hnames⟩ := sortColumns_eq_ok hsort
  refine ⟨(p?.map Predicate.columns).getD [] ++ columns, ?_, ?_⟩
  · rw [referred, hfilter, hcolumns]
    rfl
  · rw [namesOf_body, namesOf_append, namesOf_rangePieces, List.append_nil, hnames,
      List.flatMap_append]

/-- The names in a compiled text are those of the columns. -/
theorem exists_shown (hlegible : c.IsLegible k) (hw : c.compile k = .ok w) :
    ∃ columns, c.referred k = .ok columns ∧ namesIn (c.lexemes w.text) =
      (columns.flatMap Column.names).map (shownName c.dialect c.style c.start) := by
  obtain ⟨p?, tail, h⟩ := exists_compiled hlegible hw
  obtain ⟨columns, hcolumns, hnames⟩ := exists_referred_of_parts h.parts
  refine ⟨columns, hcolumns, ?_⟩
  rw [h.lexemes, settledPieces, namesIn_flatMap (fun s => namesIn_settled _ _ _)
    (isOrdinary_segments (tidy_body h.parts)), segmentsOf, filterMap_name_segmentsFrom, hnames]

/-- Where markers are question marks, names are squeezed and nothing else. -/
theorem exists_referred (hstyle : c.style = .question) (hlegible : c.IsLegible k)
    (hw : c.compile k = .ok w) : ∃ columns, c.referred k = .ok columns ∧
      namesIn (c.lexemes w.text) = (columns.map Column.squeezed).flatMap Column.names := by
  obtain ⟨columns, hcolumns, hnames⟩ := exists_shown hlegible hw
  refine ⟨columns, hcolumns, ?_⟩
  rw [hnames, hstyle, List.map_flatMap, List.flatMap_map]
  simp only [Column.names, List.map_cons, List.map_nil, shownName_question]
  rfl

/-- A compiled text names the columns of the filter and then those of the sort. Each is a column of
the catalog and no collection; but in the text white space within its names is squeezed, so that
columns whose names differ in white space alone are named alike. -/
theorem names_are_columns (hstyle : c.style = .question) (hlegible : c.IsLegible k)
    (hw : c.compile k = .ok w) : ∃ columns, c.referred k = .ok columns ∧
      (∀ r ∈ columns, c.catalog.HasColumn r) ∧
      namesIn (c.lexemes w.text) = (columns.map Column.squeezed).flatMap Column.names ∧
      (namesIn (c.lexemes w.text) = columns.flatMap Column.names ↔
        ∀ r ∈ columns, r.squeezed = r) ∧
      ∀ {k' w'}, c.IsLegible k' → c.compile k' = .ok w' → w'.text = w.text →
        ∃ columns', c.referred k' = .ok columns' ∧
          columns'.map Column.squeezed = columns.map Column.squeezed := by
  obtain ⟨columns, hcolumns, hnames⟩ := exists_referred hstyle hlegible hw
  refine ⟨columns, hcolumns, hasColumn_of_referred hcolumns, hnames, ?_, ?_⟩
  · rw [hnames]
    have hfixed : columns.map Column.squeezed = columns ↔ ∀ r ∈ columns, r.squeezed = r := by
      conv_lhs => rhs; rw [← List.map_id columns]
      exact List.map_inj_left
    exact ⟨fun h => hfixed.mp (flatMap_names_injective h), fun h => by rw [hfixed.mpr h]⟩
  · intro k' w' hlegible' hw' htext
    obtain ⟨columns', hcolumns', hnames'⟩ := exists_referred hstyle hlegible' hw'
    refine ⟨columns', hcolumns', flatMap_names_injective ?_⟩
    rw [← hnames', htext, hnames]

/-- Sales with two prices, whose names differ in white space. -/
def prices : ClauseCompiler :=
  ⟨⟨[(.text "sales", ⟨"sales", [("id", { primaryKey := true }), ("unit price", {}),
    ("unit  price", {})]⟩)]⟩, "sales", .default, .question, 1, .usual⟩

def pricing (name : String) : Criteria := { filter := .map [(.text name, .int 5)] }

theorem isLegible_prices (k : Criteria) : prices.IsLegible k :=
  isLegible_of_catalog (by decide) (by decide)

theorem clauses_pricing : ∀ name ∈ ["unit price", "unit  price"],
    prices.clauses (pricing name) = .ok (["sales"], [.word " \nWHERE ", .name "sales", .word ".",
      .name name, .word " = ", .marker valueLabel (.int 5)]) := by
  intro name hname
  simp only [List.mem_cons, List.not_mem_nil, or_false] at hname
  rcases hname with rfl | rfl <;> cbv

theorem compile_pricing : ∀ name ∈ ["unit price", "unit  price"], ∃ w,
    prices.compile (pricing name) = .ok w ∧ w.text = "\x22sales\x22.\x22unit price\x22 = ?" := by
  intro name hname
  apply exists_of_toOption
  rw [compile, clauses_pricing name hname]
  revert name
  decide +kernel

theorem referred_pricing : ∀ name ∈ ["unit price", "unit  price"],
    prices.referred (pricing name) = .ok [⟨"sales", name⟩] := by
  intro name hname
  simp only [List.mem_cons, List.not_mem_nil, or_false] at hname
  rcases hname with rfl | rfl <;> cbv

/-- The text for one price names it, and so does that for the other. -/
theorem names_are_columns_prices : ∃ w w', prices.compile (pricing "unit price") = .ok w ∧
    prices.compile (pricing "unit  price") = .ok w' ∧ w'.text = w.text ∧
    namesIn (prices.lexemes w.text) = ["sales", "unit price"] ∧
    prices.referred (pricing "unit  price") = .ok [⟨"sales", "unit  price"⟩] := by
  obtain ⟨w, hw, htext⟩ := compile_pricing "unit price" (by decide)
  obtain ⟨w', hw', htext'⟩ := compile_pricing "unit  price" (by decide)
  have hcolumns := referred_pricing "unit price" (by decide)
  obtain ⟨columns, hreferred, -, -, hnames, -⟩ :=
    names_are_columns rfl (isLegible_prices _) hw
  obtain rfl := Except.ok.inj (hcolumns.symm.trans hreferred)
  refine ⟨w, w', hw, hw', htext'.trans htext.symm, ?_, referred_pricing _ (by decide)⟩
  exact hnames.mpr (by decide)

end ClauseCompiler

end SqlFragment
