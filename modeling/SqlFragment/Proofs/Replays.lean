import SqlFragment.Proofs.Locality

/-!
Reported queries compiled again. A compiled fragment reports the query that it was compiled from, with
the sort that was added if there was none. Nothing is added to a query that is reported, so it gives
the same fragment again: for the rows, and in the place of the criteria that select in an association.
-/
namespace SqlFragment

/-! ## Reported queries -/

/-- A query as it is reported: as it was given when it has a sort, and else sorted by the primary key of
its table. -/
inductive IsReported (catalog : Catalog) (table : String) (direction : SortDirection) :
    Query → Query → Prop
  | given {query : Query} (sorted : query.criteria.sort ≠ .null) :
    IsReported catalog table direction query query
  | byKey {k : Criteria} {as : List Association} {key : String} (unsorted : k.sort = .null)
      (primaryKey : catalog.primaryKey table = .ok key) :
    IsReported catalog table direction ⟨k, as⟩
      ⟨{ k with sort := .map [(.text key, .direction direction)] }, as⟩

section Reported

variable {catalog : Catalog} {table : String} {direction : SortDirection} {query r : Query}

theorem Query.hasSort_iff : query.hasSort = true ↔ query.criteria.sort ≠ .null := by
  rw [hasSort, Criteria.hasSort]
  cases query.criteria.sort <;> simp [Value.isNull]

theorem outcome_sortedByKey (h : query.hasSort = true) :
    (query.sortedByKey catalog table direction).outcome = .ok query := by
  rw [Query.sortedByKey, if_pos h]
  rfl

theorem sortedByKey_eq_ok : (query.sortedByKey catalog table direction).outcome = .ok r ↔
    IsReported catalog table direction query r := by
  constructor
  · intro hrun
    by_cases h : query.hasSort = true
    · obtain rfl := Except.ok.inj ((outcome_sortedByKey h).symm.trans hrun)
      exact .given (Query.hasSort_iff.mp h)
    · obtain ⟨k, as⟩ := query
      rw [Query.sortedByKey, if_neg h] at hrun
      simp only [Traced.outcome_bind, Traced.outcome_of, Traced.outcome_emit, ok_bind,
        bind_eq_ok] at hrun
      obtain ⟨key, hkey, hrun⟩ := hrun
      obtain rfl := Except.ok.inj hrun
      rw [Query.hasSort_iff, not_not] at h
      exact .byKey h hkey
  · rintro (hsorted | ⟨hunsorted, hkey⟩)
    · exact outcome_sortedByKey (Query.hasSort_iff.mpr hsorted)
    · rw [Query.sortedByKey, if_neg (by simp [Query.hasSort_iff, hunsorted])]
      simp only [Traced.outcome_bind, Traced.outcome_of, hkey]
      rfl

namespace IsReported

theorem hasSort (h : IsReported catalog table direction query r) : r.hasSort = true := by
  cases h with
  | given sorted => exact Query.hasSort_iff.mpr sorted
  | byKey => rfl

theorem associations (h : IsReported catalog table direction query r) :
    r.associations = query.associations := by
  cases h <;> rfl

end IsReported

end Reported

/-! ## Associations that select by a reported query -/

namespace Association

/-- The table of the rows that an association selects. -/
def selectedTable : Association → String
  | .parentOwnsKey _ step | .childOwnsKey _ step | .junction _ _ step => step.link.childTable

/-- The association with other criteria in the step that selects. No step of a join does. -/
def selectBy (query : Query) : Association → Association
  | .parentOwnsKey name step => .parentOwnsKey name step
  | .childOwnsKey name step => .childOwnsKey name (step.withCriteria (some query))
  | .junction name link target => .junction name link (target.withCriteria (some query))

end Association

/-- Associations that select by the queries which their subqueries report, wherever `chosen` says so.
Subqueries stand in the order of the associations that need one. -/
def replayed (chosen : Nat → Bool) : List Association → List Subquery → List Association
  | .parentOwnsKey name step :: as, ss => .parentOwnsKey name step :: replayed chosen as ss
  | a :: as, s :: ss =>
    (if chosen 0 then a.selectBy s.criteria else a) :: replayed (fun i => chosen (i + 1)) as ss
  | as, _ => as

section Replayed

variable {a : Association} {chosen : Nat → Bool}

theorem replayed_of_join (h : a.strategy = .parentOwnsKey) (as : List Association)
    (ss : List Subquery) : replayed chosen (a :: as) ss = a :: replayed chosen as ss := by
  cases a with
  | parentOwnsKey => rw [replayed]
  | childOwnsKey | junction => cases h

theorem replayed_of_subquery (h : a.strategy ≠ .parentOwnsKey) (as : List Association) (s : Subquery)
    (ss : List Subquery) : replayed chosen (a :: as) (s :: ss) =
      (if chosen 0 then a.selectBy s.criteria else a) ::
        replayed (fun i => chosen (i + 1)) as ss := by
  cases a with
  | parentOwnsKey => exact absurd rfl h
  | childOwnsKey | junction =>
    rw [replayed]
    intro _ _ hjoin
    cases hjoin

end Replayed

/-- All of a subquery besides its association. -/
def Subquery.report (s : Subquery) : String × List Value × Query × String :=
  (s.template, s.values, s.criteria, s.placeholder)

namespace QueryCompiler

variable {q : QueryCompiler}

/-! ## Rows -/

theorem isReported_rows {query : Query} {f : Fragment} (h : (q.rows (some query)).outcome = .ok f) :
    ∃ r, f.query = some r ∧ IsReported q.catalog q.table .desc query r ∧
      (q.rows (some r)).outcome = .ok f := by
  simp only [rows, Traced.outcome_bind, bind_eq_ok] at h
  obtain ⟨r, hsorted, clauses, hclauses, ending, hending, -, -, hf⟩ := h
  have hreported := sortedByKey_eq_ok.mp hsorted
  obtain rfl := Except.ok.inj hf
  refine ⟨r, rfl, hreported, ?_⟩
  have hjoins : q.joins r = q.joins query := by rw [joins, hreported.associations, joins]
  simp only [rows, Traced.outcome_bind, outcome_sortedByKey hreported.hasSort, hclauses, hending,
    hjoins, ok_bind]
  rfl

/-! ## Subqueries -/

theorem nested_reported {step : JoinStep} {start : Int} {r : Query} {clauses : Clauses}
    (h : (q.nested step start).outcome = .ok (r, clauses)) :
    IsReported q.catalog step.link.childTable .asc (step.criteria.getD .empty) r ∧
      (q.nested (step.withCriteria (some r)) start).outcome = .ok (r, clauses) := by
  simp only [nested, Traced.outcome_bind, bind_eq_ok, Traced.outcome_pure, Except.ok.injEq,
    Prod.mk.injEq] at h
  obtain ⟨r', hsorted, clauses', hclauses, rfl, rfl⟩ := h
  have hreported := sortedByKey_eq_ok.mp hsorted
  refine ⟨hreported, ?_⟩
  simp only [nested, JoinStep.withCriteria, Option.getD_some, Traced.outcome_bind,
    outcome_sortedByKey hreported.hasSort, hclauses, ok_bind]
  rfl

/-- An association that selects by what its subquery reports gets the same subquery. -/
structure Replays (q : QueryCompiler) (a : Association) (start : Int) (s : Subquery) : Prop where
  association : s.association = a
  reported : IsReported q.catalog a.selectedTable .asc a.nestedQuery s.criteria
  again : (q.subqueryOf (a.selectBy s.criteria) start).outcome =
    .ok (some { s with association := a.selectBy s.criteria })

theorem replays_of_subqueryOf {a : Association} {start : Int} {s : Subquery}
    (h : (q.subqueryOf a start).outcome = .ok (some s)) : q.Replays a start s := by
  cases a with
  | parentOwnsKey name step => cases h
  | childOwnsKey name step =>
    simp only [subqueryOf, Traced.outcome_bind, Traced.outcome_of, bind_eq_ok,
      subquery_eq_ok_iff] at h
    obtain ⟨⟨r, clauses⟩, hnested, _, ⟨hwritable, rfl⟩, hs⟩ := h
    obtain rfl := Option.some.inj (Except.ok.inj hs)
    obtain ⟨hreported, hagain⟩ := nested_reported hnested
    refine ⟨rfl, hreported, ?_⟩
    change (q.subqueryOf (.childOwnsKey name (step.withCriteria (some r))) start).outcome = _
    simp only [subqueryOf, Traced.outcome_bind, Traced.outcome_of, hagain, ok_bind,
      subquery_eq_ok_iff.mpr ⟨hwritable, rfl⟩]
    rfl
  | junction name link target =>
    simp only [subqueryOf, Traced.outcome_bind, Traced.outcome_of, bind_eq_ok,
      subquery_eq_ok_iff] at h
    obtain ⟨⟨r, clauses⟩, hnested, table, htable, _, ⟨hwritable, rfl⟩, hs⟩ := h
    obtain rfl := Option.some.inj (Except.ok.inj hs)
    obtain ⟨hreported, hagain⟩ := nested_reported hnested
    have htable : (q.catalog.table (target.withCriteria (some r)).link.childTable) = .ok table :=
      htable
    refine ⟨rfl, hreported, ?_⟩
    change (q.subqueryOf (.junction name link (target.withCriteria (some r))) start).outcome = _
    simp only [subqueryOf, Traced.outcome_bind, Traced.outcome_of, hagain, ok_bind, htable,
      subquery_eq_ok_iff.mpr ⟨hwritable, rfl⟩]
    rfl

section Subqueries

variable {a : Association} {as : List Association} {start : Int} {ss : List Subquery}

theorem subqueryOf_eq_none_iff :
    (q.subqueryOf a start).outcome = .ok none ↔ a.strategy = .parentOwnsKey := by
  cases a with
  | parentOwnsKey name step => exact iff_of_true rfl rfl
  | childOwnsKey name step =>
    refine iff_of_false (fun h => ?_) (fun h => by cases h)
    simp only [subqueryOf, Traced.outcome_bind, bind_eq_ok] at h
    obtain ⟨_, -, _, -, hs⟩ := h
    cases hs
  | junction name link target =>
    refine iff_of_false (fun h => ?_) (fun h => by cases h)
    simp only [subqueryOf, Traced.outcome_bind, bind_eq_ok] at h
    obtain ⟨_, -, _, -, _, -, hs⟩ := h
    cases hs

theorem subqueriesFrom_of_join (h : a.strategy = .parentOwnsKey) :
    (q.subqueriesFrom (a :: as) start).outcome = (q.subqueriesFrom as start).outcome := by
  rw [subqueriesFrom, Traced.outcome_bind, subqueryOf_eq_none_iff.mpr h]
  rfl

theorem subqueriesFrom_of_subquery {s : Subquery}
    (hs : (q.subqueryOf a start).outcome = .ok (some s))
    (hss : (q.subqueriesFrom as (start + s.values.length)).outcome = .ok ss) :
    (q.subqueriesFrom (a :: as) start).outcome = .ok (s :: ss) := by
  rw [subqueriesFrom, Traced.outcome_bind, hs, ok_bind]
  simp only [Traced.outcome_bind, Traced.outcome_emit, ok_bind, hss]
  rfl

/-- The first association is a join and gives nothing, or it gives the first subquery. -/
theorem subqueriesFrom_cons_eq_ok (h : (q.subqueriesFrom (a :: as) start).outcome = .ok ss) :
    a.strategy = .parentOwnsKey ∧ (q.subqueriesFrom as start).outcome = .ok ss ∨
      ∃ s rest, a.strategy ≠ .parentOwnsKey ∧ (q.subqueryOf a start).outcome = .ok (some s) ∧
        (q.subqueriesFrom as (start + s.values.length)).outcome = .ok rest ∧ ss = s :: rest := by
  by_cases hjoin : a.strategy = .parentOwnsKey
  · exact .inl ⟨hjoin, (subqueriesFrom_of_join hjoin).symm.trans h⟩
  · rw [subqueriesFrom, Traced.outcome_bind, bind_eq_ok] at h
    obtain ⟨s?, hs, h⟩ := h
    cases s? with
    | none => exact absurd (subqueryOf_eq_none_iff.mp hs) hjoin
    | some s =>
      simp only [Traced.outcome_bind, Traced.outcome_emit, Traced.outcome_pure, ok_bind,
        bind_eq_ok, Except.ok.injEq] at h
      obtain ⟨rest, hrest, rfl⟩ := h
      exact .inr ⟨s, rest, hjoin, hs, hrest, rfl⟩

/-- Subqueries report the queries of their associations, in order. -/
theorem forall₂_isReported (h : (q.subqueriesFrom as start).outcome = .ok ss) :
    List.Forall₂ (fun a s => s.association = a ∧
        IsReported q.catalog a.selectedTable .asc a.nestedQuery s.criteria)
      (as.filter fun a => a.strategy ≠ .parentOwnsKey) ss := by
  induction as generalizing start ss with
  | nil =>
    obtain rfl := Except.ok.inj h
    exact .nil
  | cons a as ih =>
    rcases subqueriesFrom_cons_eq_ok h with ⟨hjoin, h⟩ | ⟨s, rest, hneeds, hs, hrest, rfl⟩
    · rw [List.filter_cons_of_neg (by simpa using hjoin)]
      exact ih h
    · have hreplays := replays_of_subqueryOf hs
      rw [List.filter_cons_of_pos (by simpa using hneeds)]
      exact .cons ⟨hreplays.association, hreplays.reported⟩ (ih hrest)

/-- Subqueries are compiled again from the queries that they report. -/
theorem exists_subqueriesFrom_replayed (h : (q.subqueriesFrom as start).outcome = .ok ss)
    (chosen : Nat → Bool) : ∃ ss', (q.subqueriesFrom (replayed chosen as ss) start).outcome = .ok ss' ∧
      ss'.map Subquery.report = ss.map Subquery.report := by
  induction as generalizing start ss chosen with
  | nil =>
    obtain rfl := Except.ok.inj h
    exact ⟨[], rfl, rfl⟩
  | cons a as ih =>
    rcases subqueriesFrom_cons_eq_ok h with ⟨hjoin, h⟩ | ⟨s, rest, hneeds, hs, hrest, rfl⟩
    · rw [replayed_of_join hjoin, subqueriesFrom_of_join hjoin]
      exact ih h chosen
    · obtain ⟨ss', hss', hreports⟩ := ih hrest fun i => chosen (i + 1)
      rw [replayed_of_subquery hneeds, List.map_cons, ← hreports]
      cases chosen 0 with
      | false => exact ⟨s :: ss', subqueriesFrom_of_subquery hs hss', rfl⟩
      | true =>
        exact ⟨_, subqueriesFrom_of_subquery (replays_of_subqueryOf hs).again hss', rfl⟩

end Subqueries

theorem rows_reported {query : Option Query} {f : Fragment}
    (hf : (q.rows query).outcome = .ok f) : (q.rows f.query).outcome = .ok f ∧
      Option.Rel (IsReported q.catalog q.table .desc) query f.query := by
  cases query with
  | none =>
    obtain rfl := Except.ok.inj hf
    exact ⟨rfl, .none⟩
  | some query =>
    obtain ⟨r, hr, hreported, hagain⟩ := isReported_rows hf
    rw [hr]
    exact ⟨hagain, .some hreported⟩

/-- What is reported gives the same again: the query of a fragment the same fragment, and the criteria
of subqueries, in the place of those that they were compiled from, the same subqueries. Reported
queries differ from those that were given only in a sort by the primary key, where there was none. -/
theorem reports_are_fixed (q : QueryCompiler) (query : Option Query) :
    (∀ f, (q.rows query).outcome = .ok f →
      (q.rows f.query).outcome = .ok f ∧
      Option.Rel (IsReported q.catalog q.table .desc) query f.query) ∧
    ∀ start ss, (q.subqueries query start).outcome = .ok ss → ∀ chosen,
      List.Forall₂ (fun a s => s.association = a ∧
          IsReported q.catalog a.selectedTable .asc a.nestedQuery s.criteria)
        ((query.elim [] Query.associations).filter fun a => a.strategy ≠ .parentOwnsKey) ss ∧
      ∃ ss', (q.subqueries (query.map fun p => ⟨p.criteria, replayed chosen p.associations ss⟩)
          start).outcome = .ok ss' ∧
        ss'.map Subquery.report = ss.map Subquery.report := by
  refine ⟨fun f hf => rows_reported hf, fun start ss hss chosen => ?_⟩
  cases query with
  | none =>
    obtain rfl := Except.ok.inj hss
    exact ⟨.nil, [], rfl, rfl⟩
  | some query => exact ⟨forall₂_isReported hss, exists_subqueriesFrom_replayed hss chosen⟩

/-- A whole compilation of the query that it reports gives the same compilation. -/
theorem compile_reported {query : Option Query} {r : Fragment × List Subquery}
    (h : (q.compile query).outcome = .ok r) : (q.compile r.1.query).outcome = .ok r := by
  simp only [compile, Traced.outcome_bind, bind_eq_ok] at h
  obtain ⟨f, hf, ss, hss, hr⟩ := h
  obtain rfl := Except.ok.inj hr
  obtain ⟨hagain, hreported⟩ := rows_reported hf
  have hsame (start : Int) : q.subqueries f.query start = q.subqueries query start := by
    generalize f.query = reported at hreported
    cases hreported with
    | none => rfl
    | some hreported => rw [subqueries, subqueries, hreported.associations]
  simp only [compile, Traced.outcome_bind, hagain, hsame, ok_bind, hss]
  rfl

/-- All sales with all that stem from them, in no given order. -/
def unsorted : Query := ⟨{}, [.childOwnsKey (.text "origins") ⟨fromOrigin, none⟩]⟩

/-- All sales in the order of their numbers. -/
def byNumber (direction : SortDirection) : Criteria where
  sort := .map [(.text "id", .direction direction)]

theorem exists_compile_byNumber (direction : SortDirection) :
    ∃ w, (shopCompiler .question 1).compile (byNumber direction) = .ok w := by
  have hclauses : (shopCompiler .question 1).clauses (byNumber direction) =
      .ok (["sales"], [.word " ORDER BY ", .name "sales", .word ".", .name "id",
        .word (" " ++ direction.keyword)]) := by
    cases direction <;> cbv
  rw [ClauseCompiler.compile, hclauses]
  cases direction <;> exact ⟨_, rfl⟩

theorem reports_are_fixed_sales : ∃ f s s',
    ((shopQueries .question).rows (some unsorted)).outcome = .ok f ∧
    f.query = some ⟨byNumber .desc, unsorted.associations⟩ ∧
    ((shopQueries .question).rows f.query).outcome = .ok f ∧
    ((shopQueries .question).subqueries (some unsorted) 1).outcome = .ok [s] ∧
    s.criteria = ⟨byNumber .asc, []⟩ ∧
    ((shopQueries .question).subqueries
      (some ⟨{}, [.childOwnsKey (.text "origins") ⟨fromOrigin, some s.criteria⟩]⟩) 1).outcome =
        .ok [s'] ∧
    s'.report = s.report := by
  obtain ⟨hrows, hsubqueries⟩ := reports_are_fixed (shopQueries .question) (some unsorted)
  obtain ⟨w, hw⟩ := exists_compile_byNumber .desc
  obtain ⟨w', hw'⟩ := exists_compile_byNumber .asc
  obtain ⟨f, hf, hquery⟩ : ∃ f, ((shopQueries .question).rows (some unsorted)).outcome = .ok f ∧
      f.query = some ⟨byNumber .desc, unsorted.associations⟩ := by
    simp only [rows, Traced.outcome_bind]
    refine ⟨⟨_, _, _⟩, bind_eq_ok.mpr ⟨⟨byNumber .desc, unsorted.associations⟩, rfl,
      bind_eq_ok.mpr ⟨_, outcome_request hw unsorted.associations, rfl⟩⟩, rfl⟩
  obtain ⟨s, hs, hcriteria⟩ : ∃ s, ((shopQueries .question).subqueries (some unsorted) 1).outcome =
      .ok [s] ∧ s.criteria = ⟨byNumber .asc, []⟩ := by
    have hnested : ((shopQueries .question).nested ⟨fromOrigin, none⟩ 1).outcome =
        .ok (⟨byNumber .asc, []⟩, .ofWritten w') := by
      simp only [nested, Traced.outcome_bind]
      exact bind_eq_ok.mpr ⟨⟨byNumber .asc, []⟩, rfl,
        bind_eq_ok.mpr ⟨_, outcome_request hw' [], rfl⟩⟩
    simp only [subqueries, unsorted, subqueriesFrom, subqueryOf, Traced.outcome_bind, hnested]
    exact ⟨_, rfl, rfl⟩
  obtain ⟨-, ss', hss', hreports⟩ := hsubqueries 1 [s] hs fun _ => true
  obtain ⟨s', rfl, hreport⟩ := List.map_eq_singleton_iff.mp hreports
  exact ⟨f, s, s', hf, hquery, (hrows f hf).1, hs, hcriteria, hss', hreport⟩

end QueryCompiler

end SqlFragment
