import SqlFragment.Proofs.Alignment

/-!
Conditions of whole fragments. What selects the rows of a subquery for one row stays a condition of
its own, whatever filter follows it, and connectives stand where there is a filter.
-/
namespace SqlFragment

open Phrase

/-! ## Conditions behind conditions -/

theorem conditionIn_append {style : MarkerStyle} {xs : List Lexeme}
    (h : ∀ l ∈ xs, l.marker? style = none ∧ l.startsClause = false) (ls : List Lexeme) :
    conditionIn style (xs ++ ls) = xs ++ conditionIn style ls := by
  have hxs : xs.map (Lexeme.unnumbered style) = xs := by
    refine (List.map_congr_left fun l hl => ?_).trans (List.map_id xs)
    rw [Lexeme.unnumbered, (h l hl).1]
    rfl
  rw [conditionIn, List.map_append, hxs, List.takeWhile_append_of_pos fun l hl => by simp [h l hl]]
  rfl

/-- A filter behind a comparison is a conjunction of the comparison and what the filter means. -/
theorem meaning_behind {own ls : List Lexeme} {u : List Phrase} {us : List (List Phrase)}
    (hown : Compares own u) (h : Conjoins ls us) :
    meaningOf (own ++ .word "AND" :: ls) = some (.any [.all (.leaf own :: us.map unit)]) := by
  have hall := (conjoins_of_unit hown.parses hown.isUnit).and h
  rw [hall.parses.meaningOf_eq, hall.meaning_eq, List.map_append, List.map_singleton, hown.unit_eq]
  rfl

theorem Compares.meaningOf_eq {own : List Lexeme} {u : List Phrase} (h : Compares own u) :
    meaningOf own = some (.any [.all [.leaf own]]) := by
  have hall := conjoins_of_unit h.parses h.isUnit
  have hu : between "AND" [u] = u := rfl
  rw [h.parses.meaningOf_eq, ← hu, hall.meaning_eq, List.map_singleton, h.unit_eq]

/-! ## Clauses behind filters -/

section Tails

variable {c : ClauseCompiler} {k : Criteria} {w : Written} {p? : Option Predicate}
  {tail : List Piece}

/-- Clauses behind a filter hold no connective. -/
theorem connective_notMem_shown (h : ∀ p ∈ tail, p.IsTail) :
    ∀ l ∈ c.shown tail, l ≠ .word "WHERE" ∧ l ≠ .word "AND" := by
  have hwords : ∀ w ∈ tailWords, .word "WHERE" ∉ lex c.dialect.mark w.toList ∧
      .word "AND" ∉ lex c.dialect.mark w.toList := by
    cases c.dialect <;> decide
  intro l hl
  obtain ⟨p, hp, hl⟩ := List.mem_flatMap.mp hl
  have htail := h p hp
  cases p with
  | word w =>
    obtain ⟨hwhere, hand⟩ := hwords w htail
    rw [Piece.segments, List.flatMap_singleton] at hl
    refine ⟨?_, ?_⟩
    · rintro rfl
      exact hwhere hl
    · rintro rfl
      exact hand hl
  | name s =>
    obtain rfl := List.mem_singleton.mp hl
    obtain ⟨t, ht⟩ := exists_settledName c.dialect c.style c.start s
    rw [ht]
    exact ⟨Lexeme.noConfusion, Lexeme.noConfusion⟩
  | marker label v =>
    obtain rfl := List.mem_singleton.mp hl
    exact ⟨by decide, by decide⟩
  | members _ _ _ => contradiction

/-- Without a filter a text holds no connective, and is nothing or starts with a clause. -/
theorem compiled_without_filter (h : c.Compiled k w none tail) :
    c.filterLexemes w.text = [] ∧
    (.word "WHERE" ∉ c.lexemes w.text ∧ .word "AND" ∉ c.lexemes w.text) ∧
    (c.lexemes w.text = [] ∨
      ∃ l ls, c.lexemes w.text = l :: ls ∧ l.startsClause = true) := by
  have hshown : (c.lexemes w.text).map (Lexeme.unnumbered c.style) = c.shown tail :=
    h.unnumbered_eq
  have hconnective := connective_notMem_shown (c := c) (ClauseCompiler.isTail_of_parts h.parts)
  have hword {v : String} (hv : ∀ style, (Lexeme.word v).marker? style = none)
      (hmem : .word v ∈ c.lexemes w.text) : .word v ∈ c.shown tail := by
    rw [← hshown]
    refine List.mem_map.mpr ⟨_, hmem, ?_⟩
    rw [Lexeme.unnumbered, hv]
    rfl
  refine ⟨h.filterLexemes_eq, ⟨fun hmem => ?_, fun hmem => ?_⟩, ?_⟩
  · exact (hconnective _ (hword (QueryCompiler.marker?_connective (.inl rfl)) hmem)).1 rfl
  · exact (hconnective _ (hword (QueryCompiler.marker?_connective (.inr rfl)) hmem)).2 rfl
  · rcases ClauseCompiler.shown_tail (ClauseCompiler.tidy_tail h.parts).2 with hnil | ⟨l, ls, hcons, hl⟩
    · exact .inl (List.map_eq_nil_iff.mp (hshown.trans hnil))
    · obtain ⟨l', ls', htext, hl', -⟩ := List.map_eq_cons_iff.mp (hshown.trans hcons)
      refine .inr ⟨l', ls', htext, ?_⟩
      unfold Lexeme.unnumbered at hl'
      split at hl'
      · rw [← hl'] at hl
        contradiction
      · rw [hl', hl]

variable {own : List Lexeme} {u : List Phrase}

/-- A filter goes on as a conjunction with a comparison before it. -/
theorem meaning_filtered {p : Predicate} (h : c.Compiled k w (some p) tail) (hown : Compares own u)
    (hsilent : ∀ l ∈ own, l.marker? c.style = none) :
    ∃ ms, meaningOf (c.filterLexemes w.text) = some (.any [.all ms]) ∧
      meaningOf (conditionIn c.style (own ++ .word "AND" :: c.lexemes w.text)) =
        some (.any [.all (.leaf own :: ms)]) := by
  obtain ⟨⟨us, hus, -⟩, -⟩ := reads_predicate c p (ClauseCompiler.isFull_of_parts h.parts)
  have hfilter : c.filterLexemes w.text = c.shown (p.conjunctText c.dialect) := h.filterLexemes_eq
  have hinside : ∀ l ∈ own ++ [.word "AND"], l.marker? c.style = none ∧ l.startsClause = false :=
    List.forall_mem_append.mpr ⟨fun l hl => ⟨hsilent l hl, hown.parses.inside l hl⟩,
      List.forall_mem_singleton.mpr ⟨QueryCompiler.marker?_connective (.inr rfl) _, by decide⟩⟩
  have hcondition : conditionIn c.style (own ++ .word "AND" :: c.lexemes w.text) =
      own ++ .word "AND" :: c.filterLexemes w.text := by
    have hall := conditionIn_append hinside (c.lexemes w.text)
    rwa [List.append_assoc, List.append_assoc] at hall
  refine ⟨us.map unit, ?_, ?_⟩
  · rw [hfilter, hus.parses.meaningOf_eq, hus.meaning_eq]
  · rw [hcondition, hfilter, meaning_behind hown hus]

/-- Without a filter a comparison stays alone. -/
theorem meaning_unfiltered (h : c.Compiled k w none tail) (hown : Compares own u)
    (hsilent : ∀ l ∈ own, l.marker? c.style = none) :
    meaningOf (conditionIn c.style (own ++ c.lexemes w.text)) = some (.any [.all [.leaf own]]) := by
  have hnone : conditionIn c.style (c.lexemes w.text) = [] := h.filterLexemes_eq
  rw [conditionIn_append fun l hl => ⟨hsilent l hl, hown.parses.inside l hl⟩, hnone,
    List.append_nil, hown.meaningOf_eq]

end Tails

/-! ## Correlations -/

section Correlations

variable {d : Dialect}

/-- What selects the rows of a subquery is one comparison. -/
theorem compares_correlation {a : Association} (h : a.correlation d ≠ []) :
    ∃ u, Compares (a.correlation d) u := by
  have hname (s w : String) : d.headName s ≠ .word w := by simp [Dialect.headName]
  cases a with
  | parentOwnsKey => exact absurd rfl h
  | childOwnsKey name step =>
    refine ⟨_, .flat ?_, isUnit_of_connects ?_, _, _, rfl, hname _ _, hname _ _⟩
    · simp [Parses.Flat, Association.correlation, Lexeme.startsClause, Dialect.headName]
    · simp [Association.correlation, connects, isWord, Dialect.headName]
  | junction name link target =>
    have hkey : Parses.Flat (d.headColumn target.link.childTable target.link.childKey) := by
      simp [Parses.Flat, Dialect.headColumn, Dialect.headName, Lexeme.startsClause]
    have hlist : Parses.Flat (.word "SELECT" ::
        (d.headColumn link.link.childTable target.link.parentKey ++
          (.word "FROM" :: d.headName link.link.childTable :: .word "WHERE" ::
            (d.headColumn link.link.childTable link.link.childKey ++
              [.word "=", .word "^?^"])))) := by
      simp [Parses.Flat, Dialect.headColumn, Dialect.headName, Lexeme.startsClause]
    have hall := (Parses.flat hkey).append
      ((parses_word (w := "IN") (by decide)).append (Parses.flat hlist).group)
    simp only [List.cons_append, List.nil_append, List.append_assoc] at hall
    refine ⟨_, hall, isUnit_of_connects ?_, _, _, rfl, hname _ _, hname _ _⟩
    simp [Dialect.headColumn, connects, isWord, Dialect.headName]

theorem and_notMem_correlation (a : Association) : .word "AND" ∉ a.correlation d := by
  cases a <;> simp [Association.correlation, Dialect.headColumn, Dialect.headName]

end Correlations

/-! ## Fragments with conditions -/

namespace QueryCompiler

/-- A subquery of which the condition is the correlation of its association, and behind it the filter of
nested criteria when there is one. -/
structure Correlates (d : Dialect) (a : Association) (s : Subquery) (c : ClauseCompiler)
    (w : Written) (before rest : List Lexeme) : Prop where
  template : lex d.mark s.template.toList =
    .symbol '(' :: (before ++ .word "WHERE" :: (a.correlation d ++ rest)) ++ [.symbol ')']
  first : .word "WHERE" ∉ before
  and_iff : .word "AND" ∈ lex d.mark s.template.toList ↔ a.nestedQuery.hasFilter = true
  filtered : a.nestedQuery.hasFilter = true → rest = .word "AND" :: c.lexemes w.text ∧
    c.filterLexemes w.text ≠ [] ∧ ∃ ms, meaningOf (c.filterLexemes w.text) = some (.any [.all ms]) ∧
      meaningOf (conditionIn c.style (a.correlation d ++ rest)) =
        some (.any [.all (.leaf (a.correlation d) :: ms)])
  unfiltered : a.nestedQuery.hasFilter = false → rest = c.lexemes w.text ∧
    (rest = [] ∨ ∃ l ls, rest = l :: ls ∧ l.startsClause = true) ∧
      meaningOf (conditionIn c.style (a.correlation d ++ rest)) =
        some (.any [.all [.leaf (a.correlation d)]])

/-- A fragment for rows that has a condition when there is a filter. -/
structure Selects (d : Dialect) (query : Query) (f : Fragment) (c : ClauseCompiler) (w : Written)
    (before : List Lexeme) : Prop where
  text : lex d.mark f.text.toList =
    before ++ ((if query.hasFilter then [.word "WHERE"] else []) ++ c.lexemes w.text)
  first : .word "WHERE" ∉ before
  where_iff : .word "WHERE" ∈ lex d.mark f.text.toList ↔ query.hasFilter = true
  filtered : query.hasFilter = true → c.filterLexemes w.text ≠ []
  unfiltered : query.hasFilter = false → c.lexemes w.text = [] ∨
    ∃ l ls, c.lexemes w.text = l :: ls ∧ l.startsClause = true

variable {q : QueryCompiler} {d : Dialect} {style : MarkerStyle} {es : List Event} {start : Int}
  {c : ClauseCompiler} {w : Written} {p? : Option Predicate} {tail : List Piece}

theorem Assembled.correlates {a : Association} {s : Subquery} {head : String}
    {before : List Lexeme} (h : Assembled q d style es start a s head before c w)
    (hc : c.Compiled s.criteria.criteria w p? tail) (ha : a.correlation d ≠ []) :
    Correlates d a s c w before
      ((if a.nestedQuery.hasFilter then [.word "AND"] else []) ++ c.lexemes w.text) := by
  have hfilter : a.nestedQuery.hasFilter = s.criteria.hasFilter := by
    rw [Query.hasFilter, Criteria.hasFilter, ← h.filter]
    rfl
  have hsome : p?.isSome = a.nestedQuery.hasFilter :=
    (ClauseCompiler.isSome_of_parts hc.parts).trans hfilter.symm
  have hlexemes := (h.reads hc).lexemes
  have hfirst : .word "WHERE" ∉ before := fun hmem => (h.isHead.before _ hmem).noWhere rfl
  have hand : .word "AND" ∉ before := fun hmem => (h.isHead.before _ hmem).noAnd rfl
  obtain ⟨u, hu⟩ := compares_correlation ha
  rw [← hfilter, List.append_assoc, List.cons_append] at hlexemes
  cases hhas : a.nestedQuery.hasFilter with
  | true =>
    obtain ⟨p, rfl⟩ : ∃ p, p? = some p := Option.isSome_iff_exists.mp (hsome.trans hhas)
    rw [hhas] at hlexemes
    refine ⟨hlexemes, hfirst, ?_, fun _ => ⟨rfl, ?_, ?_⟩,
      fun h => absurd (h.symm.trans hhas) (by decide)⟩
    · simp [hlexemes, hhas]
    · exact filterLexemes_ne_nil hc ((hfilter.symm.trans hhas :))
    · exact meaning_filtered hc hu (silent_correlation a)
  | false =>
    obtain rfl : p? = none := by simpa [hhas] using hsome
    obtain ⟨-, ⟨-, hrest⟩, hstart⟩ := compiled_without_filter hc
    rw [hhas] at hlexemes
    refine ⟨hlexemes, hfirst, ?_, fun h => absurd (h.symm.trans hhas) (by decide),
      fun _ => ⟨rfl, hstart, ?_⟩⟩
    · simpa [hlexemes, hhas, hand, and_notMem_correlation a] using hrest
    · exact meaning_unfiltered hc hu (silent_correlation a)

theorem RowsAssembled.selects (hq : q.IsUsual d style) {query sorted : Query} {f : Fragment}
    {links : List Link} (h : RowsAssembled q d style es query f links sorted c w)
    (hc : c.Compiled sorted.criteria w p? tail) :
    Selects d query f c w
      ((joinsSegments links).flatMap (Segment.lexemes d d.headStyle)) := by
  have hfilter : query.hasFilter = sorted.criteria.filter.isTruthy := by
    rw [Query.hasFilter, Criteria.hasFilter, h.filter]
  have hsome : p?.isSome = query.hasFilter :=
    (ClauseCompiler.isSome_of_parts hc.parts).trans hfilter.symm
  have hlexemes := (h.reads hq hc).lexemes
  have hfirst : .word "WHERE" ∉ (joinsSegments links).flatMap (Segment.lexemes d d.headStyle) :=
    fun hmem => (isHead_lexemes (isHead_joinsSegments links) _ hmem).noWhere rfl
  cases hhas : query.hasFilter with
  | true =>
    rw [hhas] at hlexemes
    refine ⟨by rw [hhas, hlexemes], hfirst, by simp [hlexemes, hhas], fun _ => ?_,
      fun h => absurd (h.symm.trans hhas) (by decide)⟩
    exact filterLexemes_ne_nil hc (hfilter.symm.trans hhas)
  | false =>
    obtain rfl : p? = none := by simpa [hhas] using hsome
    obtain ⟨-, ⟨hrest, -⟩, hstart⟩ := compiled_without_filter hc
    rw [hhas] at hlexemes
    refine ⟨by rw [hhas, hlexemes], hfirst, ?_, fun h => absurd (h.symm.trans hhas) (by decide),
      fun _ => hstart⟩
    simpa [hlexemes, hhas, hfirst] using hrest

/-- In every subquery the condition is a conjunction that starts with the correlation of its association
and goes on with the nested filter alone, and `AND` stands where there is one. The fragment for rows
has a condition where there is a filter. -/
theorem conditions_keep_correlation {catalog : Catalog} {table aliasStart : String}
    (hq : create catalog table (.dialect d) none style.name usualPlaceholder aliasStart = .ok q) :
    (∀ a start s, (q.subqueryOf a start).outcome = .ok (some s) →
      q.EachRequest d style (requestsIn (q.subqueryOf a start).events) ClauseCompiler.IsLegible →
      ∃ table c w before rest, ClauseCompiler.create q.catalog table d style start .usual = .ok c ∧
        c.compile s.criteria.criteria = .ok w ∧
        s.criteria.criteria.filter = a.nestedQuery.criteria.filter ∧
        Correlates d a s c w before rest) ∧
    ∀ query f, (q.rows (some query)).outcome = .ok f →
      q.EachRequest d style (requestsIn (q.rows (some query)).events) ClauseCompiler.IsLegible →
      ∃ (sorted : Query) (c : ClauseCompiler) (w : Written) (before : List Lexeme),
        ClauseCompiler.create q.catalog q.table d style 1 .usual = .ok c ∧
        f.query = some sorted ∧ c.compile sorted.criteria = .ok w ∧
        sorted.criteria.filter = query.criteria.filter ∧ Selects d query f c w before := by
  have hq := isUsual_of_create hq
  constructor
  · intro a start s hrun hlegible
    have hsubquery : q.subqueryOf a start = ⟨(q.subqueryOf a start).events, .ok (some s)⟩ :=
      congrArg (Traced.mk _) hrun
    obtain ⟨head, before, c, w, h⟩ := subqueryOf_eq hq hsubquery
    obtain ⟨table, hserved⟩ := h.served
    have hrequest := hlegible _ (by rw [hserved.requests]; exact List.mem_singleton_self _) c
      hserved.create
    obtain ⟨p?, tail, hc⟩ := ClauseCompiler.exists_compiled hrequest hserved.compiled
    refine ⟨table, c, w, before, _, hserved.create, hserved.compiled, h.filter,
      h.correlates hc ?_⟩
    cases a with
    | parentOwnsKey => exact nomatch hrun
    | childOwnsKey => exact nofun
    | junction => exact nofun
  · intro query f hrun hlegible
    have hrows : q.rows (some query) = ⟨(q.rows (some query)).events, .ok f⟩ :=
      congrArg (Traced.mk _) hrun
    obtain ⟨links, sorted, c, w, h⟩ := rows_eq hq hrows
    have hrequest := hlegible _ (by rw [h.served.requests]; exact List.mem_singleton_self _) c
      h.served.create
    obtain ⟨p?, tail, hc⟩ := ClauseCompiler.exists_compiled hrequest h.served.compiled
    exact ⟨sorted, c, w, _, h.served.create, h.query_eq, h.served.compiled, h.filter,
      h.selects hq hc⟩

/-- Sales that are new or have any tag. -/
def newOrTagged : Criteria where
  filter := Filter.groupNode .or [Filter.leafNode .eq (.text "tag") (.text "new"),
    Filter.leafNode .notIn (.text "tag") (.list [])]
  sort := .map [(.text "id", .int 1)]

theorem compile_newOrTagged : ∃ w, (shopCompiler .question 4).compile newOrTagged = .ok w ∧
    w.text = "(\"sales\".\"tag\" = ? OR (\"sales\".\"tag\" NOT IN (NULL) OR (1 = 1))) " ++
      "ORDER BY \"sales\".\"id\" ASC" := by
  have hclauses : (shopCompiler .question 4).clauses newOrTagged =
      .ok (["sales"], [.word " \nWHERE ", .word "(", .name "sales", .word ".", .name "tag",
        .word " = ", .marker "param" (.text "new"), .word " OR ", .word "(", .name "sales",
        .word ".", .name "tag", .word " NOT IN (", .members "tag" true [], .word "))", .word ")",
        .word " ORDER BY ", .name "sales", .word ".", .name "id", .word " ASC"]) := by
    cbv
  apply exists_of_toOption
  rw [ClauseCompiler.compile, hclauses]
  decide +kernel

/-- The sales of those kinds that stem from a sale. -/
def newOrigins : Association :=
  .childOwnsKey (.text "origins") ⟨fromOrigin, some ⟨newOrTagged, []⟩⟩

/-- The parentheses keep the two kinds together behind the correlation. -/
theorem conditions_keep_origins : ∃ s c w before rest,
    ((shopQueries .question).subqueryOf newOrigins 4).outcome = .ok (some s) ∧
    s.template = "(SELECT * FROM \"sales\" WHERE \"origin\" = ^?^ AND (\"sales\".\"tag\" = ? OR " ++
      "(\"sales\".\"tag\" NOT IN (NULL) OR (1 = 1))) ORDER BY \"sales\".\"id\" ASC)" ∧
    c.compile s.criteria.criteria = .ok w ∧
    Correlates .default newOrigins s c w before rest := by
  obtain ⟨w, hw, htext⟩ := compile_newOrTagged
  have hs := outcome_subqueryOf rfl hw
  rw [htext] at hs
  obtain ⟨hsubqueries, -⟩ := conditions_keep_correlation (create_shop .question)
  obtain ⟨-, c, w, before, rest, -, hw, -, hcorrelates⟩ := hsubqueries newOrigins 4 _ hs
    (eachRequest_isLegible (create_shop .question) isPlain_shop _)
  refine ⟨_, c, w, before, rest, hs, ?_, hw, hcorrelates⟩
  dsimp only
  decide +kernel

end QueryCompiler

end SqlFragment
