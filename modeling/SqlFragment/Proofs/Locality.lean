import SqlFragment.Proofs.Fragments

/-!
What a fragment depends on. Subqueries are compiled one after the other, and one hands nothing to the
next but the number of its values. The rows need only the joins of a query besides its own criteria,
and a subquery only the links of its association and the criteria of the step that selects.
-/
namespace SqlFragment

/-! ## Runs after runs -/

namespace Traced

variable {α β γ : Type}

theorem run_assoc (t : Traced α) (f : α → Traced β) (g : β → Traced γ) :
    t >>= f >>= g = t >>= fun a => f a >>= g := by
  obtain ⟨es, outcome⟩ := t
  cases outcome with
  | error e => rfl
  | ok a =>
    change Traced.bind ⟨es ++ (f a).events, (f a).outcome⟩ g =
      ⟨es ++ (Traced.bind (f a) g).events, (Traced.bind (f a) g).outcome⟩
    unfold Traced.bind
    cases (f a).outcome with
    | error e => rfl
    | ok b =>
      dsimp only
      rw [List.append_assoc]

theorem run_pure (t : Traced α) : id <$> t = t := by
  obtain ⟨es, outcome⟩ := t
  cases outcome with
  | error e => rfl
  | ok a => exact congrArg (Traced.mk · (.ok a)) (List.append_nil es)

instance : LawfulMonad Traced := LawfulMonad.mk' Traced run_pure (fun _ _ => rfl) run_assoc

end Traced

namespace QueryCompiler

variable {q : QueryCompiler} {start : Int}

/-- The number of the values of subqueries. -/
def valueCount (ss : List Subquery) : Nat := (ss.flatMap Subquery.values).length

theorem valueCount_cons (s : Subquery) (ss : List Subquery) :
    valueCount (s :: ss) = s.values.length + valueCount ss := by
  rw [valueCount, List.flatMap_cons, List.length_append, valueCount]

/-- What comes later is compiled as if it stood alone, but that its markers are counted on. -/
theorem subqueriesFrom_append (as bs : List Association) (start : Int) :
    q.subqueriesFrom (as ++ bs) start = do
      let ss ← q.subqueriesFrom as start
      let more ← q.subqueriesFrom bs (start + valueCount ss)
      return ss ++ more := by
  induction as generalizing start with
  | nil => simp [subqueriesFrom, valueCount]
  | cons a as ih =>
    rw [List.cons_append, subqueriesFrom, subqueriesFrom, bind_assoc]
    apply bind_congr
    intro s?
    cases s? with
    | none => exact ih start
    | some s =>
      simp only [ih, bind_assoc, pure_bind, valueCount_cons, Int.natCast_add, Int.add_assoc,
        List.cons_append]

/-- Associations of which the row owns the key count nothing. -/
theorem subqueriesFrom_filter (as : List Association) (start : Int) :
    q.subqueriesFrom (as.filter fun a => a.strategy ≠ .parentOwnsKey) start =
      q.subqueriesFrom as start := by
  induction as generalizing start with
  | nil => rfl
  | cons a as ih =>
    have hkeep (b : Association) (s : Int) :
        q.subqueriesFrom (b :: as.filter fun a => a.strategy ≠ .parentOwnsKey) s =
          q.subqueriesFrom (b :: as) s := by
      rw [subqueriesFrom, subqueriesFrom]
      simp only [ih]
    cases a with
    | parentOwnsKey name step => exact ih start
    | childOwnsKey name step => exact hkeep _ start
    | junction name link target => exact hkeep _ start

/-- What fails is the first association that fails behind those that do not. -/
theorem subqueriesFrom_eq_error {as : List Association} {e : Error} :
    (q.subqueriesFrom as start).outcome = .error e ↔
      ∃ before a after ss, as = before ++ a :: after ∧
        (q.subqueriesFrom before start).outcome = .ok ss ∧
        (q.subqueryOf a (start + valueCount ss)).outcome = .error e := by
  constructor
  · intro h
    induction as generalizing start with
    | nil => cases h
    | cons a as ih =>
      rw [subqueriesFrom, Traced.outcome_bind] at h
      cases ha : (q.subqueryOf a start).outcome with
      | error e' =>
        rw [ha] at h
        obtain rfl := Except.error.inj h
        exact ⟨[], a, as, [], rfl, rfl, by simpa [valueCount] using ha⟩
      | ok s? =>
        rw [ha, ok_bind] at h
        cases s? with
        | none =>
          obtain ⟨before, b, after, ss, rfl, hbefore, hb⟩ := ih h
          refine ⟨a :: before, b, after, ss, rfl, ?_, hb⟩
          rw [subqueriesFrom, Traced.outcome_bind, ha]
          exact hbefore
        | some s =>
          simp only [Traced.outcome_bind, Traced.outcome_emit, ok_bind] at h
          cases hrest : (q.subqueriesFrom as (start + s.values.length)).outcome with
          | ok ss =>
            rw [hrest] at h
            cases h
          | error e' =>
            rw [hrest] at h
            obtain rfl := Except.error.inj h
            obtain ⟨before, b, after, ss, rfl, hbefore, hb⟩ := ih hrest
            refine ⟨a :: before, b, after, s :: ss, rfl, ?_, ?_⟩
            · simp only [subqueriesFrom, Traced.outcome_bind, ha, ok_bind, Traced.outcome_emit,
                hbefore]
              rfl
            · -- markers are counted on from those of the subquery before
              rw [valueCount_cons, Int.natCast_add, ← Int.add_assoc]
              exact hb
  · rintro ⟨before, a, after, ss, rfl, hbefore, ha⟩
    rw [subqueriesFrom_append, Traced.outcome_bind, hbefore, ok_bind, Traced.outcome_bind,
      subqueriesFrom, Traced.outcome_bind, ha]
    rfl

/-! ## What is not told apart -/

/-- Queries that no step of compiling tells apart. -/
structure Blind (q : QueryCompiler) (R : Query → Query → Prop) : Prop where
  hasFilter : ∀ {p r}, R p r → p.hasFilter = r.hasFilter
  sortedByKey : ∀ {p r}, R p r → ∀ table direction,
    Alike R (p.sortedByKey q.catalog table direction).outcome
      (r.sortedByKey q.catalog table direction).outcome
  request : ∀ {p r}, R p r → ∀ table start,
    (q.request table start p).outcome = (q.request table start r).outcome

/-- Associations that need the same subquery, when queries under `R` need the same clauses. -/
inductive SameNeeds (R : Query → Query → Prop) : Association → Association → Prop
  | parentOwnsKey {name name' : Value} {step step' : JoinStep} :
    SameNeeds R (.parentOwnsKey name step) (.parentOwnsKey name' step')
  | childOwnsKey {name name' : Value} {step step' : JoinStep} (link : step.link = step'.link)
      (criteria : R (step.criteria.getD .empty) (step'.criteria.getD .empty)) :
    SameNeeds R (.childOwnsKey name step) (.childOwnsKey name' step')
  | junction {name name' : Value} {step step' target target' : JoinStep}
      (link : step.link = step'.link) (targetLink : target.link = target'.link)
      (criteria : R (target.criteria.getD .empty) (target'.criteria.getD .empty)) :
    SameNeeds R (.junction name step target) (.junction name' step' target')

def textOf (f : Fragment) : String × List Value := (f.text, f.values)

def fragmentOf (s : Subquery) : String × List Value := (s.template, s.values)

section Blindness

variable {R : Query → Query → Prop} (h : q.Blind R)
include h

theorem alike_rows {p r : Query} (hpr : R p r) (hjoins : q.joins p = q.joins r) :
    Alike (fun f g => textOf f = textOf g) (q.rows (some p)).outcome (q.rows (some r)).outcome := by
  simp only [rows, Traced.outcome_bind, Traced.outcome_of, Traced.outcome_emit,
    Traced.outcome_pure, hjoins]
  refine (h.sortedByKey hpr _ _).bind fun p r hpr => ?_
  rw [h.request hpr]
  refine (Alike.refl _).bind ?_
  rintro clauses _ rfl
  refine (Alike.refl _).bind ?_
  rintro ending _ rfl
  rw [h.hasFilter hpr]
  exact .ok rfl

theorem alike_nested {step step' : JoinStep} (hlink : step.link = step'.link)
    (hcriteria : R (step.criteria.getD .empty) (step'.criteria.getD .empty)) (start : Int) :
    Alike (fun f g => f.1.hasFilter = g.1.hasFilter ∧ f.2 = g.2)
      (q.nested step start).outcome (q.nested step' start).outcome := by
  simp only [nested, Traced.outcome_bind, Traced.outcome_pure, hlink]
  refine (h.sortedByKey hcriteria _ _).bind fun p r hpr => ?_
  rw [h.request hpr]
  refine (Alike.refl _).bind ?_
  rintro clauses _ rfl
  exact .ok ⟨h.hasFilter hpr, rfl⟩

omit h in
theorem alike_subquery {a b : Association} {head : String} {p r : Query} {k : Clauses}
    (hfilter : p.hasFilter = r.hasFilter) :
    Alike (fun s t => fragmentOf s = fragmentOf t) (q.subquery a head p k)
      (q.subquery b head r k) := by
  unfold subquery
  split
  · exact .ok (by simp [fragmentOf, appended, hfilter])
  · exact .error _

theorem alike_subqueryOf {a b : Association} (hab : SameNeeds R a b) (start : Int) :
    Alike (fun s t => s.map fragmentOf = t.map fragmentOf)
      (q.subqueryOf a start).outcome (q.subqueryOf b start).outcome := by
  cases hab with
  | parentOwnsKey => exact .ok rfl
  | childOwnsKey link criteria =>
    simp only [subqueryOf, Traced.outcome_bind, Traced.outcome_pure, Traced.outcome_of, link]
    refine (alike_nested h link criteria start).bind ?_
    rintro ⟨p, k⟩ ⟨r, _⟩ ⟨hfilter, rfl⟩
    exact (alike_subquery hfilter).bind fun s t hst => .ok (congrArg some hst)
  | junction link targetLink criteria =>
    simp only [subqueryOf, Traced.outcome_bind, Traced.outcome_pure, Traced.outcome_of, link,
      targetLink]
    refine (alike_nested h targetLink criteria start).bind ?_
    rintro ⟨p, k⟩ ⟨r, _⟩ ⟨hfilter, rfl⟩
    refine (Alike.refl _).bind ?_
    rintro table _ rfl
    exact (alike_subquery hfilter).bind fun s t hst => .ok (congrArg some hst)

theorem alike_subqueriesFrom {as bs : List Association} (hab : List.Forall₂ (SameNeeds R) as bs)
    (start : Int) :
    Alike (fun ss ts => ss.map fragmentOf = ts.map fragmentOf)
      (q.subqueriesFrom as start).outcome (q.subqueriesFrom bs start).outcome := by
  induction hab generalizing start with
  | nil => exact .ok rfl
  | cons hfirst _ ih =>
    simp only [subqueriesFrom, Traced.outcome_bind]
    refine (alike_subqueryOf h hfirst start).bind fun s? t? hst => ?_
    cases s? with
    | none =>
      obtain rfl : t? = none := by simpa using hst.symm
      exact ih start
    | some s =>
      cases t? with
      | none => cases hst
      | some t =>
        have hst : fragmentOf s = fragmentOf t := Option.some.inj hst
        -- markers are counted on alike, because fragments have equal values
        have hvalues : s.values = t.values := congrArg Prod.snd hst
        simp only [Traced.outcome_bind, Traced.outcome_emit, Traced.outcome_pure, hvalues]
        refine (ih _).bind fun ss ts hrest => ?_
        apply Alike.ok
        rw [List.map_cons, List.map_cons, hst, hrest]

end Blindness

/-- A sort is added to both queries or to none, when a view of criteria shows whether one is there. -/
theorem alike_sortedByKey {view : Criteria → Criteria}
    (hsort : ∀ k l, view k = view l → k.hasSort = l.hasSort)
    (hadded : ∀ k l v, view k = view l → view { k with sort := v } = view { l with sort := v })
    {p r : Query} (h : view p.criteria = view r.criteria) (catalog : Catalog) (table : String)
    (direction : SortDirection) :
    Alike (fun p r => view p.criteria = view r.criteria)
      (p.sortedByKey catalog table direction).outcome
      (r.sortedByKey catalog table direction).outcome := by
  unfold Query.sortedByKey
  rw [show p.hasSort = r.hasSort from hsort _ _ h]
  split
  · exact .ok h
  · simp only [Traced.outcome_bind, Traced.outcome_of, Traced.outcome_emit]
    refine (Alike.refl _).bind ?_
    rintro key _ rfl
    apply Alike.ok
    exact hadded _ _ _ h

/-- Queries with the same criteria, whatever their associations. -/
def SameCriteria (p r : Query) : Prop := p.criteria = r.criteria

theorem blind_sameCriteria (q : QueryCompiler) : q.Blind SameCriteria where
  hasFilter h := congrArg Criteria.hasFilter h
  sortedByKey {p r} h table direction := by
    apply @alike_sortedByKey id _ _ p r h
    · intro k l h
      exact congrArg Criteria.hasSort h
    · intro k l v h
      exact congrArg (fun k : Criteria => { k with sort := v }) h
  request {p r} h table start := by
    have h : p.criteria = r.criteria := h
    rw [request, request, h]

theorem joins_eq_of_links {p r : Query}
    (h : p.associations.filterMap ownedLink? = r.associations.filterMap ownedLink?) :
    q.joins p = q.joins r := by
  rw [joins_eq, joins_eq, h]

/-- Subqueries are compiled one after the other, each from the number behind the values before it,
and the first that fails is what fails; joins take no part. The rows depend on the joins and on the
criteria of the query, and a subquery on the links of its association and on the criteria of the
step that selects. -/
theorem associations_are_local (q : QueryCompiler) :
    (∀ k as bs start, q.subqueries (some ⟨k, as ++ bs⟩) start = do
      let ss ← q.subqueries (some ⟨k, as⟩) start
      let more ← q.subqueries (some ⟨k, bs⟩) (start + valueCount ss)
      return ss ++ more) ∧
    (∀ k as start e, (q.subqueries (some ⟨k, as⟩) start).outcome = .error e ↔
      ∃ before a after ss, as = before ++ a :: after ∧
        (q.subqueries (some ⟨k, before⟩) start).outcome = .ok ss ∧
        (q.subqueryOf a (start + valueCount ss)).outcome = .error e) ∧
    (∀ k as start, q.subqueries (some ⟨k, as.filter fun a => a.strategy ≠ .parentOwnsKey⟩) start =
      q.subqueries (some ⟨k, as⟩) start) ∧
    (∀ p r : Query, p.criteria = r.criteria →
      p.associations.filterMap ownedLink? = r.associations.filterMap ownedLink? →
      (q.rows (some p)).outcome.map textOf = (q.rows (some r)).outcome.map textOf) ∧
    ∀ (p r : Query) start, List.Forall₂ (SameNeeds SameCriteria) p.associations r.associations →
      (q.subqueries (some p) start).outcome.map (List.map fragmentOf) =
        (q.subqueries (some r) start).outcome.map (List.map fragmentOf) := by
  have hblind := blind_sameCriteria q
  refine ⟨?_, ?_, ?_, ?_, ?_⟩
  · intro _ as bs start
    exact subqueriesFrom_append as bs start
  · intro _ as start e
    exact subqueriesFrom_eq_error
  · intro _ as start
    exact subqueriesFrom_filter as start
  · intro p r hcriteria hlinks
    exact (alike_rows hblind hcriteria (joins_eq_of_links hlinks)).map_eq
  · intro p r start hneeds
    exact (alike_subqueriesFrom hblind hneeds start).map_eq

/-- The origins by another name, with the origins of each origin. -/
def originsOfOrigins : Association :=
  .childOwnsKey (.text "all origins") ⟨fromOrigin, some ⟨tagged, [origins]⟩⟩

theorem associations_are_local_sales : ∃ f s t t',
    ((shopQueries .dollar).rows (some shopQuery)).outcome = .ok f ∧
    ((shopQueries .dollar).rows (some ⟨tagged, []⟩)).outcome.map textOf = .ok (textOf f) ∧
    ((shopQueries .dollar).subqueries (some shopQuery) 1).outcome = .ok [s] ∧
    ((shopQueries .dollar).subqueries (some shopQuery) 4).outcome = .ok [t] ∧
    ((shopQueries .dollar).subqueries (some ⟨tagged, [origins] ++ [originsOfOrigins]⟩) 1).outcome =
      .ok [s, t'] ∧
    fragmentOf t' = fragmentOf t := by
  obtain ⟨happend, -, -, hrows, hedited⟩ := associations_are_local (shopQueries .dollar)
  obtain ⟨w, hw, hlength⟩ := exists_compile_tagged .dollar (.inl rfl)
  obtain ⟨w', hw', -⟩ := exists_compile_tagged .dollar (.inr rfl)
  obtain ⟨f, hf, -⟩ := exists_rows hw
  obtain ⟨s, hs, hvalues⟩ := exists_subqueryOf hw
  obtain ⟨t, ht, -⟩ := exists_subqueryOf hw'
  have hfirst := subqueries_shopQuery hs
  have hfour := subqueries_shopQuery ht
  have halone := hrows ⟨tagged, []⟩ shopQuery rfl rfl
  rw [hf] at halone
  have hsame := hedited ⟨tagged, [originsOfOrigins]⟩ shopQuery 4 (.cons (.childOwnsKey rfl rfl) .nil)
  rw [hfour] at hsame
  obtain ⟨ts, hts, hfragments⟩ := map_eq_ok.mp hsame
  obtain ⟨t', rfl, hfragment⟩ := List.map_eq_singleton_iff.mp hfragments
  refine ⟨f, s, t, t', hf, halone, hfirst, hfour, ?_, hfragment⟩
  have hstart : (1 : Int) + valueCount [s] = 4 := by
    simp [valueCount, hvalues, hlength]
  rw [happend, Traced.outcome_bind]
  refine bind_eq_ok.mpr ⟨[s], hfirst, ?_⟩
  rw [hstart, Traced.outcome_bind]
  exact bind_eq_ok.mpr ⟨[t'], hts, rfl⟩

end QueryCompiler

end SqlFragment
