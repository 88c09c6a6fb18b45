import SqlFragment.Proofs.Alignment
import SqlFragment.Proofs.Descriptions
import SqlFragment.Proofs.Locality

/-!
Queries written as mappings and read back. Both sides meet at the relation between descriptions and
queries: a mapping that is written for a query describes it, up to the directions of a sort, which
are written as numbers.
-/
namespace SqlFragment

/-! ## Directions as numbers -/

def Criteria.plainSort : Value → Value
  | .map es => .map (es.map fun e => (e.1, plainDirection e.2))
  | v => v

def Criteria.plain (c : Criteria) : Criteria := { c with sort := plainSort c.sort }

namespace Query

mutual

/-- The query with numbers for the directions in its sorts, at every depth. -/
def plain : Query → Query
  | ⟨criteria, associations⟩ => ⟨criteria.plain, plainAll associations⟩

def plainAll : List Association → List Association
  | [] => []
  | a :: as => plainAssociation a :: plainAll as

def plainAssociation : Association → Association
  | .parentOwnsKey name step => .parentOwnsKey name (plainStep step)
  | .childOwnsKey name step => .childOwnsKey name (plainStep step)
  | .junction name link target => .junction name (plainStep link) (plainStep target)

def plainStep : JoinStep → JoinStep
  | ⟨link, criteria⟩ => ⟨link, plainCriteria criteria⟩

def plainCriteria : Option Query → Option Query
  | none => none
  | some query => some (plain query)

end

/-- What a description can say: parts are mappings, names are told apart, can be written and are never
empty, here and in the criteria of every step. -/
inductive Describable : Query → Prop
  | query {criteria : Criteria} {as : List Association}
      (filter : criteria.filter.isPart) (sort : criteria.sort.isPart)
      (own : repeatedName? [] as = none) (written : ∀ a ∈ as, a.name.isWritable)
      (named : ∀ a ∈ as, ∀ s ∈ a.steps, s.link.HasNames)
      (nested : ∀ a ∈ as, ∀ s ∈ a.steps, ∀ q, s.criteria = some q → Describable q) :
      Describable ⟨criteria, as⟩

@[simp] theorem name_plainAssociation (a : Association) : (plainAssociation a).name = a.name := by
  cases a <;> rfl

@[simp] theorem strategy_plainAssociation (a : Association) :
    (plainAssociation a).strategy = a.strategy := by
  cases a <;> rfl

@[simp] theorem steps_plainAssociation (a : Association) :
    (plainAssociation a).steps = a.steps.map plainStep := by
  cases a <;> rfl

@[simp] theorem link_plainStep (s : JoinStep) : (plainStep s).link = s.link := by
  cases s
  rfl

theorem plainAll_eq_map (as : List Association) : plainAll as = as.map plainAssociation := by
  induction as with
  | nil => rfl
  | cons a as ih => rw [plainAll, ih, List.map_cons]

theorem repeatedName?_plainAll (as : List Association) :
    repeatedName? [] (plainAll as) = none ↔ repeatedName? [] as = none := by
  rw [repeatedName?_eq_none, repeatedName?_eq_none, plainAll_eq_map, List.pairwise_map]
  simp

end Query

/-! ## Parts that were given -/

namespace Criteria

theorem get_entry_self {key : String} {v : Value} {rest : Entries}
    (h : Value.get rest key = .null) : Value.get (entry key v ++ rest) key = v := by
  unfold entry
  split
  · rw [List.nil_append, h]
    cases v <;> first | rfl | contradiction
  · simp [Value.get, Value.lookup]

theorem get_entry_ne {key other : String} (h : other ≠ key) (v : Value) (rest : Entries) :
    Value.get (entry other v ++ rest) key = Value.get rest key := by
  unfold entry
  split
  · rfl
  · simp [Value.get, Value.lookup, h]

theorem get_entry_only {key other : String} (h : other ≠ key) (v : Value) :
    Value.get (entry other v) key = .null := by
  rw [← List.append_nil (entry other v), get_entry_ne h]
  rfl

/-- The entries of criteria and of associations. -/
def withInstructions (c : Criteria) (instructions : Value) : Entries :=
  entry "where" c.filter ++ (entry "sort" c.sort ++ (entry "skip" c.skip ++
    (entry "limit" c.limit ++ entry "instructions" instructions)))

variable {c : Criteria} {instructions : Value}

theorem get_where : Value.get (c.withInstructions instructions) "where" = c.filter := by
  simp [withInstructions, get_entry_ne, get_entry_self, get_entry_only]

theorem get_sort : Value.get (c.withInstructions instructions) "sort" = c.sort := by
  simp [withInstructions, get_entry_ne, get_entry_self, get_entry_only]

theorem get_instructions :
    Value.get (c.withInstructions instructions) "instructions" = instructions := by
  have hself : Value.get (entry "instructions" instructions ++ []) "instructions" = instructions :=
    get_entry_self rfl
  simpa [withInstructions, get_entry_ne] using hself

theorem ofEntries_withInstructions : ofEntries (c.withInstructions instructions) = c := by
  have hskip : Value.get (c.withInstructions instructions) "skip" = c.skip := by
    simp [withInstructions, get_entry_ne, get_entry_self, get_entry_only]
  have hlimit : Value.get (c.withInstructions instructions) "limit" = c.limit := by
    simp [withInstructions, get_entry_ne, get_entry_self, get_entry_only]
  rw [ofEntries, get_where, get_sort, hskip, hlimit]

theorem toEntries_eq_ok (hfilter : c.filter.isPart) (hsort : c.sort.isPart) :
    c.toEntries = .ok (c.plain.withInstructions .null) := by
  have hwhere : c.filterEntries = .ok (entry "where" c.plain.filter) := by
    unfold filterEntries plain
    revert hfilter
    cases c.filter <;> simp [Value.isPart, Value.isNull, Value.isMap, entry, Value.toEntries,
      Except.map]
  have hsorted : c.sortEntries = .ok (entry "sort" c.plain.sort) := by
    unfold sortEntries plain
    revert hsort
    cases c.sort <;> simp [Value.isPart, Value.isNull, Value.isMap, entry, Value.asMap,
      Except.map, plainSort]
  rw [toEntries, hwhere, hsorted]
  have hnone : entry "instructions" .null = [] := rfl
  simp [plain, withInstructions, hnone, pure, Except.pure]

theorem isPart_plain (h : c.sort.isPart) : c.plain.sort.isPart := by
  unfold plain
  revert h
  cases c.sort <;> exact id

end Criteria

namespace Query

/-- A null value names no associations, just as nothing does. -/
def instructionsValue (named : Entries) : Value := if named.isEmpty then .null else .map named

variable {criteria : Criteria} {as : List Association} {named : Entries}

theorem instructionsOf?_eq : instructionsOf? (criteria.withInstructions (instructionsValue named)) =
    some named := by
  rw [instructionsOf?, Criteria.get_instructions]
  cases named <;> rfl

theorem toEntries_eq_ok (hfilter : criteria.filter.isPart) (hsort : criteria.sort.isPart)
    (h : associationEntries as = .ok named) (own : Value.ofEntries named = named) :
    toEntries ⟨criteria, as⟩ =
      .ok (criteria.plain.withInstructions (instructionsValue named)) := by
  rw [toEntries, Criteria.toEntries_eq_ok hfilter hsort, h]
  cases named <;> simp [own, Criteria.withInstructions, Criteria.entry, instructionsValue,
    Value.isNull, pure, Except.pure]

theorem describes_withInstructions (hfilter : criteria.filter.isPart)
    (hsort : criteria.sort.isPart) (hall : DescribesAll named as)
    (own : repeatedName? [] as = none) :
    Describes (.map (criteria.withInstructions (instructionsValue named))) ⟨criteria, as⟩ := by
  have hwhere : (Value.get (criteria.withInstructions (instructionsValue named)) "where").isPart := by
    rwa [Criteria.get_where]
  have horder : (Value.get (criteria.withInstructions (instructionsValue named)) "sort").isPart := by
    rwa [Criteria.get_sort]
  have hdescribes := Describes.query hwhere horder instructionsOf?_eq hall own
  rwa [Criteria.ofEntries_withInstructions] at hdescribes

/-! ## What is written describes the query -/

theorem describes_stepValue {s : JoinStep} (hnames : s.link.HasNames)
    (h : ∀ q, s.criteria = some q → ∃ es, q.toEntries = .ok es ∧ Describes (.map es) q.plain) :
    ∃ d, stepValue s = .ok d ∧ DescribesStep d (plainStep s) := by
  obtain ⟨link, criteria⟩ := s
  cases criteria with
  | none => exact ⟨_, rfl, .alone ⟨hnames, rfl, rfl, rfl, rfl⟩ rfl⟩
  | some q =>
    obtain ⟨es, hes, hdescribes⟩ := h q rfl
    have hvalue : stepValue ⟨link, some q⟩ = .ok (.map [(.text "parent", .text link.parentTable),
        (.text "parentKey", .text link.parentKey), (.text "child", .text link.childTable),
        (.text "childKey", .text link.childKey), (.text "criteria", .map es)]) := by
      rw [stepValue, criteriaEntry, hes]
      rfl
    exact ⟨_, hvalue, .selecting ⟨hnames, rfl, rfl, rfl, rfl⟩ hdescribes⟩

/-- A strategy is read back from its code. -/
theorem ofValue_code (s : JoinStrategy) :
    JoinStrategy.ofValue (.map [(.text "strategy", .int s.code)]) = .ok (some s) := by
  cases s <;> rfl

theorem describes_described {a : Association} {ds : List Value}
    (h : DescribesSteps ds a.steps) : DescribesAssociation (described a.strategy ds) a :=
  .association (ofValue_code _) rfl h

theorem describes_associationEntry {a : Association}
    (h : ∀ s ∈ a.steps, ∃ d, stepValue s = .ok d ∧ DescribesStep d (plainStep s)) :
    ∃ d, associationEntry a = .ok (a.name, d) ∧ DescribesAssociation d (plainAssociation a) := by
  cases a
  case parentOwnsKey name step =>
    obtain ⟨d, hd, hstep⟩ := h step (.head _)
    refine ⟨_, ?_, @describes_described (plainAssociation _) _ (.cons hstep .nil)⟩
    rw [associationEntry, hd]
    rfl
  case childOwnsKey name step =>
    obtain ⟨d, hd, hstep⟩ := h step (.head _)
    refine ⟨_, ?_, @describes_described (plainAssociation _) _ (.cons hstep .nil)⟩
    rw [associationEntry, hd]
    rfl
  case junction name link target =>
    obtain ⟨d, hd, hlink⟩ := h link (.head _)
    obtain ⟨e, he, htarget⟩ := h target (.tail _ (.head _))
    refine ⟨_, ?_, @describes_described (plainAssociation _) _ (.cons hlink (.cons htarget .nil))⟩
    rw [associationEntry, hd, he]
    rfl

theorem describes_associationEntries (written : ∀ a ∈ as, a.name.isWritable)
    (h : ∀ a ∈ as, ∃ d, associationEntry a = .ok (a.name, d) ∧
      DescribesAssociation d (plainAssociation a)) :
    ∃ named, associationEntries as = .ok named ∧ DescribesAll named (plainAll as) := by
  induction as with
  | nil => exact ⟨[], rfl, .nil⟩
  | cons a as ih =>
    obtain ⟨hname, written⟩ := List.forall_mem_cons.mp written
    obtain ⟨⟨d, hd, hfirst⟩, hothers⟩ := List.forall_mem_cons.mp h
    obtain ⟨named, hnamed, hall⟩ := ih written hothers
    refine ⟨(a.name, d) :: named, ?_, ?_⟩
    · rw [associationEntries, hd, hnamed]
      rfl
    · rw [← name_plainAssociation a] at hname ⊢
      exact .cons hname hfirst hall

theorem ofEntries_of_describesAll (hall : DescribesAll named as)
    (own : repeatedName? [] as = none) : Value.ofEntries named = named := by
  apply Value.ofEntries_of_pairwise
  have hnames := (repeatedName?_eq_none.mp own).2
  rw [← List.pairwise_map (f := Association.name) (R := fun k l => k.sameKey l = false),
    hall.names] at hnames
  exact List.pairwise_map.mp hnames

theorem describes_toEntries {q : Query} (h : q.Describable) :
    ∃ es, q.toEntries = .ok es ∧ Describes (.map es) q.plain := by
  induction h with
  | @query criteria as hfilter hsort own written named _ ih =>
    have heach : ∀ a ∈ as, ∃ d, associationEntry a = .ok (a.name, d) ∧
        DescribesAssociation d (plainAssociation a) := by
      intro a ha
      apply describes_associationEntry
      intro s hs
      exact describes_stepValue (named a ha s hs) (ih a ha s hs)
    obtain ⟨entries, hentries, hall⟩ := describes_associationEntries written heach
    have hown := (repeatedName?_plainAll as).mpr own
    refine ⟨_, toEntries_eq_ok hfilter hsort hentries (ofEntries_of_describesAll hall hown), ?_⟩
    exact describes_withInstructions hfilter (Criteria.isPart_plain hsort) hall hown

/-! ## What is described can be described -/

theorem DescribesAll.written {named : Entries} {as : List Association}
    (h : DescribesAll named as) : ∀ a ∈ as, a.name.isWritable := by
  induction as generalizing named with
  | nil => exact List.forall_mem_nil _
  | cons a as ih =>
    cases h with
    | cons name _ others => exact List.forall_mem_cons.mpr ⟨name, ih others⟩

mutual

theorem Describes.describable {d : Value} {q : Query} : Describes d q → q.Describable
  | .query filter sort _ each own =>
    have steps := each.describable
    .query filter sort own each.written (fun a ha s hs => (steps a ha s hs).1)
      fun a ha s hs => (steps a ha s hs).2

theorem DescribesAll.describable {named : Entries} {as : List Association} :
    DescribesAll named as → ∀ a ∈ as, ∀ s ∈ a.steps,
      s.link.HasNames ∧ ∀ q, s.criteria = some q → q.Describable
  | .nil => nofun
  | .cons _ first others => List.forall_mem_cons.mpr ⟨first.describable, others.describable⟩

theorem DescribesAssociation.describable {d : Value} {a : Association} :
    DescribesAssociation d a → ∀ s ∈ a.steps,
      s.link.HasNames ∧ ∀ q, s.criteria = some q → q.Describable
  | .association _ _ each => each.describable

theorem DescribesSteps.describable {ds : List Value} {ss : List JoinStep} :
    DescribesSteps ds ss → ∀ s ∈ ss, s.link.HasNames ∧ ∀ q, s.criteria = some q → q.Describable
  | .nil => nofun
  | .cons first others => List.forall_mem_cons.mpr ⟨first.describable, others.describable⟩

theorem DescribesStep.describable {d : Value} {s : JoinStep} :
    DescribesStep d s → s.link.HasNames ∧ ∀ q, s.criteria = some q → q.Describable
  | .alone keys _ => ⟨keys.toHasNames, nofun⟩
  | .selecting keys criteria =>
    ⟨keys.toHasNames, fun _ h => Option.some.inj h ▸ criteria.describable⟩

end

theorem describable_of_ofValue {d : Value} {q : Query} (h : ofValue d = .ok q) : q.Describable := by
  cases hd : d.isNull with
  | true =>
    rw [ofValue, hd] at h
    cases h
    exact .query rfl rfl rfl (List.forall_mem_nil _) (List.forall_mem_nil _) (List.forall_mem_nil _)
  | false => exact ((ofValue_eq_ok_iff hd).mp h).describable

theorem ofValue_toEntries {q : Query} (h : q.Describable) :
    ∃ es, q.toEntries = .ok es ∧ ofValue (.map es) = .ok q.plain := by
  obtain ⟨es, hes, hdescribes⟩ := describes_toEntries h
  exact ⟨es, hes, (ofValue_eq_ok_iff rfl).mpr hdescribes⟩

end Query

/-! ## What is compiled for the copy -/

namespace Criteria

variable (k : Criteria)

theorem ofValue_plainDirection (v : Value) :
    SortDirection.ofValue (plainDirection v) = SortDirection.ofValue v := by
  cases v
  case direction d => cases d <;> rfl
  all_goals rfl

theorem plainSort_idem (v : Value) : plainSort (plainSort v) = plainSort v := by
  have hdirection (w : Value) : plainDirection (plainDirection w) = plainDirection w := by
    cases w <;> rfl
  cases v <;> simp [plainSort, hdirection]

theorem plain_plain : k.plain.plain = k.plain := by
  unfold plain
  rw [plainSort_idem]

theorem isNull_plainSort (v : Value) : (plainSort v).isNull = v.isNull := by
  cases v <;> rfl

theorem isTruthy_plainSort (v : Value) : (plainSort v).isTruthy = v.isTruthy := by
  cases v
  case map es => cases es <;> rfl
  all_goals rfl

theorem hasSort_of_plain_eq {k l : Criteria} (h : k.plain = l.plain) : k.hasSort = l.hasSort := by
  have hsort := congrArg (fun c => !c.sort.isNull) h
  simp only [plain, isNull_plainSort] at hsort
  exact hsort

end Criteria

theorem ClauseCompiler.sortPieces_plainSort (c : ClauseCompiler) (v : Value) :
    c.sortPieces (Criteria.plainSort v) = c.sortPieces v := by
  have hterm (key direction : Value) :
      c.sortTerm key (Criteria.plainDirection direction) = c.sortTerm key direction := by
    unfold sortTerm
    rw [Criteria.ofValue_plainDirection]
  unfold sortPieces
  rw [Criteria.isTruthy_plainSort]
  cases v
  case map es =>
    have hterms : (es.map fun e => (e.1, Criteria.plainDirection e.2)).mapM
        (fun e => c.sortTerm e.1 e.2) = es.mapM fun e => c.sortTerm e.1 e.2 := by
      rw [List.mapM_map]
      exact congrArg es.mapM (funext fun e => hterm e.1 e.2)
    simp only [Criteria.plainSort, Value.asMap, Error.ofFault, ok_bind, hterms]
  all_goals rfl

theorem ClauseCompiler.compile_plain (c : ClauseCompiler) (k : Criteria) :
    c.compile k.plain = c.compile k := by
  have hclauses : c.clauses k.plain = c.clauses k := by
    unfold clauses
    rw [Criteria.plain, sortPieces_plainSort]
  rw [compile, compile, hclauses]

theorem usualSource_plain (catalog : Catalog) (d : Dialect) (style : MarkerStyle) (table : String)
    (start : Int) (k : Criteria) :
    usualSource catalog d style table start k.plain = usualSource catalog d style table start k := by
  simp only [usualSource, ClauseCompiler.run, ClauseCompiler.compile_plain]

namespace QueryCompiler

variable {c : QueryCompiler}

/-- The compiler of criteria does not tell directions from their numbers. -/
def ReadsPlain (c : QueryCompiler) : Prop :=
  ∀ table start k, c.source table start k.plain = c.source table start k

/-- Queries that select the same rows of their table in the same order. -/
def SameRows (p q : Query) : Prop := p.criteria.plain = q.criteria.plain

theorem criteria_plain (q : Query) : q.plain.criteria = q.criteria.plain := by
  cases q
  rfl

theorem sameRows_plain (q : Query) : SameRows q.plain q := by
  rw [SameRows, criteria_plain, Criteria.plain_plain]

theorem blind_sameRows (hc : c.ReadsPlain) : c.Blind SameRows where
  hasFilter {p r} h := by
    have hfilter := congrArg Criteria.hasFilter h
    exact hfilter
  sortedByKey {p r} h table direction := by
    apply @alike_sortedByKey Criteria.plain _ _ p r h
    · intro k l h
      exact Criteria.hasSort_of_plain_eq h
    · intro k l v h
      have hrest (w : Value) := congrArg (fun k : Criteria => { k with sort := w }) h
      exact hrest _
  request {p r} h table start := by
    have hsource : c.source table start p.criteria = c.source table start r.criteria := by
      rw [← hc, ← hc (k := r.criteria)]
      exact congrArg _ h
    simp only [request, Traced.outcome_bind, Traced.outcome_emit, hsource]

theorem sameRows_plainStep (s : JoinStep) :
    SameRows ((Query.plainStep s).criteria.getD .empty) (s.criteria.getD .empty) := by
  obtain ⟨link, criteria⟩ := s
  cases criteria with
  | none => rfl
  | some q => exact sameRows_plain q

theorem sameNeeds_plain (a : Association) : SameNeeds SameRows (Query.plainAssociation a) a := by
  cases a with
  | parentOwnsKey name step => exact .parentOwnsKey
  | childOwnsKey name step =>
    exact .childOwnsKey (Query.link_plainStep step) (sameRows_plainStep step)
  | junction name link target =>
    exact .junction (Query.link_plainStep link) (Query.link_plainStep target)
      (sameRows_plainStep target)

theorem joins_plain (q : Query) : c.joins q.plain = c.joins q := by
  have hlink (a : Association) : ownedLink? (Query.plainAssociation a) = ownedLink? a := by
    cases a <;> simp [Query.plainAssociation, ownedLink?]
  apply joins_eq_of_links
  obtain ⟨k, as⟩ := q
  simp [Query.plain, Query.plainAll_eq_map, List.filterMap_map, hlink]

theorem fragments_plain (hc : c.ReadsPlain) (q : Query) :
    (c.compile (some q.plain)).outcome.map fragments =
      (c.compile (some q)).outcome.map fragments := by
  have hblind := blind_sameRows hc
  apply Alike.map_eq
  simp only [compile, Traced.outcome_bind, Traced.outcome_pure]
  refine (alike_rows hblind (sameRows_plain q) (joins_plain q)).bind ?_
  intro f g hrows
  have hvalues : f.values = g.values := congrArg Prod.snd hrows
  have hsubqueries : Alike (fun ss ts => ss.map fragmentOf = ts.map fragmentOf)
      (c.subqueries (some q.plain) (f.values.length + 1)).outcome
      (c.subqueries (some q) (g.values.length + 1)).outcome := by
    rw [hvalues]
    obtain ⟨k, as⟩ := q
    rw [Query.plain, Query.plainAll_eq_map]
    exact alike_subqueriesFrom hblind
      (List.forall₂_map_left_iff.mpr (List.forall₂_same.mpr fun a _ => sameNeeds_plain a)) _
  refine hsubqueries.bind fun ss ts h => ?_
  have hsame : textOf f :: ss.map fragmentOf = textOf g :: ts.map fragmentOf := by rw [hrows, h]
  exact .ok hsame

theorem readsPlain_of_create {catalog : Catalog} {table style placeholder aliasStart : String}
    {quoter : Quoter}
    (h : create catalog table quoter none style placeholder aliasStart = .ok c) : c.ReadsPlain := by
  obtain ⟨style, -, rfl⟩ := map_eq_ok.mp h
  exact usualSource_plain _ _ _

end QueryCompiler

namespace Query

/-- What is written for a query reads back as the query, and a query that was read is written so
that it reads back, with numbers for directions. The same is compiled for the copy. -/
theorem round_trip {q : Query} (h : q.Describable ∨ ∃ d, ofValue d = .ok q) :
    (∃ es, q.toEntries = .ok es ∧ ofValue (.map es) = .ok q.plain) ∧
    ∀ {catalog : Catalog} {table style placeholder aliasStart : String} {quoter : Quoter}
      {c : QueryCompiler},
      QueryCompiler.create catalog table quoter none style placeholder aliasStart = .ok c →
      (c.compile (some q.plain)).outcome.map QueryCompiler.fragments =
        (c.compile (some q)).outcome.map QueryCompiler.fragments := by
  have hq : q.Describable := by
    obtain hq | ⟨d, hd⟩ := h
    · exact hq
    · exact describable_of_ofValue hd
  exact ⟨ofValue_toEntries hq, fun hc =>
    QueryCompiler.fragments_plain (QueryCompiler.readsPlain_of_create hc) q⟩

/-- Rows of a table by two steps, the second of which has criteria though they are empty. -/
def tagsOf (direction : SortDirection) : Query :=
  ⟨{ sort := .map [(.text "id", .direction direction)] },
    [.junction (.text "tags") ⟨⟨"sales", "id", "sale_tags", "sale_id"⟩, none⟩
      ⟨⟨"sale_tags", "tag_id", "tags", "id"⟩, some .empty⟩]⟩

theorem describable_tagsOf (direction : SortDirection) : (tagsOf direction).Describable := by
  have hempty : empty.Describable := .query rfl rfl rfl nofun nofun nofun
  refine .query rfl rfl rfl (List.forall_mem_singleton.mpr rfl) ?_ ?_ <;>
    intro a ha <;> obtain rfl := List.mem_singleton.mp ha
  · have hlink : Link.HasNames ⟨"sales", "id", "sale_tags", "sale_id"⟩ := by constructor <;> decide
    have htarget : Link.HasNames ⟨"sale_tags", "tag_id", "tags", "id"⟩ := by constructor <;> decide
    exact List.forall_mem_cons.mpr ⟨hlink, List.forall_mem_cons.mpr ⟨htarget, nofun⟩⟩
  · refine List.forall_mem_cons.mpr ⟨nofun, List.forall_mem_cons.mpr ⟨?_, nofun⟩⟩
    intro q hq
    exact Option.some.inj hq ▸ hempty

theorem describable_shopQuery : shopQuery.Describable := by
  have hinner : Describable ⟨tagged, []⟩ := .query rfl rfl rfl nofun nofun nofun
  refine .query rfl rfl rfl (List.forall_mem_singleton.mpr rfl) ?_ ?_ <;>
    intro a ha <;> obtain rfl := List.mem_singleton.mp ha
  · have hlink : fromOrigin.HasNames := by constructor <;> decide
    exact List.forall_mem_cons.mpr ⟨hlink, nofun⟩
  · refine List.forall_mem_cons.mpr ⟨?_, nofun⟩
    intro q hq
    exact Option.some.inj hq ▸ hinner

theorem round_trip_sales :
    (∃ es, (tagsOf .desc).toEntries = .ok es ∧ ofValue (.map es) = .ok (tagsOf .desc).plain) ∧
    (tagsOf .desc).plain.criteria.sort = .map [(.text "id", .int (-1))] ∧
    ∃ r, ((shopQueries .dollar).compile (some shopQuery)).outcome = .ok r ∧ r.2.length = 1 ∧
      ((shopQueries .dollar).compile (some shopQuery.plain)).outcome.map QueryCompiler.fragments =
        .ok (QueryCompiler.fragments r) := by
  obtain ⟨r, hr, hlength⟩ := QueryCompiler.exists_compile_shop .dollar
  have hsame := (round_trip (.inl describable_shopQuery)).2 (QueryCompiler.create_shop .dollar)
  rw [hr] at hsame
  exact ⟨(round_trip (.inl (describable_tagsOf .desc))).1, rfl, r, hr, hlength, hsame⟩

end Query

end SqlFragment
