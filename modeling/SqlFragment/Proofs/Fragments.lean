import SqlFragment.Proofs.Heads

/-!
Fragments read back: the joins or the head of a subquery, and compiled criteria behind them.
-/
namespace SqlFragment

/-! ## Runs -/

namespace Traced

variable {α β : Type} {es : List Event}

/-- A run goes on where another ends. -/
theorem bind_eq {t : Traced α} {f : α → Traced β} {b : β} :
    (t >>= f) = ⟨es, .ok b⟩ ↔ ∃ es₁ a es₂, t = ⟨es₁, .ok a⟩ ∧ f a = ⟨es₂, .ok b⟩ ∧
      es = es₁ ++ es₂ := by
  obtain ⟨es₁, outcome⟩ := t
  cases outcome with
  | error e =>
    constructor
    · intro h
      exact nomatch congrArg Traced.outcome h
    · rintro ⟨_, _, _, h, -⟩
      exact nomatch congrArg Traced.outcome h
  | ok a =>
    have hbind : ((⟨es₁, .ok a⟩ : Traced α) >>= f) = ⟨es₁ ++ (f a).events, (f a).outcome⟩ := rfl
    rw [hbind]
    constructor
    · intro h
      obtain ⟨hevents, houtcome⟩ := Traced.mk.inj h
      exact ⟨es₁, a, (f a).events, rfl, by rw [← houtcome], hevents.symm⟩
    · rintro ⟨es₁', a', es₂, h, hf, rfl⟩
      obtain ⟨rfl, ha⟩ := Traced.mk.inj h
      obtain rfl := Except.ok.inj ha
      rw [hf]

theorem of_eq {r : Except Error α} {a : α} : of r = ⟨es, .ok a⟩ ↔ es = [] ∧ r = .ok a := by
  simp [of, eq_comm]

theorem emit_eq {e : Event} {u : Unit} : emit e = ⟨es, .ok u⟩ ↔ es = [e] := by
  simp [emit, eq_comm]

theorem pure_eq {a b : α} : (Pure.pure a : Traced α) = ⟨es, .ok b⟩ ↔ es = [] ∧ a = b := by
  change (⟨[], .ok a⟩ : Traced α) = ⟨es, .ok b⟩ ↔ _
  simp [eq_comm]

end Traced

/-- Criteria that an event hands to their compiler, with their table and the number of the first
marker. -/
def Event.request? : Event → Option (String × Int × Criteria)
  | .criteriaRequested table start criteria => some (table, start, criteria)
  | _ => none

/-- All criteria that were handed to their compiler. -/
def requestsIn (es : List Event) : List (String × Int × Criteria) := es.filterMap Event.request?

theorem requestsIn_append (es es' : List Event) :
    requestsIn (es ++ es') = requestsIn es ++ requestsIn es' := List.filterMap_append

/-! ## Usual compilers of queries -/

namespace QueryCompiler

/-- A compiler that quotes for a dialect and hands criteria to the usual compiler. -/
structure IsUsual (q : QueryCompiler) (d : Dialect) (style : MarkerStyle) : Prop where
  quoter : q.quoter = .dialect d
  source : q.source = usualSource q.catalog d style
  placeholder : q.placeholder = "^?^"

theorem isUsual_of_create {catalog : Catalog} {table aliasStart : String} {d : Dialect}
    {style : MarkerStyle} {q : QueryCompiler}
    (h : create catalog table (.dialect d) none style.name usualPlaceholder aliasStart = .ok q) :
    q.IsUsual d style := by
  have hstyle : MarkerStyle.ofName style.name = .ok style := by cases style <;> rfl
  rw [create, hstyle] at h
  obtain rfl := Except.ok.inj h
  exact ⟨rfl, rfl, rfl⟩

variable {q : QueryCompiler} {d : Dialect} {style : MarkerStyle}

/-- What a head of a subquery is read as. -/
structure IsHead (a : Association) (d : Dialect) (head : String) (before : List Lexeme) :
    Prop where
  reads : ReadsAs d head.toList (before ++ .word "WHERE" :: a.correlation d)
  before : ∀ l ∈ before, l.IsHead

theorem isHead_child (h : q.IsUsual d style) (name : Value) (step : JoinStep) :
    ∃ before, IsHead (.childOwnsKey name step) d (q.childHead step.link) before := by
  refine ⟨step.link.childSegments.flatMap (Segment.lexemes d d.headStyle), ?_,
    isHead_lexemes step.link.isHead_childSegments⟩
  have hhead := readsAs_head (d := d) step.link.tidy_childSegments step.link.tidy_childKeySegments
  rw [toList_childHead h.quoter, h.placeholder]
  rwa [Link.childKeySegments, List.flatMap_singleton, lexemes_name] at hhead

theorem isHead_junction (h : q.IsUsual d style) (name : Value) (link target : JoinStep)
    (columns : List String) :
    ∃ before, IsHead (.junction name link target) d
      (q.junctionHead link.link target.link columns) before := by
  have hin : (Segment.word " IN (SELECT ").lexemes d d.headStyle =
      [.word "IN", .symbol '(', .word "SELECT"] :=
    lexemes_word fun d => by cases d <;> decide
  have hfrom : (Segment.word " FROM ").lexemes d d.headStyle = [.word "FROM"] :=
    lexemes_word fun d => by cases d <;> decide
  have hwhere : (Segment.word " WHERE ").lexemes d d.headStyle = [.word "WHERE"] :=
    lexemes_word fun d => by cases d <;> decide
  have hclose : ReadsAs d ")".toList [.symbol ')'] :=
    .keyword (by decide) fun d => by cases d <;> decide
  refine ⟨(link.link.junctionSegments target.link columns (q.aliasStart ++ link.link.childKey)).flatMap
    (Segment.lexemes d d.headStyle), ?_, isHead_lexemes (link.link.isHead_junctionSegments _ _ _)⟩
  have hhead := readsAs_head (d := d)
    (link.link.tidy_junctionSegments target.link columns (q.aliasStart ++ link.link.childKey))
    (link.link.tidy_junctionKeySegments target.link)
  have hall := hhead.append hclose (.inr (.inr (by decide)))
  rw [toList_junctionHead h.quoter, h.placeholder]
  simpa only [Link.junctionKeySegments, List.flatMap_append, List.flatMap_cons, List.flatMap_nil,
    List.append_nil, lexemes_column, lexemes_name, hin, hfrom, hwhere, Association.correlation,
    List.append_assoc, List.cons_append, List.nil_append] using hall

/-! ### Criteria handed on -/

/-- The only criteria that were handed to the usual compiler, and what it compiled for them. -/
structure Served (q : QueryCompiler) (d : Dialect) (style : MarkerStyle) (es : List Event)
    (table : String) (start : Int) (query : Query) (c : ClauseCompiler) (w : Written) : Prop where
  requests : requestsIn es = [(table, start, query.criteria)]
  create : ClauseCompiler.create q.catalog table d style start .usual = .ok c
  compiled : c.compile query.criteria = .ok w

namespace Served

variable {es : List Event} {table : String} {start : Int} {query : Query} {c : ClauseCompiler}
  {w : Written}

theorem compiler_eq (h : Served q d style es table start query c w) :
    c.dialect = d ∧ c.style = style ∧ c.start = start := by
  obtain ⟨_, -, rfl⟩ := map_eq_ok.mp h.create
  exact ⟨rfl, rfl, rfl⟩

end Served

theorem request_eq (h : q.IsUsual d style) {table : String} {start : Int} {query : Query}
    {es : List Event} {clauses : Clauses}
    (hrun : q.request table start query = ⟨es, .ok clauses⟩) :
    ∃ c w, Served q d style es table start query c w ∧ clauses = .ofWritten w := by
  simp only [request, h.source, usualSource, Traced.bind_eq, Traced.emit_eq, Traced.of_eq,
    Traced.pure_eq, ClauseCompiler.run] at hrun
  obtain ⟨_, _, _, rfl, ⟨_, c, _, ⟨rfl, hcreate⟩, ⟨_, _, _, ⟨_, w, _, ⟨rfl, hw⟩,
    ⟨_, _, _, rfl, ⟨rfl, rfl⟩, rfl⟩, rfl⟩, ⟨rfl, rfl⟩, rfl⟩, rfl⟩, rfl⟩ := hrun
  exact ⟨c, w, ⟨rfl, hcreate, hw⟩, rfl⟩

/-- A sort that is added leaves the filter as it is, and asks for nothing. -/
theorem filter_sortedByKey {query query' : Query} {catalog : Catalog} {table : String}
    {direction : SortDirection} {es : List Event}
    (hrun : query.sortedByKey catalog table direction = ⟨es, .ok query'⟩) :
    query'.criteria.filter = query.criteria.filter ∧ requestsIn es = [] := by
  unfold Query.sortedByKey at hrun
  split at hrun
  · obtain ⟨rfl, rfl⟩ := Traced.pure_eq.mp hrun
    exact ⟨rfl, rfl⟩
  · simp only [Traced.bind_eq, Traced.of_eq, Traced.emit_eq] at hrun
    obtain ⟨_, key, _, ⟨rfl, -⟩, ⟨_, _, _, rfl, ⟨rfl, hsort⟩, rfl⟩, rfl⟩ := hrun
    obtain ⟨k, hk, rfl⟩ := map_eq_ok.mp hsort
    unfold Criteria.withSort at hk
    simp only [bind_eq_ok, pure_eq_ok] at hk
    obtain ⟨_, -, rfl⟩ := hk
    exact ⟨rfl, rfl⟩

theorem nested_eq (h : q.IsUsual d style) {step : JoinStep} {start : Int} {query : Query}
    {es : List Event} {clauses : Clauses}
    (hrun : q.nested step start = ⟨es, .ok (query, clauses)⟩) :
    query.criteria.filter = (step.criteria.getD .empty).criteria.filter ∧
      ∃ c w, Served q d style es step.link.childTable start query c w ∧
        clauses = .ofWritten w := by
  simp only [nested, Traced.bind_eq, Traced.pure_eq, Prod.mk.injEq] at hrun
  obtain ⟨es₁, query, es₂, hsort, ⟨es₃, clauses, _, hrun, ⟨rfl, rfl, rfl⟩, rfl⟩, rfl⟩ := hrun
  obtain ⟨c, w, hserved, rfl⟩ := request_eq h hrun
  obtain ⟨hfilter, hsilent⟩ := filter_sortedByKey hsort
  refine ⟨hfilter, c, w, { hserved with requests := ?_ }, rfl⟩
  rw [List.append_nil, requestsIn_append, hsilent, List.nil_append, hserved.requests]

/-! ### Subqueries -/

/-- The head of the subquery of an association. -/
inductive HasHead (q : QueryCompiler) : Association → String → Prop
  | childOwnsKey {name : Value} {step : JoinStep} :
    HasHead q (.childOwnsKey name step) (q.childHead step.link)
  | junction {name : Value} {link target : JoinStep} {table : Table}
      (found : q.catalog.table? target.link.childTable = some table) :
    HasHead q (.junction name link target)
      (q.junctionHead link.link target.link table.columnNames)

/-- A subquery is the head of its association and the criteria of its last step, compiled. -/
theorem subqueryOf_eq_some {a : Association} {start : Int} {es : List Event} {s : Subquery}
    (hrun : q.subqueryOf a start = ⟨es, .ok (some s)⟩) :
    ∃ (step : JoinStep) (head : String) (query : Query) (clauses : Clauses), q.HasHead a head ∧
      a.nestedQuery = step.criteria.getD .empty ∧ q.nested step start = ⟨es, .ok (query, clauses)⟩ ∧
      q.subquery a head query clauses = .ok s := by
  unfold subqueryOf at hrun
  split at hrun
  · simp [Traced.pure_eq] at hrun
  · rename_i name step
    simp only [Traced.bind_eq, Traced.pure_eq, Traced.of_eq, Option.some.injEq] at hrun
    obtain ⟨_, ⟨query, clauses⟩, _, hnested, ⟨_, s, _, ⟨rfl, hs⟩, ⟨rfl, rfl⟩, rfl⟩, rfl⟩ := hrun
    refine ⟨step, _, query, clauses, .childOwnsKey, rfl, ?_, hs⟩
    rw [List.append_nil, List.append_nil]
    exact hnested
  · rename_i name link target
    simp only [Traced.bind_eq, Traced.pure_eq, Traced.of_eq, Option.some.injEq] at hrun
    obtain ⟨_, ⟨query, clauses⟩, _, hnested,
      ⟨_, table, _, ⟨rfl, htable⟩, ⟨_, s, _, ⟨rfl, hs⟩, ⟨rfl, rfl⟩, rfl⟩, rfl⟩, rfl⟩ := hrun
    have hfound : q.catalog.table? target.link.childTable = some table := by
      unfold Catalog.table at htable
      split at htable <;> simp_all
    refine ⟨target, _, query, clauses, .junction hfound, rfl, ?_, hs⟩
    rw [List.append_nil, List.append_nil, List.append_nil]
    exact hnested

/-- A subquery of an association as it is put together. -/
structure Assembled (q : QueryCompiler) (d : Dialect) (style : MarkerStyle) (es : List Event)
    (start : Int) (a : Association) (s : Subquery) (head : String) (before : List Lexeme)
    (c : ClauseCompiler) (w : Written) : Prop where
  hasHead : q.HasHead a head
  isHead : IsHead a d head before
  served : ∃ table, Served q d style es table start s.criteria c w
  filter : s.criteria.criteria.filter = a.nestedQuery.criteria.filter
  values : s.values = w.values
  template : s.template = "(" ++ appended head s.criteria (.text w.text) ++ ")"

theorem HasHead.isHead (h : q.IsUsual d style) {a : Association} {head : String}
    (hhead : q.HasHead a head) : ∃ before, IsHead a d head before := by
  cases hhead with
  | childOwnsKey => exact isHead_child h _ _
  | junction => exact isHead_junction h _ _ _ _

theorem subqueryOf_eq (h : q.IsUsual d style) {a : Association} {start : Int} {es : List Event}
    {s : Subquery} (hrun : q.subqueryOf a start = ⟨es, .ok (some s)⟩) :
    ∃ head before c w, Assembled q d style es start a s head before c w := by
  obtain ⟨step, head, query, clauses, hhead, hquery, hnested, hs⟩ := subqueryOf_eq_some hrun
  obtain ⟨hfilter, c, w, hserved, rfl⟩ := nested_eq h hnested
  obtain ⟨-, rfl⟩ := subquery_eq_ok_iff.mp hs
  obtain ⟨before, hbefore⟩ := hhead.isHead h
  exact ⟨head, before, c, w, hhead, hbefore, ⟨_, hserved⟩, hfilter.trans (by rw [hquery]), rfl, rfl⟩

/-- An association of which the row owns the key asks for nothing. -/
theorem subqueryOf_none {a : Association} {start : Int} {es : List Event}
    (hrun : q.subqueryOf a start = ⟨es, .ok none⟩) : es = [] := by
  unfold subqueryOf at hrun
  split at hrun
  · exact (Traced.pure_eq.mp hrun).1
  · simp [Traced.bind_eq, Traced.pure_eq] at hrun
  · simp [Traced.bind_eq, Traced.pure_eq] at hrun

/-! ### Rows -/

/-- The link of an association of which the row owns the key. -/
def ownedLink? : Association → Option Link
  | .parentOwnsKey _ step => some step.link
  | _ => none

/-- The joins to the tables that own their keys. -/
def joinsText (q : QueryCompiler) (links : List Link) : String :=
  if links.isEmpty then "" else " ".intercalate (links.map q.joinText) ++ " "

/-- The fragment for the rows as it is put together. -/
structure RowsAssembled (q : QueryCompiler) (d : Dialect) (style : MarkerStyle) (es : List Event)
    (query : Query) (f : Fragment) (links : List Link) (sorted : Query) (c : ClauseCompiler)
    (w : Written) : Prop where
  links_eq : links = query.associations.filterMap ownedLink?
  served : Served q d style es q.table 1 sorted c w
  query_eq : f.query = some sorted
  filter : sorted.criteria.filter = query.criteria.filter
  values : f.values = w.values
  text : f.text = dropConnective
    (q.joinsText links ++ (if query.hasFilter then "WHERE " else "") ++ w.text)

theorem joins_eq (query : Query) :
    q.joins query = (query.associations.filterMap ownedLink?).map q.joinText := by
  rw [joins, List.map_filterMap]
  refine congrFun (congrArg List.filterMap (funext fun a => ?_)) _
  cases a <;> rfl

theorem rows_eq (h : q.IsUsual d style) {query : Query} {f : Fragment} {es : List Event}
    (hrun : q.rows (some query) = ⟨es, .ok f⟩) :
    ∃ links sorted c w, RowsAssembled q d style es query f links sorted c w := by
  have hlinks := q.joins_eq query
  simp only [rows, Traced.bind_eq, Traced.pure_eq, Traced.of_eq, Traced.emit_eq] at hrun
  obtain ⟨es₁, sorted, _, hsort, ⟨es₂, clauses, _, hrequest, ⟨_, ending, _, ⟨rfl, hending⟩,
    ⟨_, _, _, rfl, ⟨rfl, rfl⟩, rfl⟩, rfl⟩, rfl⟩, rfl⟩ := hrun
  obtain ⟨c, w, hserved, rfl⟩ := request_eq h hrequest
  obtain ⟨hfilter, hsilent⟩ := filter_sortedByKey hsort
  obtain rfl : w.text = ending := by
    rw [ofFault_eq_ok, Clauses.ending_ofWritten] at hending
    exact Except.ok.inj hending
  refine ⟨_, sorted, c, w, rfl, { hserved with requests := ?_ }, rfl, hfilter, rfl, ?_⟩
  · rw [requestsIn_append, requestsIn_append, hsilent, hserved.requests]
    rfl
  · have hhas : sorted.hasFilter = query.hasFilter := by
      rw [Query.hasFilter, Criteria.hasFilter, hfilter]
      rfl
    simp only [joinsText, hlinks, hhas, List.isEmpty_map]

end QueryCompiler

/-! ## Fragments read back -/

section Fragments

open ClauseCompiler

variable {d : Dialect} {c : ClauseCompiler} {k : Criteria} {w : Written} {p? : Option Predicate}
  {tail : List Piece}

theorem readsAs_compiled (h : Compiled c k w p? tail) :
    ReadsAs c.dialect w.text.toList (c.lexemes w.text) := ⟨h.paired, rfl⟩

/-- A filter has lexemes. -/
theorem filterLexemes_ne_nil (h : Compiled c k w p? tail) (hk : k.filter.isTruthy = true) :
    c.filterLexemes w.text ≠ [] := by
  rw [h.filterLexemes_eq]
  obtain ⟨p, rfl⟩ : ∃ p, p? = some p := Option.isSome_iff_exists.mp
    ((isSome_of_parts h.parts).trans hk)
  obtain ⟨s, hs⟩ := exists_name_pieces c.dialect p (isFull_of_parts h.parts)
  intro hnil
  have := List.flatMap_eq_nil_iff.mp hnil (.name s) (mem_conjunctText c.dialect hs)
  simp [Piece.segments, Segment.shown] at this

theorem text_ne_empty (h : Compiled c k w p? tail) (hk : k.filter.isTruthy = true) :
    w.text ≠ "" := by
  intro htext
  refine filterLexemes_ne_nil h hk ?_
  rw [htext]
  rfl

/-- A head and what is appended to it. -/
theorem readsAs_appended (h : Compiled c k w p? tail) {head : String} {ls : List Lexeme}
    (hhead : ReadsAs c.dialect head.toList ls) {query : Query} (hquery : query.criteria = k) :
    ReadsAs c.dialect (QueryCompiler.appended head query (.text w.text)).toList
      (ls ++ ((if query.hasFilter then [.word "AND"] else []) ++ c.lexemes w.text)) := by
  subst hquery
  have htext := readsAs_compiled h
  have hand : ReadsAs c.dialect " AND ".toList [.word "AND"] :=
    .keyword (by decide) fun d => by cases d <;> decide
  have hspace : ReadsAs c.dialect " ".toList [] :=
    .keyword (by decide) fun d => by cases d <;> decide
  unfold QueryCompiler.appended
  by_cases hempty : w.text = ""
  · have hfilter : query.hasFilter = false := by
      by_contra hfilter
      exact text_ne_empty h (by simpa [Query.hasFilter, Criteria.hasFilter] using hfilter) hempty
    rw [hempty, hfilter]
    simpa [Value.isTruthy, ClauseCompiler.lexemes, lex, lexFrom, Place.ended] using hhead
  · have htruthy : (Value.text w.text).isTruthy = true := by simpa [Value.isTruthy] using hempty
    rw [if_neg (by simp [htruthy])]
    split
    · rw [String.toList_append, String.toList_append, List.append_assoc]
      exact hhead.append (hand.append htext (.inl (by decide))) (.inr (.inr ⟨' ', rfl, by decide⟩))
    · rw [String.toList_append, String.toList_append, List.append_assoc]
      exact hhead.append (hspace.append htext (.inl (by decide))) (.inr (.inr ⟨' ', rfl, by decide⟩))

/-- Anything in parentheses. -/
theorem readsAs_group {text : String} {ls : List Lexeme} (h : ReadsAs d text.toList ls) :
    ReadsAs d ("(" ++ text ++ ")").toList (.symbol '(' :: ls ++ [.symbol ')']) := by
  have hopen : ReadsAs d "(".toList [.symbol '('] :=
    .keyword (by decide) fun d => by cases d <;> decide
  have hclose : ReadsAs d ")".toList [.symbol ')'] :=
    .keyword (by decide) fun d => by cases d <;> decide
  rw [String.toList_append, String.toList_append, List.append_assoc]
  exact hopen.append (h.append hclose (.inr (.inr (by decide)))) (.inl (by decide))

/-! ### Rows -/

/-- The segments of joins. -/
def joinsSegments : List Link → List Segment
  | [] => []
  | link :: links => link.joinSegments ++ .word " " :: joinsSegments links

theorem isHead_joinsSegments : ∀ links : List Link, ∀ s ∈ joinsSegments links, s.IsHead
  | [] => nofun
  | link :: links => Segment.isHead_glue (by decide) link.isHead_joinSegments
      (isHead_joinsSegments links)

variable {q : QueryCompiler}

theorem joinsText_cons (link : Link) (links : List Link) :
    q.joinsText (link :: links) = q.joinText link ++ " " ++ q.joinsText links := by
  cases links with
  | nil => simp [QueryCompiler.joinsText]
  | cons link' links =>
    simp [QueryCompiler.joinsText, String.intercalate_cons_cons, String.append_assoc]

theorem toList_joinsText (h : q.quoter = .dialect d) (links : List Link) :
    (q.joinsText links).toList = (joinsSegments links).flatMap (Segment.chars d d.headStyle) := by
  induction links with
  | nil => rfl
  | cons link links ih =>
    rw [joinsText_cons, String.toList_append, String.toList_append, ih,
      QueryCompiler.toList_joinText h, joinsSegments, List.flatMap_append, List.flatMap_cons,
      List.append_assoc]
    rfl

theorem dropEnding_eq_self {ending text : String} (h : ¬ending.toList <:+ text.toList) :
    dropEnding ending text = text := by
  refine if_neg fun hprefix => h ?_
  exact List.reverse_prefix.mp (List.isPrefixOf_iff_prefix.mp hprefix)

/-- Where no connective stands at the end, none is dropped. -/
theorem dropConnective_eq_self {text : String} (hand : ¬"AND ".toList <:+ text.toList)
    (hor : ¬"OR ".toList <:+ text.toList) : dropConnective text = text := by
  rw [dropConnective, dropEnding_eq_self hand, dropEnding_eq_self hor]

/-- Nothing ends like a connective that ends in no space, or in a space behind a mark. -/
theorem not_suffix_of_getLast {xs : List Char} {a : Char} {ys : List Char}
    (h : (∀ b ∈ xs.getLast?, Text.isBlank b = false) ∨ ∃ zs b, xs = zs ++ [b, ' '] ∧ b ≠ a) :
    ¬(ys ++ [a, ' ']) <:+ xs := by
  rintro ⟨zs, rfl⟩
  rw [← List.append_assoc] at h
  rcases h with h | ⟨zs', b, heq, hne⟩
  · have := h ' ' (by simp)
    exact absurd this (by decide)
  · have hlast := List.append_inj_right' heq rfl
    exact hne (List.cons.inj hlast).1.symm

theorem joinText_end (h : q.quoter = .dialect d) (link : Link) :
    ∃ zs, (q.joinText link).toList = zs ++ [d.mark] := by
  have hmark : (d.quoting d.headStyle).mark = d.mark := by cases d <;> rfl
  refine ⟨(Segment.word "LEFT OUTER JOIN " :: ([.name link.childTable] ++
    .word " ON " :: (Segment.column link.parentTable link.parentKey ++
      [.word " = ", .name link.childTable, .word "."]))).flatMap (Segment.chars d d.headStyle) ++
    d.mark :: link.childKey.toList.flatMap (d.quoting d.headStyle).escapeChar, ?_⟩
  rw [QueryCompiler.toList_joinText h]
  simp [Link.joinSegments, Segment.column, Segment.chars, Quoting.quoteChars, hmark]

/-- Joins are nothing or end with a name and a space. -/
theorem joinsText_end (h : q.quoter = .dialect d) (links : List Link) :
    q.joinsText links = "" ∨ ∃ zs, (q.joinsText links).toList = zs ++ [d.mark, ' '] := by
  induction links with
  | nil => exact .inl rfl
  | cons link links ih =>
    right
    rw [joinsText_cons, String.toList_append, String.toList_append]
    rcases ih with ih | ⟨zs, ih⟩
    · obtain ⟨zs, hzs⟩ := joinText_end h link
      exact ⟨zs, by rw [ih, hzs]; simp⟩
    · exact ⟨(q.joinText link).toList ++ ' ' :: zs, by rw [ih]; simp⟩

theorem readsAs_joins {ys : List Char} {ls : List Lexeme} (h : ReadsAs d ys ls) :
    ∀ links, ReadsAs d ((joinsSegments links).flatMap (Segment.chars d d.headStyle) ++ ys)
      ((joinsSegments links).flatMap (Segment.lexemes d d.headStyle) ++ ls)
  | [] => h
  | link :: links => by
    have hlink := @ReadsAs.segments d d.headStyle _
      (link.tidy_joinSegments.append_word (.singleton (by decide : IsKeyword " ")) (by decide))
    have hcloses : Closes ((link.joinSegments ++ [Segment.word " "]).flatMap
        (Segment.chars d d.headStyle)) := by
      rw [List.flatMap_append]
      exact Closes.append (by decide : Closes " ".toList)
    have hall := hlink.append (readsAs_joins h links) (.inl hcloses)
    simpa only [joinsSegments, List.flatMap_append, List.flatMap_cons, List.flatMap_nil,
      List.append_nil, List.append_assoc] using hall

/-- The fragment for rows: joins, and criteria behind `WHERE` when there is a filter. -/
theorem readsAs_rows (h : Compiled c k w p? tail) (hq : q.quoter = .dialect c.dialect)
    (links : List Link) :
    ReadsAs c.dialect
      (dropConnective (q.joinsText links ++ (if k.hasFilter then "WHERE " else "") ++ w.text)).toList
      ((joinsSegments links).flatMap (Segment.lexemes c.dialect c.dialect.headStyle) ++
        ((if k.hasFilter then [.word "WHERE"] else []) ++ c.lexemes w.text)) := by
  have hkeep : dropConnective
      (q.joinsText links ++ (if k.hasFilter then "WHERE " else "") ++ w.text) =
        q.joinsText links ++ (if k.hasFilter then "WHERE " else "") ++ w.text := by
    -- the text ends in a blank only behind joins, and before that blank stands the end of a name
    have hend : ∀ a, c.dialect.mark ≠ a → ∀ ys : List Char, ¬(ys ++ [a, ' ']) <:+
        (q.joinsText links ++ (if k.hasFilter then "WHERE " else "") ++ w.text).toList := by
      intro a ha ys
      by_cases hempty : w.text = ""
      · have hfilter : k.hasFilter = false := by
          by_contra hfilter
          exact text_ne_empty h (by simpa [Criteria.hasFilter] using hfilter) hempty
        rw [hempty, hfilter]
        rcases joinsText_end hq links with hjoins | ⟨zs, hjoins⟩
        · simp [hjoins]
        · exact not_suffix_of_getLast (.inr ⟨zs, _, by simpa using hjoins, ha⟩)
      · refine not_suffix_of_getLast (.inl ?_)
        rw [String.toList_append, List.getLast?_append_of_ne_nil _
          (by simpa using hempty)]
        exact h.notBlank
    refine dropConnective_eq_self (hend 'D' ?_ ['A', 'N']) (hend 'R' ?_ ['O'])
    all_goals cases c.dialect <;> decide
  have hwhere : ReadsAs c.dialect "WHERE ".toList [.word "WHERE"] :=
    .keyword (by decide) fun d => by cases d <;> decide
  rw [hkeep, String.toList_append, String.toList_append, List.append_assoc, toList_joinsText hq]
  refine readsAs_joins ?_ links
  split
  · exact hwhere.append (readsAs_compiled h) (.inl (by decide))
  · exact readsAs_compiled h

end Fragments

namespace QueryCompiler

variable {q : QueryCompiler} {d : Dialect} {style : MarkerStyle} {es : List Event} {start : Int}
  {c : ClauseCompiler} {w : Written} {p? : Option Predicate} {tail : List Piece}

/-- A subquery read back. -/
theorem Assembled.reads {a : Association} {s : Subquery} {head : String} {before : List Lexeme}
    (h : Assembled q d style es start a s head before c w)
    (hc : c.Compiled s.criteria.criteria w p? tail) :
    ReadsAs d s.template.toList (.symbol '(' :: (before ++ .word "WHERE" :: a.correlation d ++
      ((if s.criteria.hasFilter then [.word "AND"] else []) ++ c.lexemes w.text)) ++
        [.symbol ')']) := by
  obtain ⟨table, hserved⟩ := h.served
  obtain ⟨rfl, -⟩ := hserved.compiler_eq
  rw [h.template]
  exact readsAs_group (readsAs_appended hc h.isHead.reads rfl)

/-- The fragment for rows read back. -/
theorem RowsAssembled.reads (hq : q.IsUsual d style) {query sorted : Query} {f : Fragment}
    {links : List Link} (h : RowsAssembled q d style es query f links sorted c w)
    (hc : c.Compiled sorted.criteria w p? tail) :
    ReadsAs d f.text.toList ((joinsSegments links).flatMap (Segment.lexemes d d.headStyle) ++
      ((if query.hasFilter then [.word "WHERE"] else []) ++ c.lexemes w.text)) := by
  obtain ⟨rfl, -⟩ := h.served.compiler_eq
  have hfilter : query.hasFilter = sorted.criteria.hasFilter := by
    rw [Query.hasFilter, Criteria.hasFilter, Criteria.hasFilter, h.filter]
  rw [h.text, hfilter]
  exact readsAs_rows hc hq.quoter links

theorem marker?_connective {w : String} (h : w = "WHERE" ∨ w = "AND") (style : MarkerStyle) :
    (Lexeme.word w).marker? style = none := by
  rcases h with rfl | rfl <;> cases style <;> simp [Lexeme.marker?, MarkerStyle.number?]

/-- What selects the rows of a subquery binds no value. -/
theorem silent_correlation (a : Association) : ∀ l ∈ a.correlation d, l.marker? style = none := by
  cases a <;> cases style <;>
    simp [Association.correlation, Dialect.headColumn, Dialect.headName, Lexeme.marker?,
      MarkerStyle.number?]

end QueryCompiler

/-! ## Sales and their origins -/

def fromOrigin : Link := ⟨"sales", "id", "sales", "origin"⟩

/-- The sales that stem from a sale. -/
def origins : Association :=
  .childOwnsKey (.text "origins") ⟨fromOrigin, some ⟨tagged, []⟩⟩

def shopQuery : Query := ⟨tagged, [origins]⟩

def shopQueries (style : MarkerStyle) : QueryCompiler :=
  ⟨shop, "sales", .dialect .default, usualSource shop .default style,
    QueryCompiler.usualPlaceholder, QueryCompiler.usualAliasStart⟩

namespace QueryCompiler

theorem create_shop (style : MarkerStyle) :
    create shop "sales" (.dialect .default) none style.name usualPlaceholder usualAliasStart =
      .ok (shopQueries style) := by
  cases style <;> rfl

section Sales

variable {style : MarkerStyle} {start : Int} {w : Written}

theorem outcome_request {k : Criteria} (hw : (shopCompiler style start).compile k = .ok w)
    (as : List Association) :
    ((shopQueries style).request "sales" start ⟨k, as⟩).outcome = .ok (.ofWritten w) := by
  have hcreate : ClauseCompiler.create shop "sales" .default style start .usual =
      .ok (shopCompiler style start) := rfl
  simp [request, shopQueries, usualSource, ClauseCompiler.run, hcreate, hw]

/-- Sales that stem from a sale are selected by criteria with an order of their own. -/
theorem outcome_subqueryOf {k : Criteria} (hsort : k.hasSort = true)
    (hw : (shopCompiler style start).compile k = .ok w) :
    ((shopQueries style).subqueryOf
      (.childOwnsKey (.text "origins") ⟨fromOrigin, some ⟨k, []⟩⟩) start).outcome =
      .ok (some ⟨"(" ++ appended ((shopQueries style).childHead fromOrigin) ⟨k, []⟩ (.text w.text) ++
        ")", .childOwnsKey (.text "origins") ⟨fromOrigin, some ⟨k, []⟩⟩, w.values, ⟨k, []⟩,
        usualPlaceholder⟩) := by
  have hsorted : ((⟨k, []⟩ : Query).sortedByKey shop "sales" .asc).outcome = .ok ⟨k, []⟩ := by
    rw [Query.sortedByKey, if_pos (show (⟨k, []⟩ : Query).hasSort = true from hsort)]
    rfl
  have hnested : ((shopQueries style).nested ⟨fromOrigin, some ⟨k, []⟩⟩ start).outcome =
      .ok (⟨k, []⟩, .ofWritten w) := by
    simp only [nested, Traced.outcome_bind]
    exact bind_eq_ok.mpr ⟨⟨k, []⟩, hsorted, bind_eq_ok.mpr ⟨_, outcome_request hw [], rfl⟩⟩
  rw [subqueryOf, Traced.outcome_bind, hnested]
  rfl

theorem exists_subqueryOf (hw : (shopCompiler style start).compile tagged = .ok w) :
    ∃ s, ((shopQueries style).subqueryOf origins start).outcome = .ok (some s) ∧
      s.values = w.values :=
  ⟨_, outcome_subqueryOf rfl hw, rfl⟩

theorem subqueries_shopQuery {s : Subquery}
    (hs : ((shopQueries style).subqueryOf origins start).outcome = .ok (some s)) :
    ((shopQueries style).subqueries (some shopQuery) start).outcome = .ok [s] := by
  simp only [subqueries, shopQuery, subqueriesFrom, Traced.outcome_bind]
  exact bind_eq_ok.mpr ⟨_, hs, rfl⟩

theorem exists_rows (hw : (shopCompiler style 1).compile tagged = .ok w) :
    ∃ f, ((shopQueries style).rows (some shopQuery)).outcome = .ok f ∧ f.values = w.values := by
  simp only [rows, Traced.outcome_bind]
  exact ⟨_, bind_eq_ok.mpr ⟨shopQuery, rfl,
    bind_eq_ok.mpr ⟨_, outcome_request hw [origins], rfl⟩⟩, rfl⟩

/-- Three values of the rows come before those of the subquery. -/
theorem exists_compile_shop (style : MarkerStyle) :
    ∃ r, ((shopQueries style).compile (some shopQuery)).outcome = .ok r ∧ r.2.length = 1 := by
  obtain ⟨w, hw, hlength⟩ := exists_compile_tagged style (.inl rfl)
  obtain ⟨w', hw', -⟩ := exists_compile_tagged style (.inr rfl)
  obtain ⟨f, hf, hvalues⟩ := exists_rows hw
  obtain ⟨s, hs, -⟩ := exists_subqueryOf hw'
  have hstart : (f.values.length : Int) + 1 = 4 := by
    rw [hvalues, hlength]
    rfl
  simp only [compile, Traced.outcome_bind]
  refine ⟨(f, [s]), bind_eq_ok.mpr ⟨f, hf, bind_eq_ok.mpr ⟨[s], ?_, rfl⟩⟩, rfl⟩
  rw [hstart, subqueries_shopQuery hs]

end Sales

end QueryCompiler

end SqlFragment
