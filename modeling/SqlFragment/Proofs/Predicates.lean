import SqlFragment.Proofs.Meanings

/-!
Predicates read back: parentheses stand wherever the precedence of the connectives asks for them.
-/
namespace SqlFragment

open Phrase

/-! ## Connectives -/

/-- Lexemes that are read as units with `AND` between them. -/
structure Conjoins (ls : List Lexeme) (us : List (List Phrase)) : Prop where
  parses : Parses ls (between "AND" us)
  ne : us ≠ []
  units : ∀ u ∈ us, IsUnit u

/-- Lexemes that are read as conjunctions with `OR` between them. -/
structure Disjoins (ls : List Lexeme) (xs : List (List (List Phrase))) : Prop where
  parses : Parses ls (between "OR" (xs.map (between "AND")))
  ne : xs ≠ []
  units : ∀ us ∈ xs, us ≠ [] ∧ ∀ u ∈ us, IsUnit u

/-- Lexemes that mean a tree wherever a conjunction may stand. -/
def Conjunct (c : ClauseCompiler) (ls : List Lexeme) (t : Filter.Tree Condition) : Prop :=
  ∃ us, Conjoins ls us ∧ Means c (.all (us.map unit)) t

/-- Lexemes that mean a tree wherever a disjunction may stand. -/
def Disjunct (c : ClauseCompiler) (ls : List Lexeme) (t : Filter.Tree Condition) : Prop :=
  ∃ xs, Disjoins ls xs ∧ Means c (.any (xs.map fun us => .all (us.map unit))) t

section Connectives

variable {c : ClauseCompiler} {ls ms : List Lexeme} {t : Filter.Tree Condition}
  {ts us : List (Filter.Tree Condition)}

theorem parses_word {w : String} (h : w ≠ "ORDER" ∧ w ≠ "LIMIT") :
    Parses [.word w] [.lexeme (.word w)] :=
  .lexeme nofun nofun (by simp [Lexeme.startsClause, h])

theorem Disjoins.meaning_eq {xs : List (List (List Phrase))} (h : Disjoins ls xs) :
    meaning (between "OR" (xs.map (between "AND"))) = .any (xs.map fun us => .all (us.map unit)) :=
  meaning_between h.ne h.units

theorem Conjoins.meaning_eq {us : List (List Phrase)} (h : Conjoins ls us) :
    meaning (between "AND" us) = .any [.all (us.map unit)] :=
  meaning_between (List.cons_ne_nil us []) (List.forall_mem_singleton.mpr ⟨h.ne, h.units⟩)

theorem Conjoins.and {xs ys : List (List Phrase)} (h : Conjoins ls xs) (h' : Conjoins ms ys) :
    Conjoins (ls ++ .word "AND" :: ms) (xs ++ ys) where
  parses := by
    rw [between_append "AND" h.ne h'.ne]
    exact h.parses.append ((parses_word (by decide)).append h'.parses)
  ne := by simp [h.ne]
  units := List.forall_mem_append.mpr ⟨h.units, h'.units⟩

theorem Conjunct.and (h : Conjunct c ls (.all ts)) (h' : Conjunct c ms (.all us)) :
    Conjunct c (ls ++ .word "AND" :: ms) (.all (ts ++ us)) := by
  obtain ⟨xs, hxs, hts⟩ := h
  obtain ⟨ys, hys, hus⟩ := h'
  refine ⟨xs ++ ys, hxs.and hys, ?_⟩
  rw [List.map_append]
  exact hts.all_append hus

theorem Disjunct.or (h : Disjunct c ls (.any ts)) (h' : Disjunct c ms (.any us)) :
    Disjunct c (ls ++ .word "OR" :: ms) (.any (ts ++ us)) := by
  obtain ⟨xs, hxs, hts⟩ := h
  obtain ⟨ys, hys, hus⟩ := h'
  refine ⟨xs ++ ys, ⟨?_, by simp [hxs.ne], List.forall_mem_append.mpr ⟨hxs.units, hys.units⟩⟩, ?_⟩
  · rw [List.map_append, between_append "OR" (by simp [hxs.ne]) (by simp [hys.ne])]
    exact hxs.parses.append ((parses_word (by decide)).append hys.parses)
  · rw [List.map_append]
    exact hts.any_append hus

theorem Conjunct.disjunct (h : Conjunct c ls t) : Disjunct c ls t := by
  obtain ⟨xs, hxs, ht⟩ := h
  refine ⟨[xs], ⟨hxs.parses, List.cons_ne_nil _ _, ?_⟩, ht.any_singleton⟩
  exact List.forall_mem_singleton.mpr ⟨hxs.ne, hxs.units⟩

/-- A unit of its own. -/
theorem conjoins_of_unit {u : List Phrase} (hparses : Parses ls u) (hu : IsUnit u) :
    Conjoins ls [u] :=
  ⟨hparses, List.cons_ne_nil _ _, List.forall_mem_singleton.mpr hu⟩

theorem conjunct_of_unit {u : List Phrase} (hparses : Parses ls u) (hu : IsUnit u)
    (h : Means c (unit u) t) : Conjunct c ls t :=
  ⟨[u], conjoins_of_unit hparses hu, h.all_singleton⟩

/-- In parentheses anything is a unit. -/
theorem Disjunct.group (h : Disjunct c ls t) :
    Conjunct c (.symbol '(' :: ls ++ [.symbol ')']) t := by
  obtain ⟨xs, hxs, ht⟩ := h
  refine conjunct_of_unit hxs.parses.group (isUnit_group _ _) ?_
  rw [hxs.meaning_eq]
  exact ht

theorem Disjunct.not (h : Disjunct c ls t) :
    Conjunct c (.word "NOT" :: (.symbol '(' :: ls ++ [.symbol ')'])) (.negation t) := by
  obtain ⟨xs, hxs, ht⟩ := h
  refine conjunct_of_unit ((parses_word (by decide)).append hxs.parses.group)
    (isUnit_of_connects ?_) ?_
  · exact List.forall_mem_cons.mpr ⟨by decide, List.forall_mem_singleton.mpr rfl⟩
  · change Means c (.negation (meaning (between "OR" (xs.map (between "AND"))))) (.negation t)
    rw [hxs.meaning_eq]
    exact ht.negation

theorem Conjunct.of_all_singleton (h : Conjunct c ls t) : Conjunct c ls (.all [t]) := by
  obtain ⟨us, hus, ht⟩ := h
  exact ⟨us, hus, ht.of_all_singleton⟩

theorem Disjunct.of_any_singleton (h : Disjunct c ls t) : Disjunct c ls (.any [t]) := by
  obtain ⟨xs, hxs, ht⟩ := h
  exact ⟨xs, hxs, ht.of_any_singleton⟩

end Connectives

/-! ## Comparisons -/

/-- Lexemes that are read as one comparison. -/
structure Compares (ls : List Lexeme) (u : List Phrase) : Prop where
  parses : Parses ls u
  isUnit : IsUnit u
  head : ∃ l rest, u = .lexeme l :: rest ∧ l ≠ .word "NOT" ∧ l ≠ .word "1"

theorem Compares.unit_eq {ls : List Lexeme} {u : List Phrase} (h : Compares ls u) :
    unit u = .leaf ls := by
  obtain ⟨l, rest, rfl, hnot, hone⟩ := h.head
  rw [unit_of_head hnot hone, h.parses.lexemes]

section Comparisons

variable {c : ClauseCompiler} {ls : List Lexeme} {us : List Phrase}

theorem parses_shown_column (column : Column) :
    ∃ a rest, Parses (c.shown column.pieces) (.lexeme (.name a) :: rest) ∧
      ∀ p ∈ Phrase.lexeme (.name a) :: rest, p.connects = false := by
  obtain ⟨a, b, hcolumn⟩ := c.shown_column column
  have hflat : Parses.Flat [.name a, .symbol '.', .name b] := by
    simp [Parses.Flat, Lexeme.startsClause]
  refine ⟨a, [.lexeme (.symbol '.'), .lexeme (.name b)], hcolumn ▸ Parses.flat hflat, ?_⟩
  simp [connects, isWord]

/-- A column and what is said of it. -/
theorem compares_column (column : Column) (h : Parses ls us)
    (hus : ∀ p ∈ us, p.connects = false) : ∃ u, Compares (c.shown column.pieces ++ ls) u := by
  obtain ⟨a, rest, hparses, hrest⟩ := parses_shown_column (c := c) column
  exact ⟨_, hparses.append h, isUnit_of_connects (List.forall_mem_append.mpr ⟨hrest, hus⟩),
    _, _, rfl, nofun, nofun⟩

theorem shown_lowered (ps : List Piece) : c.shown (Condition.lowered ps) =
    .word "lower" :: (.symbol '(' :: c.shown ps ++ [.symbol ')']) := by
  have hopen : c.shown [.word "lower("] = [.word "lower", .symbol '('] :=
    c.shown_keyword fun d => by cases d <;> decide
  have hclose : c.shown [.word ")"] = [.symbol ')'] :=
    c.shown_keyword fun d => by cases d <;> decide
  rw [Condition.lowered, c.shown_append, c.shown_cons, hopen, hclose]
  rfl

theorem parses_lowered {ps : List Piece} (h : Parses (c.shown ps) us) :
    Parses (c.shown (Condition.lowered ps))
      [.lexeme (.word "lower"), .group (c.shown ps) (meaning us)] := by
  rw [shown_lowered]
  exact (parses_word (w := "lower") (by decide)).append h.group

/-- A keyword between the operands of a condition. -/
structure IsOperator (w : String) (ls : List Lexeme) : Prop where
  lexemes : ∀ d : Dialect, lex d.mark w.toList = ls
  flat : Parses.Flat ls
  apart : ∀ l ∈ ls, (Phrase.lexeme l).connects = false

theorem IsOperator.parses {w : String} (h : IsOperator w ls) :
    Parses (c.shown [.word w]) (ls.map .lexeme) := by
  rw [c.shown_keyword h.lexemes]
  exact .flat h.flat

theorem IsOperator.connects_eq {w : String} (h : IsOperator w ls) :
    ∀ p ∈ ls.map Phrase.lexeme, p.connects = false := by
  intro p hp
  obtain ⟨l, hl, rfl⟩ := List.mem_map.mp hp
  exact h.apart l hl

/-- What is said of a column in one word. -/
theorem compares_word (column : Column) {w : String} (hw : IsOperator w ls) :
    ∃ u, Compares (c.shown (column.pieces ++ [.word w])) u := by
  rw [c.shown_append]
  exact compares_column column hw.parses hw.connects_eq

/-- A column compared with a value. -/
theorem compares_value (column : Column) {w : String} (hw : IsOperator w ls) (label : String)
    (v : Value) : ∃ u, Compares (c.shown (column.pieces ++ [.word w, .marker label v])) u := by
  have hvalue : Parses (c.shown [.marker label v]) [.lexeme (.word "?")] :=
    parses_word (by decide)
  rw [c.shown_append, c.shown_cons]
  exact compares_column column (hw.parses.append hvalue)
    (List.forall_mem_append.mpr ⟨hw.connects_eq, List.forall_mem_singleton.mpr (by decide)⟩)

/-- A column compared with a value, both in letters of one case. -/
theorem compares_lowered (column : Column) {w : String} (hw : IsOperator w ls) (label : String)
    (v : Value) : ∃ u, Compares (c.shown (Condition.lowered column.pieces ++
      .word w :: Condition.lowered [.marker label v])) u := by
  obtain ⟨a, rest, hcolumn, -⟩ := parses_shown_column (c := c) column
  have hvalue : Parses (c.shown [.marker label v]) [.lexeme (.word "?")] :=
    parses_word (by decide)
  have hends (qs : List Lexeme) (m : Meaning) :
      ∀ p ∈ [Phrase.lexeme (.word "lower"), .group qs m], p.connects = false := by
    simp [connects, isWord]
  rw [c.shown_append, c.shown_cons]
  refine ⟨_, (parses_lowered hcolumn).append (hw.parses.append (parses_lowered hvalue)),
    isUnit_of_connects ?_, _, _, rfl, by decide, by decide⟩
  exact List.forall_mem_append.mpr ⟨hends _ _, List.forall_mem_append.mpr ⟨hw.connects_eq, hends _ _⟩⟩

/-- What is said of a column in a range. -/
def rangeLexemes (negated : Bool) : List Lexeme :=
  (if negated then [.word "NOT"] else []) ++ [.word "BETWEEN", .word "?", .word "AND", .word "?"]

/-- The `AND` of a range does not end a unit. -/
theorem isUnit_between (a b : String) (negated : Bool) :
    Phrase.IsUnit ((.name a :: .symbol '.' :: .name b :: rangeLexemes negated).map .lexeme) where
  whole := by cases negated <;> simp [rangeLexemes, isWord]
  apart ps := by
    cases negated <;> cases h : conjuncts false ps <;> simp [rangeLexemes, conjuncts, isWord, h]

theorem compares_between (column : Column) (negated : Bool) (low high : Value) :
    ∃ u, Compares (c.shown (column.pieces ++
      [.word (" " ++ (if negated then "NOT " else "") ++ "BETWEEN "), .marker valueLabel low,
        .word " AND ", .marker valueLabel high])) u := by
  obtain ⟨a, b, hcolumn⟩ := c.shown_column column
  have hword : c.shown [.word (" " ++ (if negated then "NOT " else "") ++ "BETWEEN ")] =
      (if negated then [.word "NOT"] else []) ++ [.word "BETWEEN"] := by
    refine c.shown_keyword fun d => ?_
    cases negated <;> cases d <;> decide
  have hand : c.shown [.word " AND "] = [.word "AND"] :=
    c.shown_keyword fun d => by cases d <;> decide
  have hall : c.shown (column.pieces ++
      [.word (" " ++ (if negated then "NOT " else "") ++ "BETWEEN "), .marker valueLabel low,
        .word " AND ", .marker valueLabel high]) =
      .name a :: .symbol '.' :: .name b :: rangeLexemes negated := by
    rw [c.shown_append, hcolumn, c.shown_cons, hword, c.shown_cons, c.shown_marker,
      c.shown_cons (.word " AND "), hand, c.shown_marker]
    simp [rangeLexemes]
  rw [hall]
  refine ⟨_, .flat ?_, isUnit_between a b negated, .name a, _, rfl, nofun, nofun⟩
  cases negated <;> simp [rangeLexemes, Parses.Flat, Lexeme.startsClause]

/-! ### Lists -/

theorem shown_keyword_segment {w : String} (h : ∀ d : Dialect, lex d.mark w.toList = ls) :
    Segment.shown c (.word w) = ls :=
  h c.dialect

theorem parses_joined {parts : List (List Segment)}
    (h : ∀ p ∈ parts, ∃ us, Parses (p.flatMap (Segment.shown c)) us) :
    ∃ us, Parses ((Segment.joined parts).flatMap (Segment.shown c)) us := by
  have hcomma : Segment.shown c (.word ", ") = [.symbol ','] :=
    shown_keyword_segment fun d => by cases d <;> decide
  have hsymbol : Parses [.symbol ','] [.lexeme (.symbol ',')] :=
    .lexeme (by decide) (by decide) rfl
  refine Segment.joined_induction (P := fun xs => ∃ us, Parses (xs.flatMap (Segment.shown c)) us)
    ⟨[], .nil⟩ ?_ h
  rintro xs ys ⟨us, hxs⟩ ⟨ws, hys⟩
  rw [List.flatMap_append, List.flatMap_cons, hcomma]
  exact ⟨_, hxs.append (hsymbol.append hys)⟩

theorem parses_marker (n : Nat) (v : Value) :
    ∃ us, Parses ([Segment.marker n v].flatMap (Segment.shown c)) us :=
  ⟨_, parses_word (w := "?") (by decide)⟩

/-- Every tuple of markers is a group. -/
theorem parses_tuples (first : Nat) (groups : List (List Value)) :
    ∃ us, Parses ((Segment.joined (tupleSegments first groups)).flatMap (Segment.shown c)) us := by
  have hopen : Segment.shown c (.word "(") = [.symbol '('] :=
    shown_keyword_segment fun d => by cases d <;> decide
  have hclose : Segment.shown c (.word ")") = [.symbol ')'] :=
    shown_keyword_segment fun d => by cases d <;> decide
  refine parses_joined fun p hp => ?_
  obtain ⟨g, -, rfl⟩ := List.mem_map.mp hp
  have hparts : ∀ q ∈ ((tupleMarks g.2 g.1).zip g.1).map fun m => [Segment.marker (first + m.1) m.2],
      ∃ us, Parses (q.flatMap (Segment.shown c)) us := by
    intro q hq
    obtain ⟨m, -, rfl⟩ := List.mem_map.mp hq
    exact parses_marker _ _
  obtain ⟨us, hmarks⟩ := parses_joined hparts
  have hgroup := hmarks.group
  rw [List.flatMap_append, List.flatMap_cons, hopen, List.flatMap_singleton, hclose]
  exact ⟨_, hgroup⟩

/-- What stands for an empty list is a query of its own. -/
theorem parses_emptyList (negated : Bool) (h : c.dialect = .sqlite) :
    ∃ us, Parses (Segment.shown c (.word (emptyList c.dialect negated))) us := by
  have hlexemes : Segment.shown c (.word (emptyList c.dialect negated)) =
      [.word "SELECT", .word "1", .word "FROM"] ++
        ((.symbol '(' :: [.word "SELECT", .word "1"] ++ [.symbol ')']) ++
          [.word "WHERE", .word "1!=1"]) := by
    rw [h]
    exact shown_keyword_segment fun d => by cases negated <;> cases d <;> decide
  rw [hlexemes]
  exact ⟨_, (Parses.flat (by decide)).append
    ((Parses.group (Parses.flat (by decide))).append (Parses.flat (by decide)))⟩

/-- What stands for the members of a list is balanced. -/
theorem parses_list (negated : Bool) {vs : List Value} (h : vs ≠ [] ∨ c.dialect = .sqlite) :
    ∃ us, Parses ((listSegments c.dialect negated 0 vs).flatMap (Segment.shown c)) us := by
  unfold listSegments
  split
  · obtain ⟨us, htuples⟩ := parses_tuples (c := c) 0 (groupsOf vs)
    split
    · have hvalues : Segment.shown c (.word "VALUES ") = [.word "VALUES"] :=
        shown_keyword_segment fun d => by cases d <;> decide
      have hall := (parses_word (w := "VALUES") (by decide)).append htuples
      rw [List.flatMap_append, List.flatMap_singleton, hvalues]
      exact ⟨_, hall⟩
    · exact ⟨us, htuples⟩
  · split
    · rename_i hempty
      rw [List.flatMap_singleton]
      exact parses_emptyList negated (h.resolve_left (by simpa using hempty))
    · refine parses_joined fun p hp => ?_
      obtain ⟨m, -, rfl⟩ := List.mem_map.mp hp
      exact parses_marker _ _

/-- What stands between a column and a list. -/
def inLexemes (negated : Bool) : List Lexeme :=
  if negated then [.word "NOT", .word "IN"] else [.word "IN"]

theorem shown_in (negated : Bool) (p : Piece) :
    c.shown [.word (if negated then " NOT IN (" else " IN ("), p, .word ")"] =
      inLexemes negated ++ (.symbol '(' :: c.shown [p] ++ [.symbol ')']) := by
  have hin : c.shown [.word (if negated then " NOT IN (" else " IN (")] =
      inLexemes negated ++ [.symbol '('] :=
    c.shown_keyword fun d => by cases negated <;> cases d <;> decide
  have hclose : c.shown [.word ")"] = [.symbol ')'] :=
    c.shown_keyword fun d => by cases d <;> decide
  rw [c.shown_cons, hin, c.shown_cons p, hclose]
  simp

/-- A column and a list in parentheses. -/
theorem compares_members (column : Column) (negated : Bool) {p : Piece}
    (h : Parses (c.shown [p]) us) :
    ∃ u, Compares (c.shown (column.pieces ++
      [.word (if negated then " NOT IN (" else " IN ("), p, .word ")"])) u := by
  have hword : Parses (inLexemes negated) ((inLexemes negated).map .lexeme) := by
    cases negated <;> exact .flat (by decide)
  have hapart : ∀ q ∈ (inLexemes negated).map Phrase.lexeme, q.connects = false := by
    cases negated <;> decide
  rw [c.shown_append, shown_in]
  exact compares_column column (hword.append h.group)
    (List.forall_mem_append.mpr ⟨hapart, List.forall_mem_singleton.mpr rfl⟩)

/-- Where a list is empty, most dialects have `NULL` in its place. -/
theorem compares_list (column : Column) (negated : Bool) (vs : List Value) :
    ∃ u, Compares
      (c.shown ((⟨column, .member negated vs⟩ : Condition).comparison c.dialect)) u := by
  by_cases hempty : vs = [] ∧ c.dialect ≠ .sqlite
  · simp only [Condition.comparison, hempty, List.isEmpty_nil, ne_eq, not_false_eq_true,
      decide_true, Bool.and_true, if_true]
    have hnull : c.shown [.word "NULL"] = [.word "NULL"] :=
      c.shown_keyword fun d => by cases d <;> decide
    have hparses : Parses (c.shown [.word "NULL"]) [.lexeme (.word "NULL")] := by
      rw [hnull]
      exact parses_word (by decide)
    exact compares_members column negated hparses
  · have hlist : vs ≠ [] ∨ c.dialect = .sqlite := by tauto
    have hif : ¬(vs.isEmpty && decide (c.dialect ≠ .sqlite)) = true := by simpa using hempty
    obtain ⟨us, hus⟩ := parses_list (c := c) negated hlist
    simp only [Condition.comparison, if_neg hif]
    have hparses : Parses (c.shown [.members (columnLabel column.name) negated vs]) us := by
      rw [ClauseCompiler.shown, List.flatMap_singleton]
      exact hus
    exact compares_members column negated hparses

/-! ### Operators -/

theorem isOperator_symbol (op : Comparison) :
    IsOperator (" " ++ op.symbol ++ " ") [.word op.symbol] := by
  cases op <;> exact ⟨fun d => by cases d <;> decide, by decide, by decide⟩

theorem isOperator_isNull (negated : Bool) :
    IsOperator (" IS " ++ (if negated then "NOT " else "") ++ "NULL")
      (.word "IS" :: (if negated then [.word "NOT"] else []) ++ [.word "NULL"]) := by
  cases negated <;> exact ⟨fun d => by cases d <;> decide, by decide, by decide⟩

theorem isOperator_like (negated : Bool) :
    IsOperator (" " ++ (if negated then "NOT " else "") ++ "LIKE ")
      ((if negated then [.word "NOT"] else []) ++ [.word "LIKE"]) := by
  cases negated <;> exact ⟨fun d => by cases d <;> decide, by decide, by decide⟩

theorem isOperator_ilike (negated : Bool) :
    IsOperator (" " ++ (if negated then "NOT " else "") ++ "ILIKE ")
      ((if negated then [.word "NOT"] else []) ++ [.word "ILIKE"]) := by
  cases negated <;> exact ⟨fun d => by cases d <;> decide, by decide, by decide⟩

theorem isOperator_equal (negated : Bool) :
    IsOperator (if negated then " != " else " = ") [.word (if negated then "!=" else "=")] := by
  cases negated <;> exact ⟨fun d => by cases d <;> decide, by decide, by decide⟩

/-- What a condition compares is read as one comparison. -/
theorem compares_comparison (x : Condition) :
    ∃ u, Compares (c.shown (x.comparison c.dialect)) u := by
  obtain ⟨column, test⟩ := x
  cases test with
  | compare op v => exact compares_value column (isOperator_symbol op) _ v
  | isNull negated => exact compares_word column (isOperator_isNull negated)
  | between negated low high => exact compares_between column negated low high
  | like negated pattern => exact compares_value column (isOperator_like negated) _ _
  | ilike negated pattern =>
    simp only [Condition.comparison, Condition.pieces]
    split
    · exact compares_value column (isOperator_ilike negated) _ _
    · exact compares_lowered column (isOperator_like negated) _ _
  | member negated vs => exact compares_list column negated vs
  | equalFold negated v => exact compares_lowered column (isOperator_equal negated) _ v

end Comparisons

/-! ## Conditions -/

section Conditions

variable {c : ClauseCompiler} {ls : List Lexeme} {t t' : Filter.Tree Condition}

theorem Conjunct.congr (h : Conjunct c ls t) (hleaves : t.leaves = t'.leaves)
    (hvalue : ∀ v, Fits v t.leaves → t.value v = t'.value v) : Conjunct c ls t' := by
  obtain ⟨us, hus, ht⟩ := h
  refine ⟨us, hus, by rw [ht.leaves, hleaves], fun v hv => ?_⟩
  rw [← hleaves] at hv
  rw [ht.value v hv, hvalue v hv]

/-- What stands for a list without members: a condition that every row meets, or that none
meets. -/
theorem conjunct_constant (op : String) (t : Filter.Tree Condition)
    (h : (op, t) ∈ [("=", .all []), ("!=", .any [])]) :
    Conjunct c (.symbol '(' :: [.word "1", .word op, .word "1"] ++ [.symbol ')']) t := by
  refine Disjunct.group (Conjunct.disjunct ?_)
  simp only [List.mem_cons, Prod.mk.injEq, List.not_mem_nil, or_false] at h
  rcases h with ⟨rfl, rfl⟩ | ⟨rfl, rfl⟩
  · exact conjunct_of_unit (.flat (by decide)) (isUnit_of_connects (by decide)) ⟨rfl, fun _ _ => rfl⟩
  · exact conjunct_of_unit (.flat (by decide)) (isUnit_of_connects (by decide)) ⟨rfl, fun _ _ => rfl⟩

theorem conjunct_comparison (x : Condition) :
    Conjunct c (c.shown (x.comparison c.dialect)) (.leaf x) := by
  obtain ⟨u, hu⟩ := compares_comparison (c := c) x
  refine conjunct_of_unit hu.parses hu.isUnit ?_
  rw [hu.unit_eq]
  exact ⟨rfl, fun _ _ => rfl⟩

/-- A list without members ends its parentheses, and opens others. -/
theorem shown_members_nil (label : String) (negated : Bool) (h : c.dialect ≠ .sqlite) :
    .symbol '(' :: c.shown [.members label negated []] ++ [.symbol ')'] =
      (.symbol '(' :: c.shown [.word "NULL"] ++ [.symbol ')']) ++
        .word (if negated then "OR" else "AND") ::
          (.symbol '(' :: [.word "1", .word (if negated then "=" else "!="), .word "1"] ++
            [.symbol ')']) := by
  have hlist : c.shown [.members label negated []] =
      lex c.dialect.mark (emptyList c.dialect negated).toList := by
    simp [ClauseCompiler.shown, Piece.segments, listSegments, holdsTuples, Segment.shown]
  rw [hlist, c.shown_word]
  revert h
  cases c.dialect <;> cases negated <;> decide

theorem shown_comparison_nil (column : Column) (negated : Bool) (h : c.dialect ≠ .sqlite) :
    c.shown (Condition.comparison c.dialect ⟨column, .member negated []⟩) =
      c.shown column.pieces ++ (inLexemes negated ++
        (.symbol '(' :: c.shown [.word "NULL"] ++ [.symbol ')'])) := by
  simp only [Condition.comparison, List.isEmpty_nil, ne_eq, h, not_false_eq_true, decide_true,
    Bool.and_true, if_true]
  rw [c.shown_append, shown_in]

theorem shown_member (column : Column) (vs : List Value) :
    c.shown (Condition.pieces c.dialect ⟨column, .member false vs⟩) =
      c.shown column.pieces ++ (inLexemes false ++ (.symbol '(' ::
        c.shown [.members (columnLabel column.name) false vs] ++ [.symbol ')'])) := by
  rw [← shown_in, ← c.shown_append]
  rfl

theorem shown_not_member (column : Column) (vs : List Value) :
    c.shown (Condition.pieces c.dialect ⟨column, .member true vs⟩) =
      .symbol '(' :: (c.shown column.pieces ++ (inLexemes true ++ (.symbol '(' ::
        c.shown [.members (columnLabel column.name) true vs] ++ [.symbol ')']))) ++
          [.symbol ')'] := by
  have hopen : c.shown [.word "("] = [.symbol '('] :=
    c.shown_keyword fun d => by cases d <;> decide
  have hclose : c.shown [.word "))"] = c.shown [.word ")"] ++ [.symbol ')'] := by
    rw [c.shown_word, c.shown_word]
    cases c.dialect <;> decide
  have hlist (w : String) : c.shown [.word " NOT IN (", .members (columnLabel column.name) true vs,
      .word w] = c.shown [.word " NOT IN (", .members (columnLabel column.name) true vs] ++
        c.shown [.word w] := c.shown_append [_, _] [_]
  have hin := shown_in (c := c) true (.members (columnLabel column.name) true vs)
  rw [if_pos rfl, hlist] at hin
  rw [← hin, Condition.pieces, c.shown_append, c.shown_cons, hopen, hlist, hclose]
  simp

theorem all_fixed {x : Condition} (h : x.fixed? = some false) (v : Nat → Truth)
    (hv : Fits v [x]) :
    Filter.Tree.value (.all [.leaf x, .any []]) v = Filter.Tree.value (.leaf x) v := by
  have := hv 0 x false rfl h
  simp [Filter.Tree.value, Filter.Tree.values, Truth.all, Truth.any, this, Truth.ofBool, Truth.and]

theorem any_fixed {x : Condition} (h : x.fixed? = some true) (v : Nat → Truth)
    (hv : Fits v [x]) :
    Filter.Tree.value (.any [.leaf x, .all []]) v = Filter.Tree.value (.leaf x) v := by
  have := hv 0 x true rfl h
  simp [Filter.Tree.value, Filter.Tree.values, Truth.all, Truth.any, this, Truth.ofBool, Truth.and,
    Truth.or, Truth.not]

/-- A condition means itself. -/
theorem conjunct_condition (x : Condition) :
    Conjunct c (c.shown (x.pieces c.dialect)) (.leaf x) := by
  have hself := conjunct_comparison (c := c) x
  obtain ⟨column, test⟩ := x
  cases test with
  | member negated vs =>
    by_cases hempty : vs = [] ∧ c.dialect ≠ .sqlite
    · obtain ⟨rfl, hd⟩ := hempty
      rw [shown_comparison_nil column negated hd] at hself
      cases negated with
      | false =>
        have hnone := conjunct_constant (c := c) "!=" (.any []) (by simp)
        have hboth := hself.of_all_singleton.and hnone.of_all_singleton
        rw [shown_member, shown_members_nil _ _ hd, ← List.append_assoc, ← List.append_assoc]
        rw [← List.append_assoc] at hboth
        exact hboth.congr rfl (all_fixed rfl)
      | true =>
        have hall := conjunct_constant (c := c) "=" (.all []) (by simp)
        have hboth := (hself.disjunct.of_any_singleton.or hall.disjunct.of_any_singleton).group
        rw [shown_not_member, shown_members_nil _ _ hd, ← List.append_assoc, ← List.append_assoc]
        rw [← List.append_assoc] at hboth
        exact hboth.congr rfl (any_fixed rfl)
    · have hif : ¬(vs.isEmpty && decide (c.dialect ≠ .sqlite)) = true := by simpa using hempty
      simp only [Condition.comparison, if_neg hif] at hself
      rw [c.shown_append, shown_in] at hself
      cases negated with
      | false =>
        rw [shown_member]
        exact hself
      | true =>
        rw [shown_not_member]
        exact hself.disjunct.group
  | _ => exact hself

end Conditions

/-! ## Predicates -/

namespace Predicate

mutual

/-- The tree of the conditions that a predicate joins. -/
def toTree : Predicate → Filter.Tree Condition
  | .condition x => .leaf x
  | .all ps => .all (toTrees ps)
  | .any ps => .any (toTrees ps)
  | .negation p => .negation p.toTree

def toTrees : List Predicate → List (Filter.Tree Condition)
  | [] => []
  | p :: ps => p.toTree :: toTrees ps

end

end Predicate

section Predicates

variable (c : ClauseCompiler)

theorem shown_grouped (ps : List Piece) :
    c.shown (Predicate.grouped ps) = .symbol '(' :: c.shown ps ++ [.symbol ')'] := by
  have hopen : c.shown [.word "("] = [.symbol '('] :=
    c.shown_keyword fun d => by cases d <;> decide
  have hclose : c.shown [.word ")"] = [.symbol ')'] :=
    c.shown_keyword fun d => by cases d <;> decide
  rw [Predicate.grouped, c.shown_append, c.shown_cons, hopen, hclose]
  rfl

/-- Conjunctions are read as the conjunction of their parts. -/
theorem conjunct_all {ps : List Predicate} (hne : ps ≠ [])
    (h : ∀ p ∈ ps, Conjunct c (c.shown (p.conjunctText c.dialect)) p.toTree) :
    Conjunct c (c.shown (joinPieces (.word " AND ") (ps.map (Predicate.conjunctText c.dialect))))
      (.all (Predicate.toTrees ps)) := by
  have hand : c.shown [.word " AND "] = [.word "AND"] :=
    c.shown_keyword fun d => by cases d <;> decide
  induction ps with
  | nil => contradiction
  | cons p ps ih =>
    obtain ⟨hp, hps⟩ := List.forall_mem_cons.mp h
    cases ps with
    | nil => exact hp.of_all_singleton
    | cons q ps =>
      have hboth := hp.of_all_singleton.and (ih (List.cons_ne_nil _ _) hps)
      rw [List.map_cons, List.map_cons, joinPieces, c.shown_append, c.shown_cons, hand]
      · exact hboth
      · exact List.cons_ne_nil _ _

theorem disjunct_any {ps : List Predicate} (hne : ps ≠ [])
    (h : ∀ p ∈ ps, Disjunct c (c.shown (p.pieces c.dialect)) p.toTree) :
    Disjunct c (c.shown (joinPieces (.word " OR ") (ps.map (Predicate.pieces c.dialect))))
      (.any (Predicate.toTrees ps)) := by
  have hor : c.shown [.word " OR "] = [.word "OR"] :=
    c.shown_keyword fun d => by cases d <;> decide
  induction ps with
  | nil => contradiction
  | cons p ps ih =>
    obtain ⟨hp, hps⟩ := List.forall_mem_cons.mp h
    cases ps with
    | nil => exact hp.of_any_singleton
    | cons q ps =>
      have hboth := hp.of_any_singleton.or (ih (List.cons_ne_nil _ _) hps)
      rw [List.map_cons, List.map_cons, joinPieces, c.shown_append, c.shown_cons, hor]
      · exact hboth
      · exact List.cons_ne_nil _ _

mutual

/-- A predicate means its own tree, where a conjunction may stand and where a disjunction may. -/
theorem reads_predicate : ∀ p : Predicate, p.IsFull →
    Conjunct c (c.shown (p.conjunctText c.dialect)) p.toTree ∧
      Disjunct c (c.shown (p.pieces c.dialect)) p.toTree
  | .condition x, _ => by
    have h := conjunct_condition (c := c) x
    rw [Predicate.conjunctText, Predicate.pieces]
    · exact ⟨h, h.disjunct⟩
    · exact nofun
  | .all ps, hfull => by
    have h := conjunct_all c hfull.1 fun p hp => (reads_predicates ps hfull.2 p hp).1
    rw [Predicate.conjunctText, Predicate.pieces, Predicate.conjunctPieces_eq]
    · exact ⟨h, h.disjunct⟩
    · exact nofun
  | .any ps, hfull => by
    have h := disjunct_any c hfull.1 fun p hp => (reads_predicates ps hfull.2 p hp).2
    rw [Predicate.conjunctText, shown_grouped, Predicate.pieces, Predicate.disjunctPieces_eq]
    exact ⟨h.group, h⟩
  | .negation p, hfull => by
    have h := (reads_predicate p hfull).2.not
    have hnot : c.shown [.word "NOT "] = [.word "NOT"] :=
      c.shown_keyword fun d => by cases d <;> decide
    rw [Predicate.conjunctText, Predicate.pieces, c.shown_cons, hnot, shown_grouped]
    · exact ⟨h, h.disjunct⟩
    · exact nofun

theorem reads_predicates : ∀ ps : List Predicate, Predicate.AreFull ps → ∀ p ∈ ps,
    Conjunct c (c.shown (p.conjunctText c.dialect)) p.toTree ∧
      Disjunct c (c.shown (p.pieces c.dialect)) p.toTree
  | [], _ => nofun
  | p :: ps, hfull =>
    List.forall_mem_cons.mpr ⟨reads_predicate p hfull.1, reads_predicates ps hfull.2⟩

end

end Predicates

end SqlFragment
