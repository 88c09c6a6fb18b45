import SqlFragment.Proofs.Fragments

/-!
Names in the fixed parts of fragments. Joins and the heads of subqueries read back as fixed words and
punctuation around the names that were given, however these are spelled, and whatever follows.
-/
namespace SqlFragment

/-! ## Doubling undone -/

/-- A text with one of a character wherever two stand together. -/
def undouble (c : Char) : List Char → List Char
  | a :: b :: cs => if a = c ∧ b = c then c :: undouble c cs else a :: undouble c (b :: cs)
  | cs => cs

theorem undouble_pair (c : Char) (cs : List Char) :
    undouble c (c :: c :: cs) = c :: undouble c cs := by
  rw [undouble, if_pos ⟨rfl, rfl⟩]

theorem undouble_cons {a c : Char} (h : a ≠ c) (cs : List Char) :
    undouble c (a :: cs) = a :: undouble c cs := by
  cases cs with
  | nil => rfl
  | cons b cs => rw [undouble, if_neg fun hab => h hab.1]

theorem undouble_shown {q : Quoting} (h : q.doublesPercent = true) (cs : List Char) :
    undouble '%' (q.shown cs) = cs := by
  induction cs with
  | nil => rfl
  | cons c cs ih =>
    rw [q.shown_cons]
    by_cases hc : c = '%'
    · rw [if_pos (by simp [h, hc]), hc, List.cons_append, List.singleton_append, undouble_pair, ih]
    · rw [if_neg (by simp [hc]), List.singleton_append, undouble_cons hc, ih]

/-- A name as it was before percent signs were doubled in it. -/
def Dialect.decodedName (d : Dialect) (s : String) : String :=
  match d with
  | .postgresql | .mysql => String.ofList (undouble '%' s.toList)
  | .default | .sqlite => s

def Lexeme.decoded (d : Dialect) : Lexeme → Lexeme
  | .name s => .name (d.decodedName s)
  | l => l

/-- The lexemes of a text, its names as they were before anything in them was doubled. -/
def Dialect.decode (d : Dialect) (cs : List Char) : List Lexeme :=
  (lex d.mark cs).map (Lexeme.decoded d)

theorem decoded_headName (d : Dialect) (s : String) : (d.headName s).decoded d = .name s := by
  apply congrArg Lexeme.name
  have hdoubled (h : d.usualQuoting.doublesPercent = true) :
      String.ofList (undouble '%' (String.ofList (d.usualQuoting.shown s.toList)).toList) = s := by
    rw [String.toList_ofList, undouble_shown h, String.ofList_toList]
  have hkept (h : d.usualQuoting.doublesPercent = false) :
      String.ofList (d.usualQuoting.shown s.toList) = s := by
    rw [shown_eq_self h, String.ofList_toList]
  cases d with
  | postgresql | mysql => exact hdoubled rfl
  | default | sqlite => exact hkept rfl

/-! ## Fixed sequences -/

def columnLexemes (table name : String) : List Lexeme := [.name table, .symbol '.', .name name]

namespace Link

/-- A join in lexemes. -/
def joinLexemes (link : Link) : List Lexeme :=
  [Lexeme.word "LEFT", .word "OUTER", .word "JOIN", .name link.childTable, .word "ON"] ++
    columnLexemes link.parentTable link.parentKey ++
    Lexeme.word "=" :: columnLexemes link.childTable link.childKey

/-- The head of a subquery of the child table in lexemes, up to its placeholder. -/
def childHeadLexemes (link : Link) : List Lexeme :=
  [.word "SELECT", .word "*", .word "FROM", .name link.childTable, .word "WHERE",
    .name link.childKey, .word "="]

/-- The columns that a subquery of the target table selects, and the key of the link table under
another name. -/
def selectedLexemes (link target : Link) (columns : List String) (key : String) : List Lexeme :=
  [Lexeme.symbol ','].intercalate (columns.map (columnLexemes target.childTable) ++
    [columnLexemes link.childTable link.childKey ++ [Lexeme.word "AS", .name key]])

/-- The head of a subquery of the target table in lexemes, up to its placeholder. -/
def junctionHeadLexemes (link target : Link) (columns : List String) (key : String) :
    List Lexeme :=
  Lexeme.word "SELECT" :: link.selectedLexemes target columns key ++
    [Lexeme.word "FROM", .name target.childTable, .word "INNER", .word "JOIN",
      .name link.childTable, .word "ON"] ++
    columnLexemes target.parentTable target.parentKey ++
    Lexeme.word "=" :: columnLexemes target.childTable target.childKey ++
    Lexeme.word "WHERE" :: columnLexemes target.childTable target.childKey ++
    [Lexeme.word "IN", .symbol '(', .word "SELECT"] ++
    columnLexemes link.childTable target.parentKey ++
    [Lexeme.word "FROM", .name link.childTable, .word "WHERE"] ++
    columnLexemes link.childTable link.childKey ++ [Lexeme.word "="]

end Link

/-- The keywords of joins and of whole heads. -/
def headPhrases : List String := headWords ++ [" WHERE ", " IN (SELECT "]

namespace Segment

variable {d : Dialect}

/-- The lexemes of a segment where the usual quoting of a dialect is undone. -/
def decoded (d : Dialect) (s : Segment) : List Lexeme :=
  (s.lexemes d d.headStyle).map (Lexeme.decoded d)

theorem decode_segments {segs : List Segment} (h : Tidy segs) :
    d.decode (segs.flatMap (chars d d.headStyle)) = segs.flatMap (decoded d) := by
  rw [Dialect.decode, (ReadsAs.segments h).lexemes, List.map_flatMap]
  rfl

theorem decoded_name (s : String) : (name s).decoded d = [.name s] := by
  rw [decoded, lexemes_name, List.map_singleton, decoded_headName]

/-- No name stands in a keyword, so that it reads the same in every dialect. -/
theorem decoded_word {w : String} (h : w ∈ headPhrases) :
    (word w).decoded d = lex '\x22' w.toList := by
  have hall : ∀ w ∈ headPhrases, (word w).decoded d = lex '\x22' w.toList := by
    cases d <;> decide
  exact hall w h

theorem decoded_column (table name : String) :
    (column table name).flatMap (decoded d) = columnLexemes table name := by
  simp (disch := decide) only [column, List.flatMap_cons, List.flatMap_nil, decoded_name,
    decoded_word]
  rfl

theorem decoded_joined (parts : List (List Segment)) :
    (joined parts).flatMap (decoded d) =
      [Lexeme.symbol ','].intercalate (parts.map (List.flatMap (decoded d))) := by
  have hcomma : (word ", ").decoded d = [.symbol ','] := decoded_word (by decide)
  rw [joined, flatMap_intersperse, List.flatMap_singleton, hcomma]
  rfl

end Segment

section Decoding

variable {d : Dialect}

theorem decoded_joinSegments (link : Link) :
    link.joinSegments.flatMap (Segment.decoded d) = link.joinLexemes := by
  simp (disch := decide) only [Link.joinSegments, List.flatMap_cons, List.flatMap_append,
    List.flatMap_nil, Segment.decoded_column, Segment.decoded_name, Segment.decoded_word]
  rfl

theorem decoded_childHead (link : Link) :
    (Segment.head link.childSegments link.childKeySegments).flatMap (Segment.decoded d) =
      link.childHeadLexemes := by
  simp (disch := decide) only [Segment.head, Link.childSegments, Link.childKeySegments,
    List.flatMap_cons, List.flatMap_append, List.flatMap_nil, Segment.decoded_name,
    Segment.decoded_word]
  rfl

theorem decoded_selected (link target : Link) (columns : List String) (key : String) :
    (Segment.joined (columns.map (Segment.column target.childTable) ++
      [Segment.column link.childTable link.childKey ++
        Segment.word " AS " :: [Segment.name key]])).flatMap (Segment.decoded d) =
      link.selectedLexemes target columns key := by
  have has : (Segment.word " AS ").decoded d = [.word "AS"] := Segment.decoded_word (by decide)
  rw [Segment.decoded_joined, Link.selectedLexemes]
  simp only [List.map_append, List.map_map, List.map_cons, List.map_nil, List.flatMap_append,
    List.flatMap_cons, List.flatMap_nil, Function.comp_def, Segment.decoded_column, has,
    Segment.decoded_name, List.append_nil, List.cons_append, List.nil_append]

theorem decoded_junctionHead (link target : Link) (columns : List String) (key : String) :
    (Segment.head (link.junctionSegments target columns key)
      (link.junctionKeySegments target)).flatMap (Segment.decoded d) =
        link.junctionHeadLexemes target columns key := by
  simp (disch := decide) only [Segment.head, Link.junctionSegments, Link.junctionKeySegments,
    List.flatMap_cons, List.flatMap_append, List.flatMap_nil, decoded_selected,
    Segment.decoded_name, Segment.decoded_column, Segment.decoded_word,
    Link.junctionHeadLexemes, List.append_assoc, List.cons_append]
  rfl

end Decoding

/-- What ends with a break is read before what follows it. -/
theorem decode_append {d : Dialect} {xs ys : List Char} (h : Paired d.mark xs)
    (hborder : Closes xs) : d.decode (xs ++ ys) = d.decode xs ++ d.decode ys := by
  rw [Dialect.decode, h.lex_append d.isBreak_mark (.inl hborder), List.map_append]
  rfl

/-! ## Joins -/

theorem dropEnding_append {zs ys rest : List Char} {a b : Char} {ending text : String}
    (hending : ending.toList = ys ++ [a, ' ']) (hblank : ' ' ∉ ys ++ [a]) (hne : b ≠ a)
    (htext : text.toList = zs ++ [b, ' '] ++ rest) :
    ∃ rest', (dropEnding ending text).toList = zs ++ [b, ' '] ++ rest' := by
  unfold dropEnding
  split
  case isFalse => exact ⟨rest, htext⟩
  case isTrue h =>
    obtain ⟨t, ht⟩ : ending.toList <:+ text.toList :=
      List.reverse_prefix.mp (List.isPrefixOf_iff_prefix.mp h)
    have hkept : text.toList.take (text.length - ending.length) = t := by
      rw [← String.length_toList, ← String.length_toList, ← ht, List.length_append,
        Nat.add_sub_cancel, List.take_left]
    rw [String.toList_ofList, hkept]
    rw [htext, hending] at ht
    rcases List.append_eq_append_iff.mp ht with ⟨c, hstart, hend⟩ | ⟨c, hstart, -⟩
    · -- an ending that reached into what stands before would hold a space before its last one
      rcases c.eq_nil_or_concat' with rfl | ⟨c, x, rfl⟩
      · exact ⟨[], by simpa using hstart.symm⟩
      · have hlast : zs ++ [b] = t ++ c ∧ [' '] = [x] :=
          List.append_inj' (by simpa [List.append_assoc] using hstart) rfl
        obtain ⟨hbefore, hx⟩ := hlast
        obtain rfl := List.singleton_inj.mp hx
        rcases rest.eq_nil_or_concat' with rfl | ⟨r, y, rfl⟩
        · have hend : ys ++ [a] = c ∧ [' '] = [' '] :=
            List.append_inj' (by simpa [List.append_assoc] using hend) rfl
          rw [← hend.1, ← List.append_assoc] at hbefore
          exact absurd (List.singleton_inj.mp (List.append_inj' hbefore rfl).2) hne
        · have hend : ys ++ [a] = c ++ [' '] ++ r ∧ [' '] = [y] :=
            List.append_inj' (by simpa [List.append_assoc] using hend) rfl
          exact absurd (by simp [hend.1]) hblank
    · exact ⟨c, hstart⟩

section Joins

variable {d : Dialect} {q : QueryCompiler}

theorem decoded_joinsSegments (links : List Link) :
    (joinsSegments links).flatMap (Segment.decoded d) = links.flatMap Link.joinLexemes := by
  have hspace : (Segment.word " ").decoded d = [] := Segment.decoded_word (by decide)
  induction links with
  | nil => rfl
  | cons link links ih =>
    rw [joinsSegments, List.flatMap_append, List.flatMap_cons, hspace, List.nil_append, ih,
      decoded_joinSegments, List.flatMap_cons]

theorem decode_joinsText (h : q.quoter = .dialect d) (links : List Link) :
    d.decode (q.joinsText links).toList = links.flatMap Link.joinLexemes := by
  have hreads := readsAs_joins (d := d) .nil links
  rw [List.append_nil, List.append_nil] at hreads
  rw [toList_joinsText h, Dialect.decode, hreads.lexemes, List.map_flatMap]
  exact decoded_joinsSegments links

theorem decode_joinsText_append (h : q.quoter = .dialect d) (links : List Link)
    (rest : List Char) : d.decode ((q.joinsText links).toList ++ rest) =
      d.decode (q.joinsText links).toList ++ d.decode rest := by
  have hpaired : Paired d.mark (q.joinsText links).toList := by
    have hreads := (readsAs_joins (d := d) .nil links).paired
    rwa [List.append_nil, ← toList_joinsText h] at hreads
  rcases joinsText_end h links with hjoins | ⟨zs, hjoins⟩
  · rw [hjoins]
    rfl
  · apply decode_append hpaired
    rw [hjoins, List.append_cons]
    exact Closes.append (by decide : Closes [' '])

/-- What is dropped at the end of a text is no part of joins at its start. -/
theorem dropConnective_append (h : q.quoter = .dialect d) (links : List Link) {text : String}
    {rest : List Char} (htext : text.toList = (q.joinsText links).toList ++ rest) :
    ∃ rest', (dropConnective text).toList = (q.joinsText links).toList ++ rest' := by
  rcases joinsText_end h links with hjoins | ⟨zs, hjoins⟩
  · rw [hjoins]
    exact ⟨(dropConnective text).toList, (List.nil_append _).symm⟩
  · have hand : d.mark ≠ 'D' ∧ d.mark ≠ 'R' := by cases d <;> decide
    rw [hjoins] at htext ⊢
    obtain ⟨rest, htext⟩ :=
      @dropEnding_append zs ['A', 'N'] rest 'D' d.mark "AND " text rfl (by decide) hand.1 htext
    exact @dropEnding_append zs ['O'] rest 'R' d.mark "OR " _ rfl (by decide) hand.2 htext

end Joins

/-! ## Subqueries -/

namespace QueryCompiler

variable {d : Dialect} {q : QueryCompiler}

/-- What the head of a subquery of an association reads as, up to its placeholder. -/
inductive HeadOf (q : QueryCompiler) : Association → List Lexeme → Prop
  | childOwnsKey {name : Value} {step : JoinStep} :
    HeadOf q (.childOwnsKey name step) step.link.childHeadLexemes
  | junction {name : Value} {link target : JoinStep} {table : Table}
      (found : q.catalog.table? target.link.childTable = some table) :
    HeadOf q (.junction name link target) (link.link.junctionHeadLexemes target.link
      table.columnNames (q.aliasStart ++ link.link.childKey))

/-- Whether a subquery starts with lexemes, in parentheses, and goes on at its placeholder. -/
def Heads (d : Dialect) (ls : List Lexeme) (s : Subquery) : Prop :=
  ∃ head rest, s.template.toList = head ++ (s.placeholder.toList ++ rest) ∧
    d.decode head = .symbol '(' :: ls ∧
    d.decode s.template.toList = .symbol '(' :: ls ++ d.decode (s.placeholder.toList ++ rest)

theorem exists_appended (head : String) (query : Query) (text : Value) :
    ∃ rest, (appended head query text).toList = head.toList ++ rest := by
  unfold appended
  split
  · exact ⟨[], (List.append_nil _).symm⟩
  · split
    · exact ⟨_, by rw [String.toList_append, String.toList_append, List.append_assoc]⟩
    · exact ⟨_, by rw [String.toList_append, String.toList_append, List.append_assoc]⟩

theorem heads_subquery {a : Association} {head : String} {query : Query} {clauses : Clauses}
    {before key : List Segment} (hbefore : Segment.Tidy before) (hkey : Segment.Tidy key)
    (rest : List Char)
    (hhead : head.toList = (Segment.head before key).flatMap (Segment.chars d d.headStyle) ++
      (q.placeholder.toList ++ rest))
    {s : Subquery} (hs : q.subquery a head query clauses = .ok s) :
    Heads d ((Segment.head before key).flatMap (Segment.decoded d)) s := by
  obtain ⟨-, rfl⟩ := subquery_eq_ok_iff.mp hs
  obtain ⟨rest', happended⟩ := exists_appended head query clauses.text
  have htidy : Segment.Tidy (.word "(" :: Segment.head before key) :=
    (tidy_head hbefore hkey).lead (by decide) (by decide)
  have hopen : (Segment.word "(").decoded d = [.symbol '('] := by cases d <;> decide
  have hdecode := @Segment.decode_segments d _ htidy
  rw [List.flatMap_cons (f := Segment.decoded d), hopen] at hdecode
  have hcloses : Closes ((Segment.word "(" :: Segment.head before key).flatMap
      (Segment.chars d d.headStyle)) := Closes.append (closes_head before key d.headStyle)
  have htemplate : ("(" ++ appended head query clauses.text ++ ")").toList =
      (Segment.word "(" :: Segment.head before key).flatMap (Segment.chars d d.headStyle) ++
        (q.placeholder.toList ++ (rest ++ rest' ++ ")".toList)) := by
    simp only [String.toList_append, happended, hhead, List.flatMap_cons, chars_word,
      List.append_assoc]
  refine ⟨_, _, htemplate, hdecode, ?_⟩
  rw [htemplate, decode_append (ReadsAs.segments htidy).paired hcloses, hdecode]
  rfl

/-- A subquery reads as the head of its association. -/
theorem heads_subqueryOf (h : q.quoter = .dialect d) {a : Association} {start : Int} {s : Subquery}
    (hs : (q.subqueryOf a start).outcome = .ok (some s)) :
    s.association = a ∧ s.placeholder = q.placeholder ∧ ∃ ls, HeadOf q a ls ∧ Heads d ls s := by
  obtain ⟨step, head, query, clauses, hhead, -, -, hsubquery⟩ :=
    subqueryOf_eq_some (congrArg (Traced.mk _) hs)
  have hparts : s.association = a ∧ s.placeholder = q.placeholder := by
    obtain ⟨-, rfl⟩ := subquery_eq_ok_iff.mp hsubquery
    exact ⟨rfl, rfl⟩
  refine ⟨hparts.1, hparts.2, ?_⟩
  cases hhead with
  | @childOwnsKey name step =>
    refine ⟨_, .childOwnsKey, ?_⟩
    rw [← decoded_childHead]
    refine heads_subquery step.link.tidy_childSegments step.link.tidy_childKeySegments [] ?_ hsubquery
    rw [toList_childHead h, List.append_nil]
  | @junction name link target table found =>
    refine ⟨_, .junction found, ?_⟩
    rw [← decoded_junctionHead]
    refine heads_subquery (link.link.tidy_junctionSegments _ _ _)
      (link.link.tidy_junctionKeySegments _) ")".toList ?_ hsubquery
    rw [toList_junctionHead h, List.append_assoc]

theorem isSome_of_subqueryOf {a : Association} {start : Int} {s? : Option Subquery}
    (hs : (q.subqueryOf a start).outcome = .ok s?) :
    s?.isSome ↔ a.strategy ≠ .parentOwnsKey := by
  cases a <;>
    simp only [subqueryOf, Traced.outcome_bind, Traced.outcome_pure, Traced.outcome_of, bind_eq_ok]
      at hs
  case parentOwnsKey =>
    obtain rfl := Except.ok.inj hs
    simp [Association.strategy]
  case childOwnsKey =>
    obtain ⟨_, -, _, -, hs⟩ := hs
    obtain rfl := Except.ok.inj hs
    simp [Association.strategy]
  case junction =>
    obtain ⟨_, -, _, -, _, -, hs⟩ := hs
    obtain rfl := Except.ok.inj hs
    simp [Association.strategy]

/-- Every association that needs a subquery has one, in order. -/
theorem forall₂_subqueriesFrom {as : List Association} {start : Int} {ss : List Subquery}
    (hss : (q.subqueriesFrom as start).outcome = .ok ss) :
    List.Forall₂ (fun a s => ∃ first, (q.subqueryOf a first).outcome = .ok (some s))
      (as.filter fun a => a.strategy ≠ .parentOwnsKey) ss := by
  induction as generalizing start ss with
  | nil =>
    obtain rfl := Except.ok.inj hss
    exact .nil
  | cons a as ih =>
    simp only [subqueriesFrom, Traced.outcome_bind, bind_eq_ok] at hss
    obtain ⟨s?, hs, hss⟩ := hss
    have hneeded := isSome_of_subqueryOf hs
    cases s? with
    | none =>
      rw [List.filter_cons_of_neg (by simpa using hneeded)]
      exact ih hss
    | some s =>
      rw [List.filter_cons_of_pos (by simpa using hneeded)]
      simp only [Traced.outcome_bind, Traced.outcome_emit, bind_eq_ok] at hss
      obtain ⟨_, -, more, hmore, hss⟩ := hss
      obtain rfl := Except.ok.inj hss
      exact .cons ⟨start, hs⟩ (ih hmore)

theorem text_rows {query : Query} {f : Fragment} (hf : (q.rows (some query)).outcome = .ok f) :
    ∃ rest : String, f.text =
      dropConnective (q.joinsText (query.associations.filterMap ownedLink?) ++ rest) := by
  simp only [rows, Traced.outcome_bind, Traced.outcome_of, Traced.outcome_emit,
    Traced.outcome_pure, bind_eq_ok] at hf
  obtain ⟨sorted, -, clauses, -, ending, -, _, -, hf⟩ := hf
  obtain rfl := Except.ok.inj hf
  refine ⟨(if sorted.hasFilter then "WHERE " else "") ++ ending, ?_⟩
  simp only [joins_eq, List.isEmpty_map, joinsText, String.append_assoc]

/-- However the names are spelled, joins and heads read as fixed words and punctuation around the
names as they were given, and whatever follows them is read as if it stood alone. -/
theorem names_stay_enclosed (h : q.quoter = .dialect d) :
    (∀ {query : Query} {f : Fragment}, (q.rows (some query)).outcome = .ok f →
      ∃ before rest, before = (q.joinsText (query.associations.filterMap ownedLink?)).toList ∧
        f.text.toList = before ++ rest ∧
        d.decode before = (query.associations.filterMap ownedLink?).flatMap Link.joinLexemes ∧
        d.decode f.text.toList = d.decode before ++ d.decode rest) ∧
    ∀ {query : Query} {start : Int} {ss : List Subquery},
      (q.subqueries (some query) start).outcome = .ok ss →
      List.Forall₂ (fun a s => s.association = a ∧ s.placeholder = q.placeholder ∧
          ∃ ls, HeadOf q a ls ∧ Heads d ls s)
        (query.associations.filter fun a => a.strategy ≠ .parentOwnsKey) ss := by
  constructor
  · intro query f hf
    obtain ⟨rest, htext⟩ := text_rows hf
    obtain ⟨rest, hrest⟩ := dropConnective_append h _ String.toList_append
    refine ⟨_, rest, rfl, by rw [htext, hrest], decode_joinsText h _, ?_⟩
    rw [htext, hrest]
    exact decode_joinsText_append h _ rest
  · intro query start ss hss
    exact (forall₂_subqueriesFrom hss).imp fun a s ⟨_, hs⟩ => heads_subqueryOf h hs

/-- A link whose names try to end their quotes. -/
def oddLink : Link := ⟨"a\x22%", "k\x22 = \x22", "a\x22%", "k\x22 = \x22"⟩

def oddStep : JoinStep := ⟨oddLink, some ⟨{ sort := .map [] }, []⟩⟩

def oddQuery : Query :=
  ⟨{ sort := .map [] }, [.parentOwnsKey (.text "parent") oddStep,
    .junction (.text "others") oddStep oddStep]⟩

def oddTable : Table :=
  ⟨"a\x22%", [("k\x22 = \x22", {}), ("all", { collection := true })]⟩

/-- Criteria are compiled to nothing, so that joins and heads stand alone. -/
def oddQueries : QueryCompiler where
  catalog := ⟨[(.text "a\x22%", oddTable)]⟩
  table := "a\x22%"
  quoter := .dialect .postgresql
  source := fun _ _ _ => return { text := .text "" }
  placeholder := usualPlaceholder
  aliasStart := "\x22%"

theorem names_stay_enclosed_odd : ∃ f s rest,
    (oddQueries.rows (some oddQuery)).outcome = .ok f ∧
    Dialect.postgresql.decode f.text.toList =
      oddLink.joinLexemes ++ Dialect.postgresql.decode rest ∧
    (oddQueries.subqueries (some oddQuery) 1).outcome = .ok [s] ∧
    Heads .postgresql
      (oddLink.junctionHeadLexemes oddLink ["k\x22 = \x22"] "\x22%k\x22 = \x22") s := by
  obtain ⟨hrows, hsubqueries⟩ := @names_stay_enclosed .postgresql oddQueries rfl
  obtain ⟨f, hf⟩ : ∃ f, (oddQueries.rows (some oddQuery)).outcome = .ok f := ⟨_, rfl⟩
  obtain ⟨s, hs⟩ : ∃ s, (oddQueries.subqueries (some oddQuery) 1).outcome = .ok [s] := ⟨_, rfl⟩
  obtain ⟨before, rest, -, -, hbefore, htext⟩ := hrows hf
  have hheads := hsubqueries hs
  rw [show oddQuery.associations.filter (fun a => a.strategy ≠ .parentOwnsKey) =
    [.junction (.text "others") oddStep oddStep] from rfl, List.forall₂_cons] at hheads
  obtain ⟨-, -, ls, hhead, hheads⟩ := hheads.1
  refine ⟨f, s, rest, hf, by rw [htext, hbefore]; rfl, hs, ?_⟩
  cases hhead with
  | junction found =>
    obtain rfl : oddTable = _ := Option.some.inj found
    exact hheads

end QueryCompiler

end SqlFragment
