import SqlFragment.Proofs.Alignment
import SqlFragment.Proofs.Enclosure
import SqlFragment.Proofs.References
import SqlFragment.Proofs.Renumbering

/-!
Identifiers as they are written. Joins and heads quote them for the dialect alone, compiled criteria
for the style of their markers, too, and settle them with the rest of the text; a name is written
alike in both only if none of this makes a difference to it.
-/
namespace SqlFragment

/-! ## Identifiers of a text -/

namespace Dialect

/-- A name between its marks, doubled inside. -/
def enclose (d : Dialect) (s : String) : String := (⟨d.mark, false⟩ : Quoting).quote s

/-- The identifiers of a text, as they are written in it. -/
def identifiers (d : Dialect) (text : String) : List String :=
  (namesIn (lex d.mark text.toList)).map d.enclose

variable (d : Dialect)

theorem lex_enclose (s : String) : lex d.mark (d.enclose s).toList = [.name s] := by
  have hread := (@reads_quoted ⟨d.mark, false⟩ d.mark_ne_percent s.toList).lex_eq
  rw [shown_eq_self rfl] at hread
  rw [enclose, Quoting.quote, String.toList_ofList]
  exact hread.trans (congrArg (fun t => [Lexeme.name t]) String.ofList_toList)

theorem enclose_inj {s t : String} : d.enclose s = d.enclose t ↔ s = t := by
  constructor
  · intro h
    have hlex := congrArg (fun u : String => lex d.mark u.toList) h
    simp only [lex_enclose, List.cons.injEq, Lexeme.name.injEq, and_true] at hlex
    exact hlex
  · exact congrArg _

theorem lex_column (table name : String) :
    lex d.mark (d.enclose table ++ "." ++ d.enclose name).toList =
      [.name table, .symbol '.', .name name] := by
  have hpoint : lex d.mark ".".toList = [.symbol '.'] := by cases d <;> decide
  have hname (s : String) : (Segment.name s).lexemes d .question = [.name s] := by
    rw [Segment.lexemes, shown_eq_self rfl, String.ofList_toList]
  have htext : (d.enclose table ++ "." ++ d.enclose name).toList =
      (Segment.column table name).flatMap (Segment.chars d .question) := by
    simp only [String.toList_append, enclose, Quoting.quote, String.toList_ofList, Segment.column,
      List.flatMap_cons, List.flatMap_nil, List.append_nil, List.append_assoc]
    rfl
  rw [htext, (ReadsAs.segments (Segment.tidy_column table name)).lexemes]
  simp only [Segment.column, List.flatMap_cons, List.flatMap_nil, hname]
  rw [Segment.lexemes, hpoint]
  rfl

theorem column_inj {table table' name name' : String} :
    d.enclose table ++ "." ++ d.enclose name = d.enclose table' ++ "." ++ d.enclose name' ↔
      table = table' ∧ name = name' := by
  constructor
  · intro h
    have hlex := congrArg (fun u : String => lex d.mark u.toList) h
    simp only [lex_column, List.cons.injEq, Lexeme.name.injEq, and_true, true_and] at hlex
    exact hlex
  · rintro ⟨rfl, rfl⟩
    rfl

/-- Percent signs are doubled before the name is enclosed. -/
theorem quote_eq_enclose (q : Quoting) (hq : q.mark = d.mark) (s : String) :
    q.quote s = d.enclose (String.ofList (q.shown s.toList)) := by
  have hpercent := d.mark_ne_percent
  have hchar (c : Char) : (if q.doublesPercent && c = '%' then [c, c] else [c]).flatMap
      (Quoting.escapeChar ⟨d.mark, false⟩) = q.escapeChar c := by
    unfold Quoting.escapeChar
    by_cases hc : c = '%'
    · subst hc
      cases q.doublesPercent <;> simp [hq, hpercent.symm]
    · simp [hc, hq]
  unfold enclose Quoting.quote Quoting.quoteChars Quoting.shown
  rw [String.toList_ofList, List.flatMap_assoc, hq]
  simp only [hchar]

end Dialect

/-! ## What settling makes of a name -/

section Settling

variable {p : Char → Bool} {q : Quoting}

theorem filter_squeezeChars (hp : ∀ c, Text.isBlank c = true → p c = false) (cs : List Char) :
    (squeezeChars cs).filter p = cs.filter p := by
  induction cs using List.reverseRecOn with
  | nil => rfl
  | append_singleton cs c ih =>
    rw [squeezeChars_snoc, squeezeStep]
    split
    · rename_i hc
      split <;> simp [List.filter_append, ih, hp c hc, hp ' ' (by decide)]
    · simp [List.filter_append, ih]

theorem filter_movedChars (hp : ∀ c, p c = true → c ≠ '-' ∧ Text.digitValue? c = none) (k : Int)
    (cs : List Char) : (movedChars k cs).filter p = cs.filter p := by
  have hnumber (r : Reading) : (r.tokens.flatMap (Token.moved k)).filter p = [] := by
    apply List.filter_eq_nil_iff.mpr
    intro x hx hpx
    obtain ⟨hsign, hdigit⟩ := hp x hpx
    rcases mem_moved r x hx with rfl | ⟨j, hj, rfl⟩
    · exact hsign rfl
    · cases (digitValue?_digitChar j hj).symm.trans hdigit
  have hall (r : Reading) (cs : List Char) :
      ((tokensFrom r cs).flatMap (Token.moved k)).filter p = cs.filter p := by
    induction cs generalizing r with
    | nil => exact hnumber r
    | cons c cs ih =>
      rcases tokensFrom_cons r c with ⟨-, hdigit, n, digits, htail⟩ | htail
      · have hc : ¬p c = true := by
          intro hpc
          rw [(hp c hpc).2] at hdigit
          cases hdigit
        rw [htail, ih, List.filter_cons_of_neg hc]
      · rw [htail, List.flatMap_append, List.flatMap_cons, List.filter_append, hnumber,
          List.nil_append, Token.moved, List.filter_append, ih]
        exact (List.filter_append [c] cs).symm
  exact hall .other cs

theorem length_filter_squeezeChars (cs : List Char) :
    ((squeezeChars cs).filter Text.isBlank).length ≤ (cs.filter Text.isBlank).length := by
  induction cs using List.reverseRecOn with
  | nil => exact Nat.le_refl 0
  | append_singleton cs c ih =>
    rw [squeezeChars_snoc, squeezeStep, List.filter_append, List.length_append]
    split
    · split
      · omega
      · rename_i hc _
        have hspace : Text.isBlank ' ' = true := by decide
        simp only [List.filter_append, List.length_append, List.filter_singleton, hc, hspace,
          List.length_singleton, cond_true]
        omega
    · rename_i hc
      simp only [List.filter_append, List.length_append, List.filter_singleton]
      omega

/-- A name that keeps its white space is not squeezed. -/
theorem squeezeChars_eq_self {cs : List Char}
    (h : (squeezeChars cs).filter Text.isBlank = cs.filter Text.isBlank) : squeezeChars cs = cs := by
  induction cs using List.reverseRecOn with
  | nil => rfl
  | append_singleton cs c ih =>
    have hlength := length_filter_squeezeChars cs
    rw [squeezeChars_snoc, squeezeStep] at h ⊢
    by_cases hc : Text.isBlank c = true
    · rw [if_pos hc] at h ⊢
      split at h
      · -- one character of white space is gone
        have hgone := congrArg List.length h
        simp only [List.filter_append, List.length_append, List.filter_singleton, hc, cond_true,
          List.length_singleton] at hgone
        omega
      · rename_i hlast
        have hspace : Text.isBlank ' ' = true := by decide
        simp only [List.filter_append, List.filter_singleton, hc, hspace, cond_true] at h
        obtain ⟨hsame, hchar⟩ := List.append_inj' h rfl
        rw [if_neg hlast, ih hsame, hchar]
    · rw [if_neg hc] at h ⊢
      simp only [List.filter_append, List.append_cancel_right_eq] at h
      rw [ih h]

theorem shown_snoc (q : Quoting) (cs : List Char) (c : Char) :
    q.shown (cs ++ [c]) = q.shown cs ++ if q.doublesPercent && c = '%' then [c, c] else [c] := by
  rw [Quoting.shown, List.flatMap_append, List.flatMap_singleton]
  rfl

theorem getLast?_shown (cs : List Char) : (q.shown cs).getLast? = cs.getLast? := by
  rcases cs.eq_nil_or_concat' with rfl | ⟨cs, c, rfl⟩
  · rfl
  · rw [shown_snoc, List.getLast?_concat]
    split <;> simp

/-- Squeezing sees white space alone, and doubling percent signs alone. -/
theorem squeezeChars_shown (cs : List Char) :
    squeezeChars (q.shown cs) = q.shown (squeezeChars cs) := by
  induction cs using List.reverseRecOn with
  | nil => rfl
  | append_singleton cs c ih =>
    have hpercent : Text.isBlank '%' = false := by decide
    rw [shown_snoc, squeezeChars_snoc]
    by_cases hdouble : (q.doublesPercent && decide (c = '%')) = true
    · obtain rfl : c = '%' := by simp_all
      have hplain (out : List Char) : squeezeStep out '%' = out ++ ['%'] := if_neg (by simp [hpercent])
      rw [if_pos hdouble, List.append_cons, squeezeChars_snoc, squeezeChars_snoc, ih, hplain, hplain,
        hplain, shown_snoc, if_pos hdouble, List.append_assoc]
      rfl
    · rw [if_neg hdouble, squeezeChars_snoc, ih, squeezeStep, squeezeStep, getLast?_shown]
      split
      · split
        · rfl
        · rw [shown_snoc, if_neg (by simp)]
      · rw [shown_snoc, if_neg hdouble]

theorem shown_inj {cs ds : List Char} : q.shown cs = q.shown ds ↔ cs = ds := by
  constructor
  · intro h
    cases hq : q.doublesPercent with
    | true => rw [← undouble_shown hq cs, h, undouble_shown hq]
    | false => rw [← shown_eq_self hq cs, h, shown_eq_self hq]
  · exact congrArg _

theorem count_shown (cs : List Char) :
    (q.shown cs).count '%' = (if q.doublesPercent then 2 else 1) * cs.count '%' := by
  induction cs with
  | nil => rfl
  | cons c cs ih =>
    rw [q.shown_cons, List.count_append, ih]
    by_cases hc : c = '%'
    · subst hc
      cases q.doublesPercent <;> simp <;> omega
    · simp [hc]

theorem shown_eq_of_notMem {cs : List Char} (h : '%' ∉ cs) : q.shown cs = cs := by
  induction cs with
  | nil => rfl
  | cons c cs ih =>
    obtain ⟨hc, hcs⟩ := not_or.mp (mt List.mem_cons.mpr h)
    rw [q.shown_cons, ih hcs, if_neg (by simp [Ne.symm hc])]
    rfl

/-- Two quotings tell a name apart only by its percent signs. -/
theorem count_shown_eq_iff {q' : Quoting} (cs : List Char) :
    (q.shown cs).count '%' = (q'.shown cs).count '%' ↔
      ('%' ∈ cs → q.doublesPercent = q'.doublesPercent) := by
  rw [count_shown, count_shown, ← List.count_pos_iff]
  generalize cs.count '%' = n
  cases q.doublesPercent <;> cases q'.doublesPercent <;> simp <;> omega

theorem shown_eq_of_agree {q' : Quoting} {cs : List Char}
    (h : '%' ∈ cs → q.doublesPercent = q'.doublesPercent) : q.shown cs = q'.shown cs := by
  by_cases hmem : '%' ∈ cs
  · rw [Quoting.shown, Quoting.shown, h hmem]
  · rw [shown_eq_of_notMem hmem, shown_eq_of_notMem hmem]

variable {d : Dialect} {style : MarkerStyle} {start : Int}

theorem filter_shownChars (hp : ∀ c, p c = true → c ≠ '-' ∧ Text.digitValue? c = none)
    (cs : List Char) : (shownChars d style start cs).filter p =
      (squeezeChars ((d.quoting style).shown cs)).filter p := by
  unfold shownChars
  split
  · exact filter_movedChars hp _ _
  · rfl

theorem count_shownChars (cs : List Char) :
    (shownChars d style start cs).count '%' = ((d.quoting style).shown cs).count '%' := by
  rw [List.count_eq_length_filter, List.count_eq_length_filter, filter_shownChars,
    filter_squeezeChars]
  · intro c hc
    by_contra hpercent
    obtain rfl : c = '%' := by simpa using hpercent
    exact absurd hc (by decide)
  · intro c hc
    obtain rfl : c = '%' := by simpa using hc
    decide

theorem filter_blank_shownChars (cs : List Char) :
    (shownChars d style start cs).filter Text.isBlank =
      (squeezeChars ((d.quoting style).shown cs)).filter Text.isBlank := by
  apply filter_shownChars
  intro c hc
  refine ⟨?_, digitValue?_eq_none (.inl (by simp [isBreak, hc]))⟩
  rintro rfl
  exact absurd hc (by decide)

/-- A compiled text shows the characters that quoting for the dialect shows, unless percent signs are
doubled in one of them alone, white space is squeezed or a number is moved. -/
theorem shownChars_eq_iff (cs : List Char) :
    shownChars d style start cs = d.usualQuoting.shown cs ↔
      ('%' ∈ cs → (d.quoting style).doublesPercent = d.usualQuoting.doublesPercent) ∧
        squeezeChars cs = cs ∧ (style = .dollar → start = 1 ∨ ¬HoldsNumber cs) := by
  have hmoved (hne : start ≠ 1) : movedChars (start - 1) cs = cs ↔ ¬HoldsNumber cs :=
    movedChars_eq_iff (by omega) cs
  constructor
  · intro h
    -- nothing but doubling changes how many percent signs there are
    have hpercent : '%' ∈ cs → (d.quoting style).doublesPercent = d.usualQuoting.doublesPercent := by
      rw [← count_shown_eq_iff, ← h, count_shownChars]
    have hshown := shown_eq_of_agree hpercent
    -- moved numbers hold no white space, so that squeezing shows in that alone
    have hsqueeze : squeezeChars cs = cs := by
      have hblank := congrArg (List.filter Text.isBlank) h
      rw [filter_blank_shownChars, ← hshown] at hblank
      have hsame := squeezeChars_eq_self hblank
      rwa [squeezeChars_shown, shown_inj] at hsame
    refine ⟨hpercent, hsqueeze, ?_⟩
    rintro rfl
    by_cases hone : start = 1
    · exact .inl hone
    · right
      rw [← hmoved hone]
      rw [← hshown, shownChars, if_pos ⟨rfl, hone⟩, squeezeChars_shown, hsqueeze,
        shown_eq_self rfl] at h
      exact h
  · rintro ⟨hpercent, hsqueeze, hnumber⟩
    rw [← shown_eq_of_agree hpercent, shownChars, squeezeChars_shown, hsqueeze]
    split
    · rename_i hdollar
      obtain ⟨rfl, hone⟩ := hdollar
      rw [shown_eq_self rfl]
      exact (hmoved hone).mpr ((hnumber rfl).resolve_left hone)
    · rfl

end Settling

/-! ## Names of fragments -/

/-- A name as compiled criteria write it. -/
def writtenName (d : Dialect) (style : MarkerStyle) (start : Int) (s : String) : String :=
  d.enclose (shownName d style start s)

theorem writtenName_eq_iff {d : Dialect} {style : MarkerStyle} {start : Int} (s : String) :
    writtenName d style start s = d.usualQuoting.quote s ↔
      ('%' ∈ s.toList → (d.quoting style).doublesPercent = d.usualQuoting.doublesPercent) ∧
        squeezedName s = s ∧ (style = .dollar → start = 1 ∨ ¬HoldsNumber s.toList) := by
  have hsqueezed : squeezedName s = s ↔ squeezeChars s.toList = s.toList := by
    rw [squeezedName, ← String.toList_inj, String.toList_ofList]
  rw [writtenName, d.quote_eq_enclose d.usualQuoting rfl, d.enclose_inj, shownName, String.ofList_inj,
    shownChars_eq_iff, hsqueezed]

/-- The reference to a column as compiled criteria write it. -/
def writtenColumn (d : Dialect) (style : MarkerStyle) (start : Int) (r : Column) : String :=
  writtenName d style start r.table ++ "." ++ writtenName d style start r.name

theorem writtenColumn_eq_iff {d : Dialect} {style : MarkerStyle} {start : Int} (r : Column) :
    writtenColumn d style start r = (Quoter.dialect d).quoteColumn r.table r.name ↔
      ∀ name ∈ r.names, writtenName d style start name = d.usualQuoting.quote name := by
  rw [Column.names, List.forall_mem_cons, List.forall_mem_singleton]
  simp only [writtenColumn, writtenName, Quoter.quoteColumn, Quoter.quote,
    d.quote_eq_enclose d.usualQuoting rfl, d.column_inj, d.enclose_inj]

section Segments

variable {d : Dialect} {segs : List Segment}

theorem namesIn_lexemes (h : ∀ s ∈ segs, s.IsOrdinary) :
    (namesIn (segs.flatMap (Segment.lexemes d d.headStyle))).map d.enclose =
      (segs.filterMap Segment.name?).map d.usualQuoting.quote := by
  have hnames (s : Segment) (hs : s.IsOrdinary) : namesIn (s.lexemes d d.headStyle) =
      s.name?.toList.map fun n => String.ofList (d.usualQuoting.shown n.toList) := by
    cases s with
    | word w => exact namesIn_keyword d hs
    | name n =>
      rw [lexemes_name]
      rfl
    | marker n v => rfl
  rw [namesIn_flatMap hnames h, List.map_map]
  exact List.map_congr_left fun n _ => (d.quote_eq_enclose d.usualQuoting rfl n).symm

theorem namesIn_decoded (h : ∀ s ∈ segs, s.IsOrdinary) :
    namesIn (segs.flatMap (Segment.decoded d)) = segs.filterMap Segment.name? := by
  have hmap (ls : List Lexeme) :
      namesIn (ls.map (Lexeme.decoded d)) = (namesIn ls).map d.decodedName := by
    rw [namesIn, namesIn, List.filterMap_map, List.map_filterMap]
    refine congrFun (congrArg List.filterMap (funext fun l => ?_)) ls
    cases l <;> rfl
  have hnames (s : Segment) (hs : s.IsOrdinary) :
      namesIn (s.decoded d) = s.name?.toList.map id := by
    cases s with
    | word w => rw [Segment.decoded, hmap, Segment.lexemes, namesIn_keyword d hs]; rfl
    | name n =>
      rw [Segment.decoded_name]
      rfl
    | marker n v => rfl
  rw [namesIn_flatMap hnames h, List.map_id]

/-- Names in joins and heads are written as they are quoted for the dialect. -/
theorem identifiers_segments (h : ∀ s ∈ segs, s.IsOrdinary) :
    (namesIn (segs.flatMap (Segment.lexemes d d.headStyle))).map d.enclose =
      (namesIn (segs.flatMap (Segment.decoded d))).map d.usualQuoting.quote := by
  rw [namesIn_lexemes h, namesIn_decoded h]

theorem isOrdinary_of_isHead {s : Segment} (h : s.IsHead) : s.IsOrdinary := by
  have hwords : ∀ w ∈ headWords, IsKeyword w := by decide
  obtain ⟨n, rfl⟩ | ⟨w, hw, rfl⟩ := h
  · trivial
  · exact hwords w hw

/-- What stands behind the segments of a head names nothing. -/
theorem identifiers_head {before key : List Segment} (hbefore : Segment.Tidy before)
    (hkey : Segment.Tidy key) {rest : List Char} (hrest : namesIn (lex d.mark rest) = []) :
    (namesIn (lex d.mark
      ((Segment.head before key).flatMap (Segment.chars d d.headStyle) ++ rest))).map d.enclose =
        (namesIn ((Segment.head before key).flatMap (Segment.decoded d))).map
          d.usualQuoting.quote := by
  have htidy := tidy_head hbefore hkey
  have hreads := @ReadsAs.segments d d.headStyle _ htidy
  rw [hreads.paired.lex_append d.isBreak_mark (.inl (closes_head before key d.headStyle)),
    hreads.lexemes, namesIn_append, hrest, List.append_nil, identifiers_segments htidy.words]

end Segments

namespace QueryCompiler

variable {q : QueryCompiler} {d : Dialect} {style : MarkerStyle} {es : List Event} {start : Int}
  {c : ClauseCompiler} {w : Written} {p? : Option Predicate} {tail : List Piece}
  {a : Association} {s : Subquery} {head : String} {before : List Lexeme} {query sorted : Query}
  {f : Fragment} {links : List Link}

theorem HasHead.identifiers (h : q.IsUsual d style)
    (hhead : q.HasHead a head) : ∃ ls, HeadOf q a ls ∧
      d.identifiers head = (namesIn ls).map d.usualQuoting.quote := by
  have hplaceholder : namesIn (lex d.mark "^?^".toList) = [] := by cases d <;> decide
  have hclosed : namesIn (lex d.mark ("^?^".toList ++ ")".toList)) = [] := by cases d <;> decide
  unfold Dialect.identifiers
  cases hhead with
  | @childOwnsKey name step =>
    refine ⟨_, .childOwnsKey, ?_⟩
    rw [toList_childHead h.quoter, h.placeholder, ← @decoded_childHead d]
    exact identifiers_head step.link.tidy_childSegments step.link.tidy_childKeySegments hplaceholder
  | @junction name link target table found =>
    refine ⟨_, .junction found, ?_⟩
    rw [toList_junctionHead h.quoter, h.placeholder, List.append_assoc, ← @decoded_junctionHead d]
    exact identifiers_head (link.link.tidy_junctionSegments _ _ _)
      (link.link.tidy_junctionKeySegments _) hclosed

theorem Assembled.identifiers (h : Assembled q d style es start a s head before c w)
    (hc : c.Compiled s.criteria.criteria w p? tail) :
    d.identifiers s.template =
      d.identifiers head ++ (namesIn (c.lexemes w.text)).map d.enclose := by
  have hand (ls : List Lexeme) :
      namesIn ((if s.criteria.hasFilter then [.word "AND"] else []) ++ ls) = namesIn ls := by
    split <;> rfl
  have hgroup (ls : List Lexeme) : namesIn (.symbol '(' :: ls ++ [.symbol ')']) = namesIn ls := by
    rw [namesIn_append]
    exact List.append_nil _
  rw [Dialect.identifiers, Dialect.identifiers, (h.reads hc).lexemes, h.isHead.reads.lexemes, hgroup,
    namesIn_append, namesIn_append, hand, List.map_append]

theorem RowsAssembled.identifiers (hq : q.IsUsual d style)
    (h : RowsAssembled q d style es query f links sorted c w)
    (hc : c.Compiled sorted.criteria w p? tail) :
    d.identifiers f.text = (namesIn (links.flatMap Link.joinLexemes)).map d.usualQuoting.quote ++
      (namesIn (c.lexemes w.text)).map d.enclose := by
  have hwhere (ls : List Lexeme) :
      namesIn ((if query.hasFilter then [.word "WHERE"] else []) ++ ls) = namesIn ls := by
    split <;> rfl
  have hordinary : ∀ s ∈ joinsSegments links, s.IsOrdinary := fun s hs =>
    isOrdinary_of_isHead (isHead_joinsSegments links s hs)
  rw [Dialect.identifiers, (h.reads hq hc).lexemes, namesIn_append, hwhere,
    List.map_append, identifiers_segments hordinary, decoded_joinsSegments]

theorem identifiers_rows (hq : q.IsUsual d style)
    (hrun : (q.rows (some query)).outcome = .ok f)
    (hlegible : q.EachRequest d style (requestsIn (q.rows (some query)).events)
      ClauseCompiler.IsLegible) :
    ∃ (sorted : Query) (c : ClauseCompiler) (columns : List Column), f.query = some sorted ∧
      ClauseCompiler.create q.catalog q.table d style 1 .usual = .ok c ∧
      c.referred sorted.criteria = .ok columns ∧
      d.identifiers f.text = (namesIn ((query.associations.filterMap ownedLink?).flatMap
          Link.joinLexemes)).map d.usualQuoting.quote ++
        (columns.flatMap Column.names).map (writtenName d style 1) := by
  have hrows : q.rows (some query) = ⟨(q.rows (some query)).events, .ok f⟩ :=
    congrArg (Traced.mk _) hrun
  obtain ⟨links, sorted, c, w, h⟩ := rows_eq hq hrows
  rw [h.served.requests, h.served.eachRequest_cons] at hlegible
  obtain ⟨p?, tail, hc⟩ := ClauseCompiler.exists_compiled hlegible.1 h.served.compiled
  obtain ⟨columns, hcolumns, hnames⟩ := ClauseCompiler.exists_shown hlegible.1 h.served.compiled
  obtain ⟨rfl, rfl, hstart⟩ := h.served.compiler_eq
  refine ⟨sorted, c, columns, h.query_eq, h.served.create, hcolumns, ?_⟩
  rw [h.identifiers hq hc, h.links_eq, hnames, hstart, List.map_map]
  rfl

theorem identifiers_subqueryOf (hq : q.IsUsual d style)
    (hrun : (q.subqueryOf a start).outcome = .ok (some s))
    (hlegible : q.EachRequest d style (requestsIn (q.subqueryOf a start).events)
      ClauseCompiler.IsLegible) :
    ∃ (table : String) (c : ClauseCompiler) (columns : List Column) (ls : List Lexeme),
      ClauseCompiler.create q.catalog table d style start .usual = .ok c ∧
      c.referred s.criteria.criteria = .ok columns ∧ HeadOf q a ls ∧
      d.identifiers s.template = (namesIn ls).map d.usualQuoting.quote ++
        (columns.flatMap Column.names).map (writtenName d style start) := by
  have hsubquery : q.subqueryOf a start = ⟨(q.subqueryOf a start).events, .ok (some s)⟩ :=
    congrArg (Traced.mk _) hrun
  obtain ⟨head, before, c, w, h⟩ := subqueryOf_eq hq hsubquery
  obtain ⟨table, hserved⟩ := h.served
  rw [hserved.requests, hserved.eachRequest_cons] at hlegible
  obtain ⟨p?, tail, hc⟩ := ClauseCompiler.exists_compiled hlegible.1 hserved.compiled
  obtain ⟨columns, hcolumns, hnames⟩ := ClauseCompiler.exists_shown hlegible.1 hserved.compiled
  obtain ⟨ls, hls, hhead⟩ := h.hasHead.identifiers hq
  obtain ⟨rfl, rfl, rfl⟩ := hserved.compiler_eq
  refine ⟨table, c, columns, ls, hserved.create, hcolumns, hls, ?_⟩
  rw [h.identifiers hc, hhead, hnames, List.map_map]
  rfl

/-- In the rows and in every subquery, joins and heads write their names as the quoter quotes them, and
criteria write the names of the columns that they mean in the style of their markers. Both write a
name alike if and only if percent signs in it are doubled in both or in neither, no white space in it
is squeezed, and no number in it is moved; and a column if and only if its names are alike. -/
theorem names_quoted_alike {catalog : Catalog} {table aliasStart : String}
    (hq : create catalog table (.dialect d) none style.name usualPlaceholder aliasStart = .ok q) :
    (∀ query f, (q.rows (some query)).outcome = .ok f →
      q.EachRequest d style (requestsIn (q.rows (some query)).events) ClauseCompiler.IsLegible →
      ∃ (sorted : Query) (c : ClauseCompiler) (columns : List Column), f.query = some sorted ∧
        ClauseCompiler.create q.catalog q.table d style 1 .usual = .ok c ∧
        c.referred sorted.criteria = .ok columns ∧
        d.identifiers f.text = (namesIn ((query.associations.filterMap ownedLink?).flatMap
            Link.joinLexemes)).map q.quoter.quote ++
          (columns.flatMap Column.names).map (writtenName d style 1)) ∧
    (∀ a start s, (q.subqueryOf a start).outcome = .ok (some s) →
      q.EachRequest d style (requestsIn (q.subqueryOf a start).events) ClauseCompiler.IsLegible →
      ∃ (table : String) (c : ClauseCompiler) (columns : List Column) (ls : List Lexeme),
        ClauseCompiler.create q.catalog table d style start .usual = .ok c ∧
        c.referred s.criteria.criteria = .ok columns ∧ HeadOf q a ls ∧
        d.identifiers s.template = (namesIn ls).map q.quoter.quote ++
          (columns.flatMap Column.names).map (writtenName d style start)) ∧
    (∀ start name, writtenName d style start name = q.quoter.quote name ↔
      ('%' ∈ name.toList → (style = .percent ↔ d = .postgresql ∨ d = .mysql)) ∧
        squeezedName name = name ∧
        (style = .dollar → start = 1 ∨ ¬HoldsNumber name.toList)) ∧
    ∀ start (r : Column), writtenColumn d style start r = q.quoter.quoteColumn r.table r.name ↔
      ∀ name ∈ r.names, writtenName d style start name = q.quoter.quote name := by
  have hq := isUsual_of_create hq
  rw [hq.quoter]
  refine ⟨?_, ?_, ?_, fun start r => writtenColumn_eq_iff r⟩
  · intro query f hrun hlegible
    exact identifiers_rows hq hrun hlegible
  · intro a start s hrun hlegible
    exact identifiers_subqueryOf hq hrun hlegible
  · intro start name
    have hdoubles : (d.quoting style).doublesPercent = d.usualQuoting.doublesPercent ↔
        (style = .percent ↔ d = .postgresql ∨ d = .mysql) := by
      cases d <;> cases style <;> decide
    rw [← hdoubles]
    exact writtenName_eq_iff name

/-- The subquery for origins names plain columns; a percent sign would be doubled behind its head
alone. -/
theorem names_quoted_alike_origins : ∃ (f : Fragment) (s : Subquery) (ls : List Lexeme)
    (columns columns' : List Column),
    ((shopQueries .percent).rows (some shopQuery)).outcome = .ok f ∧
    Dialect.default.identifiers f.text =
      (columns.flatMap Column.names).map (writtenName .default .percent 1) ∧
    ((shopQueries .percent).subqueryOf origins 4).outcome = .ok (some s) ∧
    HeadOf (shopQueries .percent) origins ls ∧
    Dialect.default.identifiers s.template =
      (namesIn ls).map (shopQueries .percent).quoter.quote ++
        (columns'.flatMap Column.names).map (writtenName .default .percent 4) ∧
    writtenColumn .default .percent 4 ⟨"sales", "id"⟩ = "\x22sales\x22.\x22id\x22" ∧
    writtenName .default .percent 4 "rate%" ≠ (shopQueries .percent).quoter.quote "rate%" := by
  have hlegible := @eachRequest_isLegible _ _ _ _ _ _ (create_shop .percent) isPlain_shop
  obtain ⟨w, hw, -⟩ := exists_compile_tagged .percent (.inl rfl)
  obtain ⟨w', hw', -⟩ := exists_compile_tagged .percent (.inr rfl)
  obtain ⟨f, hf, -⟩ := exists_rows hw
  obtain ⟨s, hs, -⟩ := exists_subqueryOf hw'
  obtain ⟨hrows, hsubqueries, hnames, hcolumns⟩ := names_quoted_alike (create_shop .percent)
  obtain ⟨-, -, columns, -, -, -, htext⟩ := hrows shopQuery f hf (hlegible _)
  obtain ⟨-, -, columns', ls, -, -, hls, htemplate⟩ := hsubqueries origins 4 s hs (hlegible _)
  have hplain : ∀ name ∈ Column.names ⟨"sales", "id"⟩, '%' ∉ name.toList ∧
      squeezedName name = name := by decide
  refine ⟨f, s, ls, columns, columns', hf, htext, hs, hls, htemplate, ?_, fun h => ?_⟩
  · refine ((hcolumns 4 ⟨"sales", "id"⟩).mpr fun name hname => ?_).trans (by decide)
    obtain ⟨hpercent, hsqueezed⟩ := hplain name hname
    have hstyle : MarkerStyle.percent ≠ .dollar := by decide
    exact (hnames 4 name).mpr
      ⟨fun hmem => absurd hmem hpercent, hsqueezed, fun hdollar => absurd hdollar hstyle⟩
  · obtain ⟨hpercent, -⟩ := (hnames 4 "rate%").mp h
    exact absurd (hpercent (by decide)) (by decide)

end QueryCompiler

end SqlFragment
