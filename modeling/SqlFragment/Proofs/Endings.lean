import SqlFragment.Proofs.Fragments

/-!
The end of the fragment for rows. A connective that is left there is dropped, whatever it is part
of. Compiled criteria never end with one, since they never end with white space. Joins end with a
name and a space: where nothing follows them, and nothing stands around names, a name may end like a
connective.
-/
namespace SqlFragment

/-! ## Endings -/

theorem suffix_cons_iff_of_notMem {α : Type} {xs ys zs : List α} {a : α} (h : a ∉ xs) :
    xs <:+ ys ++ a :: zs ↔ xs <:+ zs := by
  constructor
  · intro hxs
    rcases List.suffix_or_suffix_of_suffix hxs (List.suffix_append ys (a :: zs)) with hxs | hxs
    · rcases List.suffix_cons_iff.mp hxs with rfl | hxs
      · exact absurd List.mem_cons_self h
      · exact hxs
    · exact absurd (hxs.subset List.mem_cons_self) h
  · intro hxs
    exact hxs.trans ((List.suffix_cons a zs).trans (List.suffix_append ys _))

theorem suffix_concat_iff {α : Type} {xs ys : List α} {a : α} :
    xs ++ [a] <:+ ys ++ [a] ↔ xs <:+ ys := by
  constructor
  · rintro ⟨zs, h⟩
    rw [← List.append_assoc] at h
    exact ⟨zs, List.append_cancel_right h⟩
  · rintro ⟨zs, rfl⟩
    exact ⟨zs, by rw [List.append_assoc]⟩

/-- An ending that is there is dropped. -/
theorem length_dropEnding_lt {ending text : String} (h : ending ≠ "")
    (hsuffix : ending.toList <:+ text.toList) : (dropEnding ending text).length < text.length := by
  have hprefix : ending.toList.reverse.isPrefixOf text.toList.reverse = true :=
    List.isPrefixOf_iff_prefix.mpr (List.reverse_prefix.mpr hsuffix)
  have hpos : ending.length ≠ 0 := fun hzero => h (String.length_eq_zero_iff.mp hzero)
  have hle := hsuffix.length_le
  rw [String.length_toList, String.length_toList] at hle
  rw [dropEnding, if_pos hprefix, String.length_ofList, List.length_take, String.length_toList]
  omega

theorem length_dropEnding_le (ending text : String) :
    (dropEnding ending text).length ≤ text.length := by
  unfold dropEnding
  split
  · rw [String.length_ofList, List.length_take, String.length_toList]
    exact Nat.min_le_right _ _
  · exact Nat.le_refl _

/-- A connective at the end is always dropped, and what is dropped is not put back. -/
theorem dropConnective_eq_self_iff {text : String} : dropConnective text = text ↔
    ¬("AND ".toList <:+ text.toList ∨ "OR ".toList <:+ text.toList) := by
  constructor
  · intro h hends
    have hshort : (dropConnective text).length < text.length := by
      by_cases hand : "AND ".toList <:+ text.toList
      · exact Nat.lt_of_le_of_lt (length_dropEnding_le _ _)
          (length_dropEnding_lt (by decide) hand)
      · rw [dropConnective, dropEnding_eq_self hand]
        exact length_dropEnding_lt (by decide) (hends.resolve_left hand)
    exact absurd (congrArg String.length h) hshort.ne
  · intro h
    rw [not_or] at h
    exact dropConnective_eq_self h.1 h.2

/-- Whether a text ends like a connective. -/
def EndsInConnective (s : String) : Prop :=
  "AND".toList <:+ s.toList ∨ "OR".toList <:+ s.toList

/-! ## Compiled criteria -/

theorem isBlank_getLast_dropWhere {cs : List Char}
    (h : ∀ b ∈ cs.getLast?, Text.isBlank b = false) :
    ∀ b ∈ (dropWhere cs).getLast?, Text.isBlank b = false := by
  unfold dropWhere
  split
  · intro b hb
    rw [List.getLast?_drop] at hb
    split at hb
    · cases hb
    · exact h b hb
  · exact h

/-- Compiled text never ends with white space, however its names are read. -/
theorem ClauseCompiler.isBlank_getLast_compile {c : ClauseCompiler} {k : Criteria} {w : Written}
    (hw : c.compile k = .ok w) : ∀ b ∈ w.text.toList.getLast?, Text.isBlank b = false := by
  unfold compile at hw
  simp only [bind_eq_ok, ofFault_eq_ok] at hw
  obtain ⟨⟨tables, clauses⟩, -, w₀, -, hw⟩ := hw
  refine isBlank_getLast_restyled (settle_eq_ok.mp hw).1 ?_
  rw [String.toList_ofList]
  exact isBlank_getLast_dropWhere isBlank_getLast_collapse

/-! ## Joins -/

namespace QueryCompiler

variable {q : QueryCompiler}

theorem joinText_key (link : Link) : ∃ s : String,
    q.joinText link = s ++ "." ++ q.quoter.quote link.childKey := by
  have hkey (a t k : String) : ∃ s, a ++ (t ++ "." ++ k) = s ++ "." ++ k :=
    ⟨a ++ t, by rw [String.append_assoc, String.append_assoc, String.append_assoc]⟩
  exact hkey _ _ _

/-- Joins end with the key of the last one and a space. -/
theorem joinsText_key {links : List Link} {link : Link} (h : links.getLast? = some link) :
    ∃ zs : List Char, (q.joinsText links).toList =
      zs ++ '.' :: (q.quoter.quote link.childKey).toList ++ [' '] := by
  obtain ⟨links, rfl⟩ := List.getLast?_eq_some_iff.mp h
  clear h
  induction links with
  | nil =>
    obtain ⟨s, hs⟩ := q.joinText_key link
    refine ⟨s.toList, ?_⟩
    rw [List.nil_append, joinsText_cons, hs]
    simp [joinsText]
  | cons other links ih =>
    obtain ⟨zs, hzs⟩ := ih
    refine ⟨(q.joinText other).toList ++ ' ' :: zs, ?_⟩
    rw [List.cons_append, joinsText_cons, String.toList_append, String.toList_append, hzs]
    simp

/-- Joins end like a connective where the last key does. -/
theorem suffix_joinsText_iff {links : List Link} {ys : List Char} (h : '.' ∉ ys) :
    ys ++ [' '] <:+ (q.joinsText links).toList ↔
      ∃ link ∈ links.getLast?, ys <:+ (q.quoter.quote link.childKey).toList := by
  cases hlast : links.getLast? with
  | none =>
    obtain rfl := List.getLast?_eq_none_iff.mp hlast
    simp [joinsText]
  | some link =>
    obtain ⟨zs, hzs⟩ := q.joinsText_key hlast
    rw [hzs, suffix_concat_iff, suffix_cons_iff_of_notMem h]
    simp

/-! ## Rows -/

theorem usualSource_eq_ok {catalog : Catalog} {d : Dialect} {style : MarkerStyle} {table : String}
    {start : Int} {k : Criteria} {clauses : Clauses} :
    (usualSource catalog d style table start k).outcome = .ok clauses ↔
      ∃ c w, ClauseCompiler.create catalog table d style start .usual = .ok c ∧
        c.compile k = .ok w ∧ clauses = .ofWritten w := by
  simp only [usualSource, ClauseCompiler.run, Traced.outcome_bind, Traced.outcome_of,
    Traced.outcome_emit, Traced.outcome_pure, bind_eq_ok]
  constructor
  · rintro ⟨c, hc, _, ⟨w, hw, _, -, hr⟩, hclauses⟩
    obtain rfl := Except.ok.inj hr
    exact ⟨c, w, hc, hw, (Except.ok.inj hclauses).symm⟩
  · rintro ⟨c, w, hc, hw, rfl⟩
    exact ⟨c, hc, w, ⟨w, hw, (), trivial, rfl⟩, rfl⟩

/-- What ends with a compiled text ends with a word and a space only where joins alone do. -/
theorem suffix_rows_iff (query : Query) (links : List Link) {text : String}
    (hblank : ∀ b ∈ text.toList.getLast?, Text.isBlank b = false) {ys : List Char} {a : Char}
    (hdot : '.' ∉ ys ++ [a]) (ha : a ≠ 'E') :
    ys ++ [a, ' '] <:+
        (q.joinsText links ++ (if query.hasFilter then "WHERE " else "") ++ text).toList ↔
      text = "" ∧ query.hasFilter = false ∧
        ∃ link ∈ links.getLast?, ys ++ [a] <:+ (q.quoter.quote link.childKey).toList := by
  by_cases hempty : text = ""
  · cases hfilter : query.hasFilter with
    | true =>
      refine iff_of_false (not_suffix_of_getLast (.inr ?_)) (by simp)
      exact ⟨(q.joinsText links).toList ++ "WHER".toList, 'E', by simp [hempty], ha.symm⟩
    | false =>
      have hall := @suffix_joinsText_iff q links _ hdot
      rw [List.append_assoc] at hall
      simpa [hempty] using hall
  · refine iff_of_false (not_suffix_of_getLast (.inl ?_)) (by simp [hempty])
    rw [String.toList_append, List.getLast?_append_of_ne_nil _ (by simpa using hempty)]
    exact hblank

theorem dropConnective_rows_iff (query : Query) (links : List Link) {text : String}
    (hblank : ∀ b ∈ text.toList.getLast?, Text.isBlank b = false) :
    dropConnective (q.joinsText links ++ (if query.hasFilter then "WHERE " else "") ++ text) =
        q.joinsText links ++ (if query.hasFilter then "WHERE " else "") ++ text ↔
      ¬(text = "" ∧ query.hasFilter = false ∧
        ∃ link ∈ links.getLast?, EndsInConnective (q.quoter.quote link.childKey)) := by
  have hand := @suffix_rows_iff q query links _ hblank ['A', 'N'] 'D' (by decide) (by decide)
  have hor := @suffix_rows_iff q query links _ hblank ['O'] 'R' (by decide) (by decide)
  rw [dropConnective_eq_self_iff, not_iff_not]
  refine (or_congr hand hor).trans ?_
  simp only [← and_or_left, ← exists_or]
  rfl

/-- A name between the marks of a dialect does not end like a connective. -/
theorem not_endsInConnective_quote (d : Dialect) (name : String) :
    ¬EndsInConnective ((Quoter.dialect d).quote name) := by
  have hlast : ((Quoter.dialect d).quote name).toList.getLast? = some d.mark := by
    rw [Quoter.quote, Quoting.quote, Quoting.quoteChars, String.toList_ofList]
    exact List.getLast?_concat
  have hmark : d.mark ≠ 'D' ∧ d.mark ≠ 'R' := by
    cases d <;> decide
  rintro (⟨zs, hzs⟩ | ⟨zs, hzs⟩)
  · rw [← hzs, show "AND".toList = ['A', 'N'] ++ ['D'] from rfl, ← List.append_assoc,
      List.getLast?_concat] at hlast
    exact hmark.1 (Option.some.inj hlast).symm
  · rw [← hzs, show "OR".toList = ['O'] ++ ['R'] from rfl, ← List.append_assoc,
      List.getLast?_concat] at hlast
    exact hmark.2 (Option.some.inj hlast).symm

theorem of_create {catalog : Catalog} {table placeholder aliasStart : String} {quoter : Quoter}
    {style : MarkerStyle}
    (h : create catalog table quoter none style.name placeholder aliasStart = .ok q) :
    q.catalog = catalog ∧ q.table = table ∧ q.quoter = quoter ∧
      q.source = usualSource q.catalog (q.quoter.dialect?.getD .default) style := by
  have hstyle : MarkerStyle.ofName style.name = .ok style := by
    cases style <;> rfl
  rw [create, hstyle] at h
  obtain rfl := Except.ok.inj h
  exact ⟨rfl, rfl, rfl, rfl⟩

theorem exists_parts_of_rows {d : Dialect} {style : MarkerStyle}
    (hsource : q.source = usualSource q.catalog d style) {query : Query} {f : Fragment}
    (hf : (q.rows (some query)).outcome = .ok f) :
    ∃ sorted c w, (query.sortedByKey q.catalog q.table .desc).outcome = .ok sorted ∧
      ClauseCompiler.create q.catalog q.table d style 1 .usual = .ok c ∧
      c.compile sorted.criteria = .ok w ∧ f.query = some sorted ∧ f.values = w.values ∧
      f.text = dropConnective (q.joinsText (query.associations.filterMap ownedLink?) ++
        (if query.hasFilter then "WHERE " else "") ++ w.text) := by
  simp only [rows, request, Traced.outcome_bind, Traced.outcome_of, Traced.outcome_emit,
    Traced.outcome_pure, bind_eq_ok, hsource, usualSource_eq_ok] at hf
  obtain ⟨sorted, hsort, _, ⟨_, -, c, w, hc, hw, rfl⟩, ending, hending, _, -, hf⟩ := hf
  obtain rfl := Except.ok.inj hf
  obtain rfl : w.text = ending := by
    rw [ofFault_eq_ok, Clauses.ending_ofWritten] at hending
    exact Except.ok.inj hending
  have hfilter : sorted.hasFilter = query.hasFilter := by
    rw [Query.hasFilter, Criteria.hasFilter, (filter_sortedByKey (congrArg (Traced.mk _) hsort)).1]
    rfl
  refine ⟨sorted, c, w, hsort, hc, hw, rfl, Clauses.bound_ofWritten w, ?_⟩
  simp only [hfilter, joinsText, joins_eq, List.isEmpty_map]

/-- The fragment for rows is the joins, `WHERE` before a filter, and what is compiled for the
criteria: nothing is dropped at its end, unless it is joins alone and the last key in them ends like a
connective. Between the marks of a dialect no key does. -/
theorem rows_eq_parts_iff {catalog : Catalog} {table placeholder aliasStart : String}
    {quoter : Quoter} {style : MarkerStyle}
    (hq : create catalog table quoter none style.name placeholder aliasStart = .ok q)
    {query : Query} {f : Fragment} (hf : (q.rows (some query)).outcome = .ok f) :
    ∃ sorted c w links, (query.sortedByKey catalog table .desc).outcome = .ok sorted ∧
      ClauseCompiler.create catalog table (quoter.dialect?.getD .default) style 1 .usual = .ok c ∧
      c.compile sorted.criteria = .ok w ∧ f.query = some sorted ∧ f.values = w.values ∧
      links = query.associations.filterMap ownedLink? ∧
      (f.text = q.joinsText links ++ (if query.hasFilter then "WHERE " else "") ++ w.text ↔
        ¬(w.text = "" ∧ query.hasFilter = false ∧
          ∃ link ∈ links.getLast?, EndsInConnective (quoter.quote link.childKey))) ∧
      (quoter.dialect?.isSome →
        f.text = q.joinsText links ++ (if query.hasFilter then "WHERE " else "") ++ w.text) := by
  obtain ⟨rfl, rfl, rfl, hsource⟩ := of_create hq
  obtain ⟨sorted, c, w, hsort, hc, hw, hquery, hvalues, htext⟩ := exists_parts_of_rows hsource hf
  have hiff := q.dropConnective_rows_iff query (query.associations.filterMap ownedLink?)
    (c.isBlank_getLast_compile hw)
  rw [← htext] at hiff
  refine ⟨sorted, c, w, _, hsort, hc, hw, hquery, hvalues, rfl, hiff, fun hd => hiff.mpr ?_⟩
  rintro ⟨-, -, link, -, hend⟩
  cases hquoter : q.quoter with
  | dialect d =>
    rw [hquoter] at hend
    exact not_endsInConnective_quote d _ hend
  | between =>
    rw [hquoter] at hd
    cases hd

/-! ### Sales and their brands -/

/-- A key that ends like a connective. -/
def toBrand : Link := ⟨"sales", "brand", "brands", "BRAND"⟩

/-- All sales with their brands, in no order. -/
def brandQuery : Query :=
  ⟨{ sort := .map [] }, [.parentOwnsKey (.text "brand") ⟨toBrand, none⟩]⟩

def brandQueries : QueryCompiler :=
  ⟨shop, "sales", .between "" "", usualSource shop .default .question, usualPlaceholder,
    usualAliasStart⟩

theorem compile_unsorted :
    (shopCompiler .question 1).compile { sort := .map [] } = .ok ⟨"", []⟩ := rfl

/-- Without marks around names, the end of the last key is dropped. -/
theorem rows_lose_key : ∃ f, (brandQueries.rows (some brandQuery)).outcome = .ok f ∧
    brandQueries.joinsText [toBrand] =
      "LEFT OUTER JOIN brands ON sales.brand = brands.BRAND " ∧
    f.text ≠ brandQueries.joinsText [toBrand] := by
  have hq : create shop "sales" (.between "" "") none MarkerStyle.question.name usualPlaceholder
      usualAliasStart = .ok brandQueries := rfl
  obtain ⟨f, hf⟩ : ∃ f, (brandQueries.rows (some brandQuery)).outcome = .ok f := ⟨_, rfl⟩
  obtain ⟨sorted, c, w, links, hsort, hc, hw, -, -, rfl, hiff, -⟩ := rows_eq_parts_iff hq hf
  obtain rfl : brandQuery = sorted := Except.ok.inj hsort
  obtain rfl : shopCompiler .question 1 = c := Except.ok.inj hc
  obtain rfl : ⟨"", []⟩ = w := Except.ok.inj (compile_unsorted.symm.trans hw)
  refine ⟨f, hf, by decide, fun htext => ?_⟩
  have hkey : EndsInConnective "BRAND" := .inl ⟨"BR".toList, rfl⟩
  refine hiff.mp ?_ ⟨rfl, rfl, toBrand, rfl, hkey⟩
  rw [htext]
  decide

end QueryCompiler

end SqlFragment
