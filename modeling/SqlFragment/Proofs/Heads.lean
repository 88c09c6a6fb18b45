import SqlFragment.Fetch
import SqlFragment.Proofs.Filters

/-!
Heads of subqueries and joins, as they are put together and as they are read back.
-/
namespace SqlFragment

/-! ## Texts in parts -/

/-- A text in which every name is closed, and its lexemes. -/
structure ReadsAs (d : Dialect) (cs : List Char) (ls : List Lexeme) : Prop where
  paired : Paired d.mark cs
  lexemes : lex d.mark cs = ls

namespace ReadsAs

variable {d : Dialect} {xs ys : List Char} {ls ms : List Lexeme}

theorem append (h : ReadsAs d xs ls) (h' : ReadsAs d ys ms)
    (hborder : Closes xs ∨ ys = [] ∨ Opens ys) : ReadsAs d (xs ++ ys) (ls ++ ms) where
  paired := h.paired.append h'.paired
  lexemes := by rw [h.paired.lex_append d.isBreak_mark hborder, h.lexemes, h'.lexemes]

theorem nil : ReadsAs d [] [] := ⟨rfl, rfl⟩

theorem keyword {w : String} (hw : IsKeyword w) (hls : ∀ d : Dialect, lex d.mark w.toList = ls) :
    ReadsAs d w.toList ls :=
  ⟨paired_of_notMem (mark_notMem_keyword d hw), hls d⟩

theorem segments {style : MarkerStyle} {segs : List Segment} (h : Segment.Tidy segs) :
    ReadsAs d (segs.flatMap (Segment.chars d style)) (segs.flatMap (Segment.lexemes d style)) where
  paired := .flatMap fun s hs => s.paired_chars d style (h.words s hs)
  lexemes := lex_segments d style h.words h.apart

end ReadsAs

/-- The style of markers for which the usual quoting of a dialect is made. -/
def Dialect.headStyle : Dialect → MarkerStyle
  | .postgresql | .mysql => .percent
  | .default | .sqlite => .question

theorem Dialect.quoting_headStyle (d : Dialect) : d.quoting d.headStyle = d.usualQuoting := by
  cases d <;> rfl

/-! ## Heads -/

/-- The keywords in joins and in heads up to their conditions. -/
def headWords : List String :=
  ["LEFT OUTER JOIN ", " ON ", ".", " = ", " ", "SELECT * FROM ", "SELECT ", ", ", " AS ", " FROM ",
    " INNER JOIN "]

/-- A lexeme that binds nothing in any style, starts no condition and joins none. -/
structure Lexeme.IsHead (l : Lexeme) : Prop where
  silent : ∀ style, l.marker? style = none
  noWhere : l ≠ .word "WHERE"
  noAnd : l ≠ .word "AND"

def Segment.IsHead (s : Segment) : Prop := (∃ n, s = .name n) ∨ ∃ w ∈ headWords, s = .word w

namespace Segment

theorem isHead_name (n : String) : ∀ s ∈ [Segment.name n], s.IsHead :=
  List.forall_mem_singleton.mpr (.inl ⟨n, rfl⟩)

theorem isHead_lead {w : String} (hw : w ∈ headWords) {xs : List Segment}
    (h : ∀ s ∈ xs, s.IsHead) : ∀ s ∈ .word w :: xs, s.IsHead :=
  List.forall_mem_cons.mpr ⟨.inr ⟨w, hw, rfl⟩, h⟩

theorem isHead_glue {w : String} (hw : w ∈ headWords) {xs ys : List Segment}
    (hxs : ∀ s ∈ xs, s.IsHead) (hys : ∀ s ∈ ys, s.IsHead) :
    ∀ s ∈ xs ++ .word w :: ys, s.IsHead :=
  List.forall_mem_append.mpr ⟨hxs, isHead_lead hw hys⟩

end Segment

theorem isHead_lexemes {d : Dialect} {style : MarkerStyle} {segs : List Segment}
    (h : ∀ s ∈ segs, s.IsHead) : ∀ l ∈ segs.flatMap (Segment.lexemes d style), l.IsHead := by
  have hwords : ∀ w ∈ headWords, IsKeyword w ∧ Lexeme.word "WHERE" ∉ lex d.mark w.toList ∧
      Lexeme.word "AND" ∉ lex d.mark w.toList := by
    cases d <;> decide
  intro l hl
  obtain ⟨s, hs, hl⟩ := List.mem_flatMap.mp hl
  rcases h s hs with ⟨n, rfl⟩ | ⟨w, hw, rfl⟩
  · obtain rfl := List.mem_singleton.mp hl
    exact ⟨fun _ => rfl, nofun, nofun⟩
  · obtain ⟨hkeyword, hwhere, hand⟩ := hwords w hw
    refine ⟨fun style => marker?_keyword hkeyword hl, ?_, ?_⟩
    · rintro rfl
      exact hwhere hl
    · rintro rfl
      exact hand hl

namespace Segment

def column (table name : String) : List Segment := [.name table, .word ".", .name name]

/-- Between two tidy parts stands a word that breaks off on both sides. -/
theorem Tidy.glue {xs ys : List Segment} {w : String} (h : Tidy xs) (hys : Tidy ys)
    (hw : IsKeyword w ∧ SqlFragment.Opens w.toList ∧ SqlFragment.Closes w.toList) :
    Tidy (xs ++ .word w :: ys) :=
  h.append_word (hys.lead hw.1 hw.2.2) hw.2.1

theorem tidy_name (s : String) : Tidy [.name s] := .singleton trivial

theorem tidy_column (table name : String) : Tidy (column table name) :=
  (tidy_name table).glue (tidy_name name) (by decide)

theorem isHead_column (table name : String) : ∀ s ∈ column table name, s.IsHead :=
  isHead_glue (by decide) (isHead_name table) (isHead_name name)

theorem isHead_joined {parts : List (List Segment)} (h : ∀ p ∈ parts, ∀ s ∈ p, s.IsHead) :
    ∀ s ∈ joined parts, s.IsHead :=
  joined_induction (P := fun xs => ∀ s ∈ xs, s.IsHead) nofun
    (isHead_glue (by decide)) h

/-- A head that selects rows by what is equal to a placeholder behind it. -/
def head (before key : List Segment) : List Segment :=
  before ++ .word " WHERE " :: (key ++ [.word " = "])

end Segment

namespace Link

/-- The join that a link adds. -/
def joinSegments (link : Link) : List Segment :=
  .word "LEFT OUTER JOIN " :: ([.name link.childTable] ++
    .word " ON " :: (Segment.column link.parentTable link.parentKey ++
      .word " = " :: Segment.column link.childTable link.childKey))

theorem tidy_joinSegments (link : Link) : Segment.Tidy link.joinSegments :=
  ((Segment.tidy_name _).glue ((Segment.tidy_column _ _).glue (Segment.tidy_column _ _) (by decide))
    (by decide)).lead (by decide) (by decide)

/-- The head of a subquery of the child table up to its condition. -/
def childSegments (link : Link) : List Segment := [.word "SELECT * FROM ", .name link.childTable]

/-- What is equal to the placeholder in a subquery of the child table. -/
def childKeySegments (link : Link) : List Segment := [.name link.childKey]

theorem tidy_childSegments (link : Link) : Segment.Tidy link.childSegments :=
  (Segment.tidy_name _).lead (by decide) (by decide)

theorem tidy_childKeySegments (link : Link) : Segment.Tidy link.childKeySegments :=
  Segment.tidy_name _

/-- The head of a subquery of the target table up to its condition. -/
def junctionSegments (link target : Link) (columns : List String) (key : String) : List Segment :=
  .word "SELECT " :: (Segment.joined (columns.map (Segment.column target.childTable) ++
      [Segment.column link.childTable link.childKey ++ .word " AS " :: [.name key]]) ++
    .word " FROM " :: ([.name target.childTable] ++
      .word " INNER JOIN " :: ([.name link.childTable] ++
        .word " ON " :: (Segment.column target.parentTable target.parentKey ++
          .word " = " :: Segment.column target.childTable target.childKey))))

def junctionKeySegments (link target : Link) : List Segment :=
  Segment.column target.childTable target.childKey ++
    .word " IN (SELECT " :: (Segment.column link.childTable target.parentKey ++
      .word " FROM " :: ([.name link.childTable] ++
        .word " WHERE " :: Segment.column link.childTable link.childKey))

theorem tidy_junctionSegments (link target : Link) (columns : List String) (key : String) :
    Segment.Tidy (link.junctionSegments target columns key) := by
  have hcolumns : Segment.Tidy (Segment.joined (columns.map (Segment.column target.childTable) ++
      [Segment.column link.childTable link.childKey ++ .word " AS " :: [.name key]])) := by
    refine .joined (List.forall_mem_append.mpr ⟨fun p hp => ?_, List.forall_mem_singleton.mpr ?_⟩)
    · obtain ⟨name, -, rfl⟩ := List.mem_map.mp hp
      exact Segment.tidy_column _ _
    · exact (Segment.tidy_column _ _).glue (Segment.tidy_name _) (by decide)
  refine (hcolumns.glue ((Segment.tidy_name _).glue ((Segment.tidy_name _).glue ?_ (by decide))
    (by decide)) (by decide)).lead (by decide) (by decide)
  exact (Segment.tidy_column _ _).glue (Segment.tidy_column _ _) (by decide)

theorem tidy_junctionKeySegments (link target : Link) :
    Segment.Tidy (link.junctionKeySegments target) :=
  (Segment.tidy_column _ _).glue ((Segment.tidy_column _ _).glue
    ((Segment.tidy_name _).glue (Segment.tidy_column _ _) (by decide)) (by decide)) (by decide)

theorem isHead_joinSegments (link : Link) : ∀ s ∈ link.joinSegments, s.IsHead :=
  Segment.isHead_lead (by decide) (Segment.isHead_glue (by decide) (Segment.isHead_name _)
    (Segment.isHead_glue (by decide) (Segment.isHead_column _ _) (Segment.isHead_column _ _)))

theorem isHead_childSegments (link : Link) : ∀ s ∈ link.childSegments, s.IsHead :=
  Segment.isHead_lead (by decide) (Segment.isHead_name _)

theorem isHead_junctionSegments (link target : Link) (columns : List String) (key : String) :
    ∀ s ∈ link.junctionSegments target columns key, s.IsHead := by
  refine Segment.isHead_lead (by decide) (Segment.isHead_glue (by decide)
    (Segment.isHead_joined ?_) (Segment.isHead_glue (by decide) (Segment.isHead_name _)
      (Segment.isHead_glue (by decide) (Segment.isHead_name _) (Segment.isHead_glue (by decide)
        (Segment.isHead_column _ _) (Segment.isHead_column _ _)))))
  refine List.forall_mem_append.mpr ⟨fun p hp => ?_, List.forall_mem_singleton.mpr ?_⟩
  · obtain ⟨name, -, rfl⟩ := List.mem_map.mp hp
    exact Segment.isHead_column _ _
  · exact Segment.isHead_glue (by decide) (Segment.isHead_column _ _) (Segment.isHead_name _)

end Link

namespace QueryCompiler

variable {q : QueryCompiler} {d : Dialect}

theorem toList_quote (h : q.quoter = .dialect d) (s : String) :
    (q.quoter.quote s).toList = (Segment.name s).chars d d.headStyle := by
  rw [h, Segment.chars, d.quoting_headStyle]
  exact String.toList_ofList

theorem chars_word (style : MarkerStyle) (w : String) :
    (Segment.word w).chars d style = w.toList := rfl

theorem toList_quoteColumn (h : q.quoter = .dialect d) (table name : String) :
    (q.quoter.quoteColumn table name).toList =
      (Segment.column table name).flatMap (Segment.chars d d.headStyle) := by
  simp only [Quoter.quoteColumn, String.toList_append, toList_quote h, Segment.column,
    List.flatMap_cons, List.flatMap_nil, chars_word, List.append_nil, List.append_assoc]

theorem toList_joinText (h : q.quoter = .dialect d) (link : Link) :
    (q.joinText link).toList = link.joinSegments.flatMap (Segment.chars d d.headStyle) := by
  unfold joinText
  simp only [String.toList_append, toList_quote h, toList_quoteColumn h,
    Link.joinSegments, List.flatMap_cons, List.flatMap_append, List.flatMap_nil, chars_word,
    List.append_nil, List.append_assoc]

theorem toList_childHead (h : q.quoter = .dialect d) (link : Link) :
    (q.childHead link).toList = (Segment.head link.childSegments link.childKeySegments).flatMap
      (Segment.chars d d.headStyle) ++ q.placeholder.toList := by
  unfold childHead
  simp only [String.toList_append, toList_quote h, Segment.head, Link.childSegments,
    Link.childKeySegments, List.flatMap_cons, List.flatMap_append, List.flatMap_nil, chars_word,
    List.append_nil, List.append_assoc]

/-- The columns that a subquery of the target table selects. -/
theorem toList_selected (h : q.quoter = .dialect d) (link target : Link) (columns : List String) :
    (Value.commas (columns.map (q.quoter.quoteColumn target.childTable) ++
      [q.quoter.quoteColumn link.childTable link.childKey ++ " AS " ++
        q.quoter.quote (q.aliasStart ++ link.childKey)])).toList =
      (Segment.joined (columns.map (Segment.column target.childTable) ++
        [Segment.column link.childTable link.childKey ++
          .word " AS " :: [.name (q.aliasStart ++ link.childKey)]])).flatMap
            (Segment.chars d d.headStyle) := by
  rw [Value.commas, String.toList_intercalate, chars_joined]
  simp only [List.map_append, List.map_map, List.map_cons, List.map_nil, String.toList_append,
    toList_quote h, toList_quoteColumn h, List.flatMap_append, List.flatMap_cons, List.flatMap_nil,
    chars_word, List.append_nil, List.append_assoc, Function.comp_def]
  rfl

theorem toList_junctionHead (h : q.quoter = .dialect d) (link target : Link)
    (columns : List String) :
    (q.junctionHead link target columns).toList =
      (Segment.head (link.junctionSegments target columns (q.aliasStart ++ link.childKey))
        (link.junctionKeySegments target)).flatMap (Segment.chars d d.headStyle) ++
          q.placeholder.toList ++ ")".toList := by
  have hselected := toList_selected h link target columns
  unfold junctionHead
  simp only [String.toList_append] at hselected ⊢
  rw [hselected]
  simp only [toList_quote h, toList_quoteColumn h, Segment.head, Link.junctionSegments,
    Link.junctionKeySegments, List.flatMap_cons, List.flatMap_append, List.flatMap_nil, chars_word,
    List.append_nil, List.append_assoc]

end QueryCompiler

/-! ## Heads read back -/

/-- A name as it stands in a head. -/
def Dialect.headName (d : Dialect) (s : String) : Lexeme :=
  .name (String.ofList (d.usualQuoting.shown s.toList))

def Dialect.headColumn (d : Dialect) (table name : String) : List Lexeme :=
  [d.headName table, .symbol '.', d.headName name]

/-- The condition by which a subquery selects the rows that belong to one row. -/
def Association.correlation (d : Dialect) : Association → List Lexeme
  | .parentOwnsKey .. => []
  | .childOwnsKey _ step => [d.headName step.link.childKey, .word "=", .word "^?^"]
  | .junction _ link target =>
    d.headColumn target.link.childTable target.link.childKey ++
      (.word "IN" :: .symbol '(' :: .word "SELECT" ::
        d.headColumn link.link.childTable target.link.parentKey ++
          (.word "FROM" :: d.headName link.link.childTable :: .word "WHERE" ::
            d.headColumn link.link.childTable link.link.childKey ++
              [.word "=", .word "^?^", .symbol ')']))

/-- The query that selects among the rows of an association. -/
def Association.nestedQuery : Association → Query
  | .parentOwnsKey _ step | .childOwnsKey _ step | .junction _ _ step => step.criteria.getD .empty

section Heads

variable {d : Dialect}

theorem lexemes_name (s : String) : (Segment.name s).lexemes d d.headStyle = [d.headName s] := by
  rw [Segment.lexemes, d.quoting_headStyle]
  rfl

theorem lexemes_word {w : String} {style : MarkerStyle} {ls : List Lexeme}
    (h : ∀ d : Dialect, lex d.mark w.toList = ls) : (Segment.word w).lexemes d style = ls := h d

theorem lexemes_column (table name : String) :
    (Segment.column table name).flatMap (Segment.lexemes d d.headStyle) = d.headColumn table name := by
  have hpoint : (Segment.word ".").lexemes d d.headStyle = [.symbol '.'] :=
    lexemes_word fun d => by cases d <;> decide
  simp only [Segment.column, List.flatMap_cons, List.flatMap_nil, lexemes_name, hpoint]
  rfl

theorem Closes.append {xs ys : List Char} (h : Closes ys) : Closes (xs ++ ys) := by
  obtain ⟨c, hc, hb⟩ := h
  exact ⟨c, by simp_all [List.getLast?_append], hb⟩

theorem tidy_head {before key : List Segment} (hbefore : Segment.Tidy before)
    (hkey : Segment.Tidy key) : Segment.Tidy (Segment.head before key) :=
  hbefore.glue (hkey.append_word (.singleton (by decide : IsKeyword " = ")) (by decide))
    (by decide)

theorem closes_head (before key : List Segment) (style : MarkerStyle) :
    Closes ((Segment.head before key).flatMap (Segment.chars d style)) := by
  rw [Segment.head, ← List.cons_append, ← List.append_assoc, List.flatMap_append,
    List.flatMap_singleton]
  exact Closes.append (by decide : Closes " = ".toList)

/-- A head up to its placeholder. -/
theorem readsAs_head {before key : List Segment} (hbefore : Segment.Tidy before)
    (hkey : Segment.Tidy key) :
    ReadsAs d ((Segment.head before key).flatMap (Segment.chars d d.headStyle) ++ "^?^".toList)
      (before.flatMap (Segment.lexemes d d.headStyle) ++ .word "WHERE" ::
        (key.flatMap (Segment.lexemes d d.headStyle) ++ [.word "=", .word "^?^"])) := by
  have hwhere : (Segment.word " WHERE ").lexemes d d.headStyle = [.word "WHERE"] :=
    lexemes_word fun d => by cases d <;> decide
  have heq : (Segment.word " = ").lexemes d d.headStyle = [.word "="] :=
    lexemes_word fun d => by cases d <;> decide
  have hsegments := @ReadsAs.segments d d.headStyle _ (tidy_head hbefore hkey)
  have hplaceholder : ReadsAs d "^?^".toList [.word "^?^"] := by
    cases d <;> exact ⟨by decide, by decide⟩
  have hall := hsegments.append hplaceholder (.inl (closes_head before key d.headStyle))
  simpa only [Segment.head, List.flatMap_append, List.flatMap_cons, List.flatMap_nil,
    List.append_nil, hwhere, heq, List.append_assoc, List.cons_append, List.nil_append] using hall

end Heads

end SqlFragment
