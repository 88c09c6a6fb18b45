import SqlFragment.Proofs.Names

/-!
Filters read back from compiled texts: what is compiled for a tree means that tree.
-/
namespace SqlFragment

/-- The condition at the start of lexemes, without the numbers of markers: what stands before the
clauses behind it. -/
def conditionIn (style : MarkerStyle) (ls : List Lexeme) : List Lexeme :=
  (ls.map (Lexeme.unnumbered style)).takeWhile fun l => !l.startsClause

namespace ClauseCompiler

variable {c : ClauseCompiler} {k : Criteria} {w : Written} {p? : Option Predicate}
  {tail : List Piece}

/-- There is a predicate when the filter is not empty. -/
theorem isSome_of_parts (h : c.parts k = .ok (p?, tail)) : p?.isSome = k.filter.isTruthy := by
  obtain ⟨node, hnode, hcases⟩ := predicate_cases (predicate_of_parts h)
  rw [← Filter.isTruthy_toNode hnode]
  obtain ⟨hempty, rfl⟩ | ⟨hsome, tree, -, rfl⟩ := hcases
  · exact hempty.symm
  · exact hsome.symm

/-- The lexemes of the filter of a compiled text. -/
def filterLexemes (c : ClauseCompiler) (text : String) : List Lexeme :=
  conditionIn c.style (c.lexemes text)

/-- Behind a filter nothing stands, or what starts a clause. -/
theorem shown_tail (h : StartsClause c.dialect tail) :
    c.shown tail = [] ∨ ∃ l ls, c.shown tail = l :: ls ∧ l.startsClause = true := by
  rcases h with rfl | ⟨w, qs, hw, rfl⟩
  · exact .inl rfl
  · right
    rw [c.shown_cons, c.shown_word]
    rcases hw with rfl | rfl
    · have horder : lex c.dialect.mark " ORDER BY ".toList = [.word "ORDER", .word "BY"] := by
        cases c.dialect <;> decide
      exact ⟨_, _, by rw [horder]; rfl, by decide⟩
    · have hlimit : lex c.dialect.mark (limitWord c.dialect).toList = [.word "LIMIT"] := by
        cases c.dialect <;> decide
      exact ⟨_, _, by rw [hlimit]; rfl, by decide⟩

/-- What a predicate is made of is inside a filter. -/
theorem inside_of_isSome (h : c.parts k = .ok (p?, tail)) :
    ∀ l ∈ c.shown ((p?.map (Predicate.conjunctText c.dialect)).getD []),
      l.startsClause = false := by
  cases p? with
  | none => exact nofun
  | some p =>
    obtain ⟨⟨us, hus, -⟩, -⟩ := reads_predicate c p (isFull_of_parts h)
    exact hus.parses.inside

theorem Compiled.unnumbered_eq (h : Compiled c k w p? tail) :
    (c.lexemes w.text).map (Lexeme.unnumbered c.style) =
      c.shown ((p?.map (Predicate.conjunctText c.dialect)).getD []) ++ c.shown tail := by
  rw [h.lexemes, map_unnumbered_settledPieces (tidy_body h.parts), body, c.shown_append]

theorem Compiled.filterLexemes_eq (h : Compiled c k w p? tail) :
    c.filterLexemes w.text = c.shown ((p?.map (Predicate.conjunctText c.dialect)).getD []) := by
  rw [filterLexemes, conditionIn, h.unnumbered_eq, List.takeWhile_append_of_pos]
  · rcases shown_tail (tidy_tail h.parts).2 with htail | ⟨l, ls, htail, hl⟩
    · rw [htail, List.takeWhile_nil, List.append_nil]
    · rw [htail, List.takeWhile_cons_of_neg (by simp [hl]), List.append_nil]
  · intro l hl
    simp [inside_of_isSome h.parts l hl]

/-- The filter of a compiled text means the tree of the filter: each comparison is a condition of the
tree, as it is or turned around, in the order of the tree, and for all values of the conditions the
text has the value of the tree. -/
theorem filter_means_tree (hlegible : c.IsLegible k) (hw : c.compile k = .ok w) :
    (k.filter.isTruthy = false → c.filterLexemes w.text = []) ∧
    (k.filter.isTruthy = true → ∃ node tree m turns, Filter.toNode k.filter = .ok node ∧
      Filter.Tree.read c.condition (.root "where") node = .ok tree ∧
      meaningOf (c.filterLexemes w.text) = some m ∧ turns.length = tree.leaves.length ∧
      m.leaves = List.zipWith (fun turn x => c.shown ((x.turned turn).comparison c.dialect)) turns
        tree.leaves ∧
      ∀ v, Fits v tree.leaves → m.value (turnedValues turns v) = tree.value v) := by
  obtain ⟨p?, tail, h⟩ := exists_compiled hlegible hw
  have hsome := isSome_of_parts h.parts
  have hlexemes := h.filterLexemes_eq
  constructor
  · intro hfilter
    obtain rfl : p? = none := by simpa [hfilter] using hsome
    exact hlexemes
  · intro hfilter
    obtain ⟨p, rfl⟩ : ∃ p, p? = some p := Option.isSome_iff_exists.mp (hsome.trans hfilter)
    obtain ⟨node, tree, hnode, -, htree, rfl⟩ := predicate_eq_ok (predicate_of_parts h.parts)
    obtain ⟨⟨us, hus, hmeans⟩, -⟩ := reads_predicate c _ (isFull_of_parts h.parts)
    obtain ⟨turns, hturns⟩ := turns_ofTree tree
    have hm := hmeans.any_singleton
    rw [← hus.meaning_eq] at hm
    refine ⟨node, tree, _, turns, hnode, htree, hlexemes ▸ hus.parses.meaningOf_eq, hturns.length,
      ?_, fun v hv => ?_⟩
    · rw [hm.leaves, hturns.leaves, List.map_zipWith]
    · rw [← hturns.value, hm.value]
      rw [hturns.leaves]
      exact fits_turnedValues hv

/-- The first sale, or one with a tag of none and no origin; and in no case one that is early or has
another tag than the new one. -/
def firstAndLate : Criteria where
  filter := Filter.groupNode .and
    [Filter.groupNode .or [Filter.leafNode .eq (.text "id") (.int 1),
      Filter.groupNode .and [Filter.leafNode .isIn (.text "tag") (.list []),
        Filter.leafNode .isNull (.text "origin") .null]],
    Filter.groupNode .not [Filter.groupNode .or [Filter.leafNode .lt (.text "id") (.int 9),
      Filter.groupNode .not [Filter.leafNode .eq (.text "tag") (.text "new")]]]]

theorem compile_firstAndLate : ∃ w, (shopCompiler .question 1).compile firstAndLate = .ok w ∧
    w.text = "(\"sales\".\"id\" = ? OR \"sales\".\"tag\" IN (NULL) AND (1 != 1) AND " ++
      "\"sales\".\"origin\" IS NULL) AND NOT (\"sales\".\"id\" < ? OR \"sales\".\"tag\" != ?)" := by
  have hclauses : (shopCompiler .question 1).clauses firstAndLate =
      .ok (["sales"], [.word " \nWHERE ", .word "(", .name "sales", .word ".", .name "id",
        .word " = ", .marker "param" (.int 1), .word " OR ", .name "sales", .word ".", .name "tag",
        .word " IN (", .members "tag" false [], .word ")", .word " AND ", .name "sales", .word ".",
        .name "origin", .word " IS NULL", .word ")", .word " AND ", .word "NOT ", .word "(",
        .name "sales", .word ".", .name "id", .word " < ", .marker "param" (.int 9), .word " OR ",
        .name "sales", .word ".", .name "tag", .word " != ", .marker "param" (.text "new"),
        .word ")"]) := by
    cbv
  apply exists_of_toOption
  rw [compile, hclauses]
  decide +kernel

/-- The text means the tree, though a list without members adds a condition to a group, and though a
negated comparison is turned around where it stands. -/
theorem filter_means_tags : ∃ w tree m turns,
    (shopCompiler .question 1).compile firstAndLate = .ok w ∧
    w.text = "(\"sales\".\"id\" = ? OR \"sales\".\"tag\" IN (NULL) AND (1 != 1) AND " ++
      "\"sales\".\"origin\" IS NULL) AND NOT (\"sales\".\"id\" < ? OR \"sales\".\"tag\" != ?)" ∧
    Filter.Tree.read (shopCompiler .question 1).condition (.root "where") firstAndLate.filter =
      .ok tree ∧
    meaningOf ((shopCompiler .question 1).filterLexemes w.text) = some m ∧
    ∀ v, Fits v tree.leaves → m.value (turnedValues turns v) = tree.value v := by
  have hlegible : (shopCompiler .question 1).IsLegible firstAndLate :=
    isLegible_of_catalog isPlain_shop (by decide : IsPlainName "sales")
  obtain ⟨w, hw, htext⟩ := compile_firstAndLate
  obtain ⟨-, hfilter⟩ := filter_means_tree hlegible hw
  obtain ⟨node, tree, m, turns, hnode, htree, hmeaning, -, -, hvalue⟩ := hfilter rfl
  have hsame : Filter.toNode firstAndLate.filter = .ok firstAndLate.filter := rfl
  obtain rfl := Except.ok.inj (hsame.symm.trans hnode)
  exact ⟨w, tree, m, turns, hw, htext, htree, hmeaning, hvalue⟩

end ClauseCompiler

end SqlFragment
