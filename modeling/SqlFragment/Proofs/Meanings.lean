import SqlFragment.Proofs.Markers
import SqlFragment.Proofs.Precedence

/-!
Predicates read back from their pieces: every condition is a comparison of the text, and the text
has the value of the predicate.
-/
namespace SqlFragment

/-! ## Texts without numbers -/

/-- A lexeme without the number that it has as a marker. -/
def Lexeme.unnumbered (style : MarkerStyle) (l : Lexeme) : Lexeme :=
  if (l.marker? style).isSome then .word "?" else l

/-- The lexemes of a segment where it is compiled, without the number of a marker. -/
def Segment.shown (c : ClauseCompiler) : Segment → List Lexeme
  | .word s => lex c.dialect.mark s.toList
  | .name s => [settledName c.dialect c.style c.start s]
  | .marker _ _ => [.word "?"]

namespace ClauseCompiler

variable {c : ClauseCompiler}

/-- The lexemes of pieces where they are compiled, without the numbers of markers. -/
def shown (c : ClauseCompiler) (ps : List Piece) : List Lexeme :=
  ps.flatMap fun p => (p.segments c.dialect 0 0).flatMap (Segment.shown c)

theorem map_unnumbered_settled {s : Segment} (h : s.IsOrdinary) :
    (s.settled c.dialect c.style c.start).map (Lexeme.unnumbered c.style) = s.shown c := by
  cases s with
  | word w =>
    refine (List.map_congr_left fun l hl => ?_).trans (List.map_id _)
    rw [Lexeme.unnumbered, marker?_keyword h hl]
    rfl
  | name w => simp [Segment.settled, Segment.shown, Lexeme.unnumbered, marker?_settledName]
  | marker n v => simp [Segment.settled, Segment.shown, Lexeme.unnumbered, marker?_markAt]

theorem shown_segmentsFrom (n m : Nat) (ps : List Piece) :
    (segmentsFrom c.dialect n m ps).flatMap (Segment.shown c) = c.shown ps :=
  flatMap_segmentsFrom (fun _ _ => rfl) c.dialect n m ps

/-- Where pieces are compiled, they are shown but for the numbers of their markers. -/
theorem map_unnumbered_settledPieces {ps : List Piece} (h : Tidy c.dialect ps) :
    (c.settledPieces ps).map (Lexeme.unnumbered c.style) = c.shown ps := by
  rw [settledPieces, List.map_flatMap, ← shown_segmentsFrom 1 (firstListed ps)]
  exact List.flatMap_congr fun s hs => map_unnumbered_settled (isOrdinary_segments h s hs)

theorem shown_append (ps qs : List Piece) : c.shown (ps ++ qs) = c.shown ps ++ c.shown qs :=
  List.flatMap_append

theorem shown_cons (p : Piece) (ps : List Piece) : c.shown (p :: ps) = c.shown [p] ++ c.shown ps :=
  shown_append [p] ps

theorem shown_word (w : String) : c.shown [.word w] = lex c.dialect.mark w.toList := by
  simp [shown, Piece.segments, Segment.shown]

theorem shown_marker (label : String) (v : Value) : c.shown [.marker label v] = [.word "?"] := rfl

/-- The lexemes of a keyword are those that it has between any marks. -/
theorem shown_keyword {w : String} {ls : List Lexeme}
    (h : ∀ d : Dialect, lex d.mark w.toList = ls) : c.shown [.word w] = ls := by
  rw [shown_word, h]

/-- A column is a name, a point and a name. -/
theorem shown_column (column : Column) :
    ∃ a b, c.shown column.pieces = [.name a, .symbol '.', .name b] := by
  obtain ⟨a, ha⟩ := exists_settledName c.dialect c.style c.start column.table
  obtain ⟨b, hb⟩ := exists_settledName c.dialect c.style c.start column.name
  have hpoint : lex c.dialect.mark ['.'] = [.symbol '.'] := by
    cases c.dialect <;> decide
  refine ⟨a, b, ?_⟩
  simp [shown, Column.pieces, Piece.segments, Segment.shown, ha, hb, hpoint]

end ClauseCompiler

/-! ## Comparisons -/

/-- A condition without the parentheses around it, and without what some dialects say of a list
without members. -/
def Condition.comparison (d : Dialect) (x : Condition) : List Piece :=
  match x.test with
  | .member negated vs =>
    x.column.pieces ++ [.word (if negated then " NOT IN (" else " IN ("),
      if vs.isEmpty && d ≠ .sqlite then .word "NULL"
      else .members (columnLabel x.column.name) negated vs, .word ")"]
  | _ => x.pieces d

/-- The truth of a condition that no row changes: membership in a list without members. -/
def Condition.fixed? (x : Condition) : Option Bool :=
  match x.test with
  | .member negated [] => some negated
  | _ => none

/-- Whether conditions that no row changes have their values. -/
def Fits (v : Nat → Truth) (xs : List Condition) : Prop :=
  ∀ i x b, xs[i]? = some x → x.fixed? = some b → v i = .ofBool b

theorem fits_append {v : Nat → Truth} {xs ys : List Condition} :
    Fits v (xs ++ ys) ↔ Fits v xs ∧ Fits (Filter.Tree.past xs.length v) ys := by
  constructor
  · intro h
    refine ⟨fun i x b hx => h i x b ?_, fun i x b hx => h (xs.length + i) x b ?_⟩
    · have := (List.getElem?_eq_some_iff.mp hx).1
      rwa [List.getElem?_append_left this]
    · rwa [List.getElem?_append_right (Nat.le_add_right _ _), Nat.add_sub_cancel_left]
  · rintro ⟨hxs, hys⟩ i x b hx hb
    by_cases hi : i < xs.length
    · rw [List.getElem?_append_left hi] at hx
      exact hxs i x b hx hb
    · have hi : xs.length ≤ i := Nat.le_of_not_lt hi
      rw [List.getElem?_append_right hi] at hx
      have := hys (i - xs.length) x b hx hb
      rwa [Filter.Tree.past, Nat.add_sub_cancel' hi] at this

/-- What is read has the comparisons and the value of a tree. -/
structure Means (c : ClauseCompiler) (m : Meaning) (t : Filter.Tree Condition) : Prop where
  leaves : m.leaves = t.leaves.map fun x => c.shown (x.comparison c.dialect)
  value : ∀ v, Fits v t.leaves → m.value v = t.value v

namespace Means

open Filter.Tree

variable {c : ClauseCompiler} {ms ns : List Meaning} {ts us : List (Filter.Tree Condition)}

theorem length_leaves {m : Meaning} {t : Filter.Tree Condition} (h : Means c m t) :
    m.leaves.length = t.leaves.length := by
  rw [h.leaves, List.length_map]

theorem leaves_append {f : Condition → List Lexeme} (h : leavesOf ms = (leavesOf ts).map f)
    (h' : leavesOf ns = (leavesOf us).map f) :
    leavesOf (ms ++ ns) = (leavesOf (ts ++ us)).map f := by
  rw [leavesOf_append, leavesOf_append, List.map_append, h, h']

/-- Values joined by a connective are those of its parts, joined. -/
theorem fold_append {f : List Truth → Truth} {op : Truth → Truth → Truth}
    (hf : ∀ xs ys, f (xs ++ ys) = op (f xs) (f ys))
    (hlength : (leavesOf ms).length = (leavesOf ts).length)
    (h : ∀ v, Fits v (leavesOf ts) → f (values ms v) = f (values ts v))
    (h' : ∀ v, Fits v (leavesOf us) → f (values ns v) = f (values us v)) (v : Nat → Truth)
    (hv : Fits v (leavesOf (ts ++ us))) : f (values (ms ++ ns) v) = f (values (ts ++ us) v) := by
  rw [leavesOf_append] at hv
  obtain ⟨hvt, hvu⟩ := fits_append.mp hv
  rw [values_append, values_append, hf, hf, hlength, h v hvt, h' _ hvu]

theorem all_append (h : Means c (.all ms) (.all ts)) (h' : Means c (.all ns) (.all us)) :
    Means c (.all (ms ++ ns)) (.all (ts ++ us)) where
  leaves := leaves_append h.leaves h'.leaves
  value := fold_append Truth.all_append h.length_leaves h.value h'.value

theorem any_append (h : Means c (.any ms) (.any ts)) (h' : Means c (.any ns) (.any us)) :
    Means c (.any (ms ++ ns)) (.any (ts ++ us)) where
  leaves := leaves_append h.leaves h'.leaves
  value := fold_append Truth.any_append h.length_leaves h.value h'.value

variable {m : Meaning} {t : Filter.Tree Condition}

theorem all_singleton (h : Means c m t) : Means c (.all [m]) t where
  leaves := by simp [Filter.Tree.leaves, leavesOf, h.leaves]
  value v hv := by simp [Filter.Tree.value, values, Truth.all, h.value v hv]

theorem any_singleton (h : Means c m t) : Means c (.any [m]) t where
  leaves := by simp [Filter.Tree.leaves, leavesOf, h.leaves]
  value v hv := by simp [Filter.Tree.value, values, Truth.any, h.value v hv]

theorem of_all_singleton (h : Means c m t) : Means c m (.all [t]) where
  leaves := by simp [Filter.Tree.leaves, leavesOf, h.leaves]
  value v hv := by
    rw [Filter.Tree.leaves, leavesOf, leavesOf, List.append_nil] at hv
    simp [Filter.Tree.value, values, Truth.all, h.value v hv]

theorem of_any_singleton (h : Means c m t) : Means c m (.any [t]) where
  leaves := by simp [Filter.Tree.leaves, leavesOf, h.leaves]
  value v hv := by
    rw [Filter.Tree.leaves, leavesOf, leavesOf, List.append_nil] at hv
    simp [Filter.Tree.value, values, Truth.any, h.value v hv]

theorem negation (h : Means c m t) : Means c (.negation m) (.negation t) where
  leaves := h.leaves
  value v hv := by rw [Filter.Tree.value, Filter.Tree.value, h.value v hv]

end Means

end SqlFragment
