import Mathlib.Data.List.Chain
import Mathlib.Data.List.TakeWhile
import SqlFragment.Compile
import SqlFragment.Proofs.Settling
import SqlFragment.Proofs.Trees

/-!
Clauses read back: no lexeme reaches from one of their pieces to the next, so that what is compiled
has the lexemes of its segments.
-/
namespace SqlFragment

/-! ## Segments -/

namespace Segment

/-- Segments of which one is read after the other. -/
structure Tidy (xs : List Segment) : Prop where
  words : ∀ s ∈ xs, s.IsOrdinary
  apart : xs.IsChain Apart

namespace Tidy

variable {xs ys : List Segment} {w : String}

theorem nil : Tidy [] := ⟨nofun, .nil⟩

theorem singleton {s : Segment} (h : s.IsOrdinary) : Tidy [s] :=
  ⟨List.forall_mem_singleton.mpr h, .singleton s⟩

/-- A word that ends in a break may stand before anything. -/
theorem lead (h : Tidy xs) (hw : IsKeyword w) (hc : SqlFragment.Closes w.toList) :
    Tidy (.word w :: xs) where
  words := List.forall_mem_cons.mpr ⟨hw, h.words⟩
  apart := h.apart.cons fun _ _ => .inl hc

/-- A word that starts with a break may stand behind anything. -/
theorem append_word (h : Tidy xs) (hys : Tidy (.word w :: ys)) (ho : SqlFragment.Opens w.toList) :
    Tidy (xs ++ .word w :: ys) where
  words := List.forall_mem_append.mpr ⟨h.words, hys.words⟩
  apart := by
    refine h.apart.append hys.apart fun x _ y hy => ?_
    obtain rfl := Option.some.inj hy
    exact .inr ho

theorem joined {parts : List (List Segment)} (h : ∀ p ∈ parts, Tidy p) :
    Tidy (Segment.joined parts) :=
  joined_induction nil (fun hp hrest =>
    hp.append_word (hrest.lead (by decide) (by decide)) (by decide)) h

end Tidy

theorem isKeyword_emptyList (d : Dialect) (negated : Bool) : IsKeyword (emptyList d negated) := by
  cases d <;> cases negated <;> decide

theorem tidy_listSegments (d : Dialect) (negated : Bool) (first : Nat) (vs : List Value) :
    Tidy (listSegments d negated first vs) := by
  have hmark (m : Nat) (v : Value) : Tidy [.marker m v] := .singleton trivial
  unfold listSegments
  split
  · have htuples : Tidy (Segment.joined (tupleSegments first (groupsOf vs))) := by
      refine .joined fun p hp => ?_
      obtain ⟨g, -, rfl⟩ := List.mem_map.mp hp
      refine Tidy.append_word (Tidy.lead (.joined fun q hq => ?_) (by decide) (by decide))
        (.singleton (by decide : IsKeyword ")")) (by decide)
      obtain ⟨k, -, rfl⟩ := List.mem_map.mp hq
      exact hmark _ _
    split
    · exact htuples.lead (by decide) (by decide)
    · exact htuples
  · split
    · exact .singleton (isKeyword_emptyList d negated)
    · refine .joined fun q hq => ?_
      obtain ⟨k, -, rfl⟩ := List.mem_map.mp hq
      exact hmark _ _

end Segment

/-! ## Pieces -/

/-- Pieces whose segments are tidy, whatever their numbers. -/
structure Tidy (d : Dialect) (ps : List Piece) : Prop where
  words : ∀ p ∈ ps, p.IsOrdinary
  segments : ∀ n m, Segment.Tidy (segmentsFrom d n m ps)

namespace Tidy

variable {d : Dialect} {ps qs : List Piece} {w : String}

theorem nil : Tidy d [] := ⟨nofun, fun _ _ => .nil⟩

theorem singleton {p : Piece} (h : p.IsOrdinary) : Tidy d [p] where
  words := List.forall_mem_singleton.mpr h
  segments n m := by
    rw [segmentsFrom, segmentsFrom, List.append_nil]
    cases p with
    | word s => exact .singleton h
    | name s => exact .singleton trivial
    | marker label v => exact .singleton trivial
    | members label negated vs => exact Segment.tidy_listSegments d negated m vs

theorem lead (h : Tidy d ps) (hw : IsKeyword w) (hc : Closes w.toList) : Tidy d (.word w :: ps) where
  words := List.forall_mem_cons.mpr ⟨hw, h.words⟩
  segments n m := (h.segments n m).lead hw hc

theorem append_word (h : Tidy d ps) (hqs : Tidy d (.word w :: qs)) (ho : Opens w.toList) :
    Tidy d (ps ++ .word w :: qs) where
  words := List.forall_mem_append.mpr ⟨h.words, hqs.words⟩
  segments n m := by
    rw [segmentsFrom_append]
    exact (h.segments n m).append_word (hqs.segments _ _) ho

/-- Between two tidy parts stands a word that breaks off on both sides. -/
theorem glue (h : Tidy d ps) (hqs : Tidy d qs) (hw : IsKeyword w) (ho : Opens w.toList)
    (hc : Closes w.toList) : Tidy d (ps ++ .word w :: qs) :=
  h.append_word (hqs.lead hw hc) ho

theorem trail (h : Tidy d ps) (hw : IsKeyword w) (ho : Opens w.toList) :
    Tidy d (ps ++ [.word w]) :=
  h.append_word (.singleton hw) ho

theorem joinPieces {parts : List (List Piece)} (h : ∀ p ∈ parts, Tidy d p) (hw : IsKeyword w)
    (ho : Opens w.toList) (hc : Closes w.toList) :
    Tidy d (SqlFragment.joinPieces (.word w) parts) := by
  induction parts with
  | nil => exact nil
  | cons p parts ih =>
    obtain ⟨hp, hparts⟩ := List.forall_mem_cons.mp h
    cases parts with
    | nil => exact hp
    | cons q parts => exact hp.glue (ih hparts) hw ho hc

end Tidy

/-! ## Conditions -/

theorem tidy_column (d : Dialect) (c : Column) : Tidy d c.pieces :=
  have hname (s : String) : Tidy d [.name s] := .singleton trivial
  (hname c.table).glue (hname c.name) (by decide) (by decide) (by decide)

theorem tidy_lowered {d : Dialect} {ps : List Piece} (h : Tidy d ps) :
    Tidy d (Condition.lowered ps) :=
  (h.lead (by decide) (by decide)).trail (by decide) (by decide)

theorem tidy_grouped {d : Dialect} {ps : List Piece} (h : Tidy d ps) :
    Tidy d (Predicate.grouped ps) :=
  (h.lead (by decide) (by decide)).trail (by decide) (by decide)

theorem tidy_condition (d : Dialect) (c : Condition) : Tidy d (c.pieces d) := by
  have hcolumn := tidy_column d c.column
  have hmarker (label : String) (v : Value) : Tidy d [.marker label v] := .singleton trivial
  have hglue {ps qs : List Piece} (w : String) (hps : Tidy d ps) (hqs : Tidy d qs)
      (hw : IsKeyword w ∧ Opens w.toList ∧ Closes w.toList) : Tidy d (ps ++ .word w :: qs) :=
    hps.glue hqs hw.1 hw.2.1 hw.2.2
  have hno (negated : Bool) (w : String)
      (hw : ∀ no ∈ ["", "NOT "], IsKeyword (" " ++ no ++ w) ∧ Opens (" " ++ no ++ w).toList ∧
        Closes (" " ++ no ++ w).toList) {ps qs : List Piece} (hps : Tidy d ps) (hqs : Tidy d qs) :
      Tidy d (ps ++ .word (" " ++ (if negated then "NOT " else "") ++ w) :: qs) :=
    hglue _ hps hqs (hw _ (by cases negated <;> simp))
  obtain ⟨column, test⟩ := c
  cases test with
  | compare op v => exact hglue _ hcolumn (hmarker _ v) (by cases op <;> decide)
  | isNull negated =>
    refine hcolumn.trail ?_ ?_ <;> cases negated <;> decide
  | between negated low high =>
    exact hno negated "BETWEEN " (by decide) hcolumn
      (hglue " AND " (hmarker _ low) (hmarker _ high) (by decide))
  | like negated pattern => exact hno negated "LIKE " (by decide) hcolumn (hmarker _ _)
  | ilike negated pattern =>
    by_cases hd : d = .postgresql
    · simp only [Condition.pieces, if_pos hd]
      exact hno negated "ILIKE " (by decide) hcolumn (hmarker _ _)
    · simp only [Condition.pieces, if_neg hd]
      exact hno negated "LIKE " (by decide) (tidy_lowered hcolumn) (tidy_lowered (hmarker _ _))
  | member negated vs =>
    have hlist : Tidy d [.members (columnLabel column.name) negated vs] := .singleton trivial
    cases negated with
    | false =>
      have hend := (hlist.trail (w := ")") (by decide) (by decide)).lead (w := " IN (") (by decide)
        (by decide)
      exact hcolumn.append_word hend (by decide)
    | true =>
      have hend := (hlist.trail (w := "))") (by decide) (by decide)).lead (w := " NOT IN (")
        (by decide) (by decide)
      exact (hcolumn.lead (by decide) (by decide)).append_word hend (by decide)
  | equalFold negated v =>
    refine hglue _ (tidy_lowered hcolumn) (tidy_lowered (hmarker _ v)) ?_
    cases negated <;> decide

/-! ## Predicates -/

namespace Predicate

theorem conjunctPieces_eq (d : Dialect) (ps : List Predicate) :
    conjunctPieces d ps = ps.map (conjunctText d) := by
  induction ps with
  | nil => rfl
  | cons p ps ih => cases p <;> simp only [conjunctPieces, conjunctText, pieces, ih, List.map_cons]

theorem disjunctPieces_eq (d : Dialect) (ps : List Predicate) :
    disjunctPieces d ps = ps.map (pieces d) := by
  induction ps with
  | nil => rfl
  | cons p ps ih => rw [disjunctPieces, ih, List.map_cons]

end Predicate

section Predicates

variable (d : Dialect)

theorem tidy_conjunctText {p : Predicate} (h : Tidy d (p.pieces d)) : Tidy d (p.conjunctText d) := by
  cases p with
  | any ps => exact tidy_grouped h
  | _ => exact h

mutual

theorem tidy_predicate : ∀ p : Predicate, Tidy d (p.pieces d)
  | .condition c => by
    rw [Predicate.pieces]
    exact tidy_condition d c
  | .all ps => by
    rw [Predicate.pieces, Predicate.conjunctPieces_eq]
    refine .joinPieces (fun part hpart => ?_) (by decide) (by decide) (by decide)
    obtain ⟨p, hp, rfl⟩ := List.mem_map.mp hpart
    exact tidy_conjunctText d (tidy_predicates ps p hp)
  | .any ps => by
    rw [Predicate.pieces, Predicate.disjunctPieces_eq]
    refine .joinPieces (fun part hpart => ?_) (by decide) (by decide) (by decide)
    obtain ⟨p, hp, rfl⟩ := List.mem_map.mp hpart
    exact tidy_predicates ps p hp
  | .negation p => by
    rw [Predicate.pieces]
    exact (tidy_grouped (tidy_predicate p)).lead (by decide) (by decide)

theorem tidy_predicates : ∀ ps : List Predicate, ∀ p ∈ ps, Tidy d (p.pieces d)
  | [] => nofun
  | p :: ps => List.forall_mem_cons.mpr ⟨tidy_predicate p, tidy_predicates ps⟩

end

theorem mem_joinPieces {w q : Piece} {parts : List (List Piece)} {part : List Piece}
    (hpart : part ∈ parts) (h : q ∈ part) : q ∈ joinPieces w parts := by
  induction parts with
  | nil => contradiction
  | cons p parts ih =>
    cases parts with
    | nil =>
      obtain rfl := List.mem_singleton.mp hpart
      exact h
    | cons r parts =>
      rcases List.mem_cons.mp hpart with rfl | hpart
      · exact List.mem_append_left _ h
      · exact List.mem_append_right _ (List.mem_cons_of_mem _ (ih hpart))

theorem eq_or_mem_of_joinPieces {w p : Piece} {parts : List (List Piece)}
    (h : p ∈ joinPieces w parts) : p = w ∨ ∃ part ∈ parts, p ∈ part := by
  induction parts with
  | nil => contradiction
  | cons part parts ih =>
    cases parts with
    | nil => exact .inr ⟨part, List.mem_cons_self, h⟩
    | cons part' parts =>
      rcases List.mem_append.mp h with h | h
      · exact .inr ⟨part, List.mem_cons_self, h⟩
      · rcases List.mem_cons.mp h with rfl | h
        · exact .inl rfl
        · obtain hw | ⟨q, hq, hp⟩ := ih h
          · exact .inl hw
          · exact .inr ⟨q, List.mem_cons_of_mem _ hq, hp⟩

theorem name_mem_condition (c : Condition) : .name c.column.table ∈ c.pieces d := by
  have hcolumn : .name c.column.table ∈ c.column.pieces := List.mem_cons_self
  have hlowered {q : Piece} {ps : List Piece} (h : q ∈ ps) : q ∈ Condition.lowered ps :=
    List.mem_append_left _ (List.mem_cons_of_mem _ h)
  obtain ⟨column, test⟩ := c
  cases test with
  | compare | isNull | between | like => exact List.mem_append_left _ hcolumn
  | ilike negated pattern =>
    simp only [Condition.pieces]
    split
    · exact List.mem_append_left _ hcolumn
    · exact List.mem_append_left _ (hlowered hcolumn)
  | member negated vs =>
    cases negated with
    | false => exact List.mem_append_left _ hcolumn
    | true => exact List.mem_append_left _ (List.mem_cons_of_mem _ hcolumn)
  | equalFold => exact List.mem_append_left _ (hlowered hcolumn)

theorem mem_conjunctText {p : Predicate} {q : Piece} (h : q ∈ p.pieces d) : q ∈ p.conjunctText d := by
  cases p with
  | any ps => exact List.mem_append_left _ (List.mem_cons_of_mem _ h)
  | _ => exact h

/-- A predicate is about a column. -/
theorem exists_name_pieces : ∀ p : Predicate, p.IsFull → ∃ s, .name s ∈ p.pieces d
  | .condition c, _ => by
    rw [Predicate.pieces]
    exact ⟨_, name_mem_condition d c⟩
  | .all (p :: ps), h => by
    obtain ⟨s, hs⟩ := exists_name_pieces p h.2.1
    rw [Predicate.pieces, Predicate.conjunctPieces_eq]
    exact ⟨s, mem_joinPieces List.mem_cons_self (mem_conjunctText d hs)⟩
  | .any (p :: ps), h => by
    obtain ⟨s, hs⟩ := exists_name_pieces p h.2.1
    rw [Predicate.pieces, Predicate.disjunctPieces_eq]
    exact ⟨s, mem_joinPieces List.mem_cons_self hs⟩
  | .negation p, h => by
    obtain ⟨s, hs⟩ := exists_name_pieces p h
    rw [Predicate.pieces]
    exact ⟨s, List.mem_cons_of_mem _ (List.mem_append_left _ (List.mem_cons_of_mem _ hs))⟩
  | .all [], h | .any [], h => absurd rfl h.1

end Predicates

/-! ## Orders and ranges -/

/-- The words in sorts and in ranges of rows. -/
def tailWords : List String :=
  [" ORDER BY ", ", ", ".", " ASC", " DESC", "\n LIMIT ", " \n LIMIT ", " OFFSET ", "-1 OFFSET ",
    "ALL OFFSET ", ", 18446744073709551615"]

/-- Whether a piece can stand in a sort or in a range of rows. -/
def Piece.IsTail : Piece → Prop
  | .word w => w ∈ tailWords
  | .name _ | .marker _ _ => True
  | .members _ _ _ => False

namespace ClauseCompiler

variable {c : ClauseCompiler} {k : Criteria}

/-- The predicate of criteria, and the clauses behind it. -/
def parts (c : ClauseCompiler) (k : Criteria) : Except Error (Option Predicate × List Piece) := do
  let filter ← c.predicate k.filter
  let sort ← c.sortPieces k.sort
  let limit ← rowCount "limit" k.limit
  let skip ← rowCount "skip" k.skip
  return (filter, sort ++ rangePieces c.dialect skip limit)

theorem clauses_eq (c : ClauseCompiler) (k : Criteria) :
    c.clauses k = (c.parts k).map fun r => (c.tables r.1, c.filterPieces r.1 ++ r.2) := by
  unfold clauses parts
  cases c.predicate k.filter with
  | error e => rfl
  | ok filter =>
    cases c.sortPieces k.sort with
    | error e => rfl
    | ok sort =>
      cases rowCount "limit" k.limit with
      | error e => rfl
      | ok limit =>
        cases rowCount "skip" k.skip with
        | error e => rfl
        | ok skip => simp [pure, Except.pure, Except.map, List.append_assoc]

/-- Whether pieces are nothing or start with a word of a clause behind the filter. -/
def StartsClause (d : Dialect) (ps : List Piece) : Prop :=
  ps = [] ∨ ∃ w qs, (w = " ORDER BY " ∨ w = limitWord d) ∧ ps = .word w :: qs

theorem sortTerm_eq_ok {key direction : Value} {ps : List Piece}
    (h : c.sortTerm key direction = .ok ps) :
    ∃ (name : String) (column : Column) (d : SortDirection), key = .text name ∧
      c.catalog.resolve c.table name = .ok column ∧
        ps = column.pieces ++ [.word (" " ++ d.keyword)] := by
  unfold sortTerm at h
  split at h
  · simp only [bind_eq_ok, pure_eq_ok] at h
    obtain ⟨name, hname, column, hcolumn, d, -, rfl⟩ := h
    obtain rfl := Except.ok.inj hname
    exact ⟨_, column, d, rfl, hcolumn, rfl⟩
  · contradiction
  · contradiction

theorem sortPieces_eq_ok {sort : Value} {ps : List Piece} (h : c.sortPieces sort = .ok ps) :
    ps = [] ∨ ∃ terms, ps = .word " ORDER BY " :: joinPieces (.word ", ") terms ∧
      ∀ t ∈ terms, ∃ (name : String) (column : Column) (d : SortDirection),
        c.catalog.resolve c.table name = .ok column ∧
          t = column.pieces ++ [.word (" " ++ d.keyword)] := by
  unfold sortPieces at h
  split at h
  · exact .inl (Except.ok.inj h).symm
  · simp only [bind_eq_ok, pure_eq_ok] at h
    obtain ⟨es, -, terms, hterms, rfl⟩ := h
    refine .inr ⟨terms, rfl, fun t ht => ?_⟩
    obtain ⟨e, -, he⟩ := exists_of_mem_mapM hterms t ht
    obtain ⟨name, column, d, -, hcolumn, rfl⟩ := sortTerm_eq_ok he
    exact ⟨name, column, d, hcolumn, rfl⟩

theorem tidy_sortPieces {sort : Value} {ps : List Piece} (h : c.sortPieces sort = .ok ps) :
    Tidy c.dialect ps ∧ StartsClause c.dialect ps := by
  rcases sortPieces_eq_ok h with rfl | ⟨terms, rfl, hterms⟩
  · exact ⟨.nil, .inl rfl⟩
  · refine ⟨?_, .inr ⟨_, _, .inl rfl, rfl⟩⟩
    refine (Tidy.joinPieces (fun t ht => ?_) (by decide) (by decide) (by decide)).lead (by decide)
      (by decide)
    obtain ⟨-, column, d, -, rfl⟩ := hterms t ht
    refine (tidy_column c.dialect column).trail ?_ ?_ <;> cases d <;> decide

theorem limitWord_facts (d : Dialect) :
    IsKeyword (limitWord d) ∧ Opens (limitWord d).toList ∧ Closes (limitWord d).toList := by
  cases d <;> decide

theorem tidy_rangePieces (d : Dialect) (skip limit : Option Value) :
    Tidy d (rangePieces d skip limit) ∧ StartsClause d (rangePieces d skip limit) := by
  have hmarker (v : Value) : Tidy d [.marker valueLabel v] := .singleton trivial
  obtain ⟨hw, -, hc⟩ := limitWord_facts d
  have hlead {ps : List Piece} (h : Tidy d ps) : Tidy d (.word (limitWord d) :: ps) ∧
      StartsClause d (.word (limitWord d) :: ps) :=
    ⟨h.lead hw hc, .inr ⟨_, _, .inr rfl, rfl⟩⟩
  have hoffset (a b : Value) :
      Tidy d [.marker valueLabel a, .word " OFFSET ", .marker valueLabel b] :=
    (hmarker a).glue (hmarker b) (by decide) (by decide) (by decide)
  unfold rangePieces
  split
  · exact ⟨.nil, .inl rfl⟩
  · split
    · exact hlead (hoffset _ _)
    · exact hlead (hmarker _)
  · split
    · exact hlead ((hmarker _).lead (by decide) (by decide))
    · exact hlead ((hmarker _).lead (by decide) (by decide))
    · exact hlead (hoffset _ _)
    · exact hlead ((hmarker _).trail (by decide) (by decide))
  · split
    · exact hlead ((hmarker _).glue (hmarker _) (by decide) (by decide) (by decide))
    · exact hlead (hoffset _ _)

theorem StartsClause.append {d : Dialect} {ps qs : List Piece} (hp : StartsClause d ps)
    (hq : StartsClause d qs) : StartsClause d (ps ++ qs) := by
  rcases hp with rfl | ⟨w, ps, hw, rfl⟩
  · exact hq
  · exact .inr ⟨w, ps ++ qs, hw, rfl⟩

/-- What starts a clause may stand behind anything. -/
theorem tidy_append {d : Dialect} {ps qs : List Piece} (hp : Tidy d ps) (hq : Tidy d qs)
    (hs : StartsClause d qs) : Tidy d (ps ++ qs) := by
  rcases hs with rfl | ⟨w, qs, hw, rfl⟩
  · rwa [List.append_nil]
  · refine hp.append_word hq ?_
    rcases hw with rfl | rfl
    · decide
    · exact (limitWord_facts d).2.1

/-- Behind a filter stand an order and a range of rows. -/
theorem tail_of_parts {p? : Option Predicate} {tail : List Piece}
    (h : c.parts k = .ok (p?, tail)) : ∃ sort skip limit, c.sortPieces k.sort = .ok sort ∧
      tail = sort ++ rangePieces c.dialect skip limit := by
  unfold parts at h
  simp only [bind_eq_ok, pure_eq_ok, Prod.mk.injEq] at h
  obtain ⟨_, _, sort, hsort, limit, _, skip, _, -, rfl⟩ := h
  exact ⟨sort, skip, limit, hsort, rfl⟩

theorem tidy_tail {p? : Option Predicate} {tail : List Piece} (h : c.parts k = .ok (p?, tail)) :
    Tidy c.dialect tail ∧ StartsClause c.dialect tail := by
  obtain ⟨sort, skip, limit, hsort, rfl⟩ := tail_of_parts h
  obtain ⟨hsort, hsortStart⟩ := tidy_sortPieces hsort
  obtain ⟨hrange, hrangeStart⟩ := tidy_rangePieces c.dialect skip limit
  exact ⟨tidy_append hsort hrange hrangeStart, hsortStart.append hrangeStart⟩

/-- Behind a filter stand words of sorts and ranges, names and markers. -/
theorem isTail_of_parts {p? : Option Predicate} {tail : List Piece}
    (h : c.parts k = .ok (p?, tail)) : ∀ p ∈ tail, p.IsTail := by
  obtain ⟨sort, skip, limit, hsort, rfl⟩ := tail_of_parts h
  refine List.forall_mem_append.mpr ⟨?_, ?_⟩
  · rcases sortPieces_eq_ok hsort with rfl | ⟨terms, rfl, hterms⟩
    · exact nofun
    · refine List.forall_mem_cons.mpr ⟨(by decide : " ORDER BY " ∈ tailWords), fun p hp => ?_⟩
      rcases eq_or_mem_of_joinPieces hp with rfl | ⟨t, ht, hp⟩
      · exact (by decide : ", " ∈ tailWords)
      · obtain ⟨-, column, d, -, rfl⟩ := hterms t ht
        rcases List.mem_append.mp hp with hp | hp
        · simp only [Column.pieces, List.mem_cons, List.not_mem_nil, or_false] at hp
          rcases hp with rfl | rfl | rfl
          · trivial
          · exact (by decide : "." ∈ tailWords)
          · trivial
        · obtain rfl := List.mem_singleton.mp hp
          cases d
          · exact (by decide : " ASC" ∈ tailWords)
          · exact (by decide : " DESC" ∈ tailWords)
  · cases limit <;> cases skip <;> cases c.dialect <;>
      simp [rangePieces, limitWord, Piece.IsTail, tailWords]

/-- The pieces of a predicate and of the clauses behind it, without the word before them. -/
def body (d : Dialect) (p? : Option Predicate) (tail : List Piece) : List Piece :=
  (p?.map (Predicate.conjunctText d)).getD [] ++ tail

theorem tidy_body {p? : Option Predicate} {tail : List Piece} (h : c.parts k = .ok (p?, tail)) :
    Tidy c.dialect (body c.dialect p? tail) := by
  obtain ⟨htail, hstart⟩ := tidy_tail h
  cases p? with
  | none => exact htail
  | some p =>
    exact tidy_append (tidy_conjunctText c.dialect (tidy_predicate c.dialect p)) htail hstart

end ClauseCompiler

/-! ## Pieces that bind nothing -/

section Silent

variable {d : Dialect} {hs ps : List Piece} (h : ∀ p ∈ hs, p.label? = none)
include h

theorem silent {p : Piece} (hp : p ∈ hs) :
    p.singles = [] ∧ p.listed = [] ∧ p.members? = none ∧ p.isMarker = false := by
  have := h p hp
  cases p with
  | word _ | name _ => exact ⟨rfl, rfl, rfl, rfl⟩
  | marker _ _ | members _ _ _ => contradiction

theorem flatMap_singles_silent : hs.flatMap Piece.singles = [] :=
  List.flatMap_eq_nil_iff.mpr fun _ hp => (silent h hp).1

theorem flatMap_listed_silent : hs.flatMap Piece.listed = [] :=
  List.flatMap_eq_nil_iff.mpr fun _ hp => (silent h hp).2.1

theorem segmentsOf_silent : segmentsOf d (hs ++ ps) =
    segmentsFrom d 1 (firstListed ps) hs ++ segmentsOf d ps := by
  have hfirst : firstListed (hs ++ ps) = firstListed ps := by
    rw [firstListed, List.countP_append, List.countP_eq_zero.mpr fun p hp => by
      simp [(silent h hp).2.2.2], Nat.zero_add]
    rfl
  rw [segmentsOf, hfirst, segmentsFrom_append, flatMap_singles_silent h, flatMap_listed_silent h]
  rfl

theorem valuesOf_silent (style : MarkerStyle) : valuesOf style (hs ++ ps) = valuesOf style ps := by
  have hall : (hs.flatMap fun p => p.singles ++ p.listed) = [] :=
    List.flatMap_eq_nil_iff.mpr fun p hp => by simp [silent h hp]
  cases style <;>
    simp [valuesOf, List.flatMap_append, flatMap_singles_silent h, flatMap_listed_silent h, hall]

theorem slotNames_silent : slotNames d (hs ++ ps) = slotNames d ps := by
  have hlabels : hs.filterMap Piece.label? = [] := List.filterMap_eq_nil_iff.mpr h
  rw [slotNames, List.filterMap_append, hlabels, List.nil_append]
  rfl

theorem members_silent : (hs ++ ps).filterMap Piece.members? = ps.filterMap Piece.members? := by
  have hmembers : hs.filterMap Piece.members? = [] :=
    List.filterMap_eq_nil_iff.mpr fun p hp => (silent h hp).2.2.1
  rw [List.filterMap_append, hmembers, List.nil_append]

end Silent

/-! ## The line of a statement -/

theorem collapseFrom_true (cs : List Char) : Text.collapseFrom true cs =
    if (cs.dropWhile Text.isBlank).isEmpty then [] else ' ' :: Text.collapseChars cs := by
  induction cs with
  | nil => rfl
  | cons c cs ih =>
    by_cases hc : Text.isBlank c = true
    · simp only [Text.collapseFrom, hc, if_true, ih, Text.collapseChars, List.dropWhile_cons]
    · simp [Text.collapseFrom, hc, Text.collapseChars]

theorem dropWhile_isEmpty {cs : List Char} (h : ∃ b ∈ cs, Text.isBlank b = false) :
    (cs.dropWhile Text.isBlank).isEmpty = false := by
  obtain ⟨b, hb, hblank⟩ := h
  rw [List.isEmpty_eq_false_iff]
  intro hnil
  have := List.dropWhile_eq_nil_iff.mp hnil b hb
  simp [hblank] at this

/-- The word before a filter is cut off. -/
theorem dropWhere_filter {cs : List Char} (h : ∃ c ∈ cs, Text.isBlank c = false) :
    dropWhere (Text.collapseChars (" \nWHERE ".toList ++ cs)) = Text.collapseChars cs := by
  have hline : Text.collapseChars (" \nWHERE ".toList ++ cs) =
      "WHERE".toList ++ Text.collapseFrom true cs := by
    simp [Text.collapseChars, Text.collapseFrom, Text.isBlank]
  rw [hline, collapseFrom_true, dropWhile_isEmpty h]
  simp [dropWhere]

theorem dropWhere_of_ne {c : Char} {cs : List Char} (h : c ≠ 'W') : dropWhere (c :: cs) = c :: cs := by
  simp [dropWhere, Ne.symm h]

namespace ClauseCompiler

variable {c : ClauseCompiler} {k : Criteria}

/-! ## Compiled criteria -/

/-- Whether the statement for criteria is read as it is written. -/
def IsLegible (c : ClauseCompiler) (k : Criteria) : Prop :=
  ∀ r, c.clauses k = .ok r → SqlFragment.IsLegible c.dialect c.style (headPieces r.1 ++ r.2)

/-- Whether every list of a statement has a spelling, and every key is spelled as it is. -/
structure Spellable (d : Dialect) (ps : List Piece) : Prop where
  names : ∀ n ∈ slotNames d ps, spelled n = n
  lists : ∀ vs ∈ ps.filterMap Piece.members?, CanSpell vs

theorem chars_head (c : ClauseCompiler) (tables : List String) (n m : Nat) :
    (segmentsFrom c.dialect n m (headPieces tables)).flatMap (Segment.chars c.dialect c.style) =
      (headWord ++ Value.commas (tables.map (c.dialect.quoting c.style).quote)).toList := by
  have hnames (tables : List String) :
      (segmentsFrom c.dialect n m (joinPieces (.word ", ") (tables.map fun t => [.name t]))).flatMap
        (Segment.chars c.dialect c.style) =
      (List.intersperse ", ".toList (tables.map fun t =>
        ((c.dialect.quoting c.style).quote t).toList)).flatten := by
    induction tables with
    | nil => rfl
    | cons t tables ih =>
      cases tables with
      | nil => simp [joinPieces, segmentsFrom, Piece.segments, Segment.chars, Quoting.quote]
      | cons u tables =>
        simp_all [joinPieces, segmentsFrom, Piece.segments, Segment.chars, Quoting.quote,
          Piece.singles, Piece.listed]
  rw [Value.commas, String.toList_append, String.toList_intercalate, List.map_map]
  exact congrArg (headWord.toList ++ ·) (hnames tables)

/-- The statement before its clauses binds nothing. -/
theorem mem_headPieces {tables : List String} {p : Piece} (h : p ∈ headPieces tables) :
    p = .word headWord ∨ p = .word ", " ∨ ∃ t ∈ tables, p = .name t := by
  rcases List.mem_cons.mp h with rfl | h
  · exact .inl rfl
  · right
    rcases eq_or_mem_of_joinPieces h with rfl | ⟨part, hpart, hp⟩
    · exact .inl rfl
    · obtain ⟨t, ht, rfl⟩ := List.mem_map.mp hpart
      exact .inr ⟨t, ht, List.mem_singleton.mp hp⟩

theorem label_headPieces {tables : List String} {p : Piece} (h : p ∈ headPieces tables) :
    p.label? = none := by
  rcases mem_headPieces h with rfl | rfl | ⟨t, -, rfl⟩ <;> rfl

/-- An empty filter has no predicate. Any other has a tree, and its predicate is made of it. -/
theorem predicate_cases {filter : Value} {p? : Option Predicate} (h : c.predicate filter = .ok p?) :
    ∃ node, Filter.toNode filter = .ok node ∧ (node.isTruthy = false ∧ p? = none ∨
      node.isTruthy = true ∧ ∃ tree, Filter.Tree.read c.condition (.root "where") node = .ok tree ∧
        p? = some (.ofTree tree)) := by
  unfold predicate at h
  simp only [bind_eq_ok] at h
  obtain ⟨node, hnode, h⟩ := h
  refine ⟨node, hnode, ?_⟩
  split at h
  · rename_i hempty
    obtain rfl := pure_eq_ok.mp h
    exact .inl ⟨by simpa using hempty, rfl⟩
  · rename_i hsome
    simp only [bind_eq_ok, pure_eq_ok] at h
    obtain ⟨tree, htree, rfl⟩ := h
    exact .inr ⟨by simpa using hsome, tree, htree, rfl⟩

theorem predicate_eq_ok {filter : Value} {p : Predicate} (h : c.predicate filter = .ok (some p)) :
    ∃ node tree, Filter.toNode filter = .ok node ∧ node.isTruthy = true ∧
      Filter.Tree.read c.condition (.root "where") node = .ok tree ∧ p = .ofTree tree := by
  obtain ⟨node, hnode, ⟨-, hnone⟩ | ⟨hsome, tree, htree, hp⟩⟩ := predicate_cases h
  · cases hnone
  · exact ⟨node, tree, hnode, hsome, htree, Option.some.inj hp⟩

/-- A condition is about the column that its leaf means. -/
theorem resolve_of_condition {l : Filter.Leaf} {x : Condition} (h : c.condition l = .ok x) :
    c.catalog.resolve c.table l.field = .ok x.column := by
  unfold condition at h
  simp only [bind_eq_ok, pure_eq_ok] at h
  obtain ⟨column, hcolumn, _, -, rfl⟩ := h
  exact hcolumn

theorem predicate_of_parts {p? : Option Predicate} {tail : List Piece}
    (h : c.parts k = .ok (p?, tail)) : c.predicate k.filter = .ok p? := by
  unfold parts at h
  simp only [bind_eq_ok, pure_eq_ok, Prod.mk.injEq] at h
  obtain ⟨p?, hp, _, _, _, _, _, _, rfl, -⟩ := h
  exact hp

theorem isFull_of_parts {p : Predicate} {tail : List Piece} (h : c.parts k = .ok (some p, tail)) :
    p.IsFull := by
  obtain ⟨node, tree, -, -, htree, rfl⟩ := predicate_eq_ok (predicate_of_parts h)
  exact Predicate.isFull_ofTree tree (Filter.Tree.isFull_read htree)

/-- The text of pieces on one line. -/
def line (c : ClauseCompiler) (ps : List Piece) : String :=
  String.ofList (Text.collapseChars
    ((segmentsOf c.dialect ps).flatMap (Segment.chars c.dialect c.style)))

/-- A text with its markers as they are in the end. -/
def restyled (c : ClauseCompiler) (s : String) : Except Fault String :=
  if c.style = .dollar then renumber c.start s else .ok s

/-- What stands before the text of criteria, and binds nothing. -/
def lead (c : ClauseCompiler) (p? : Option Predicate) : List Piece :=
  headPieces (c.tables p?) ++ if p?.isSome then [.word " \nWHERE "] else []

theorem pieces_eq (p? : Option Predicate) (tail : List Piece) :
    headPieces (c.tables p?) ++ (c.filterPieces p? ++ tail) =
      c.lead p? ++ body c.dialect p? tail := by
  cases p? with
  | none => simp [lead, filterPieces, body]
  | some p => simp [lead, filterPieces, body]

theorem label_lead {p? : Option Predicate} {p : Piece} (h : p ∈ c.lead p?) : p.label? = none := by
  rcases List.mem_append.mp h with h | h
  · exact label_headPieces h
  · split at h
    · obtain rfl := List.mem_singleton.mp h
      rfl
    · contradiction

theorem name_mem_segmentsFrom {d : Dialect} {n m : Nat} {ps : List Piece} {s : String}
    (h : .name s ∈ ps) : .name s ∈ segmentsFrom d n m ps := by
  induction ps generalizing n m with
  | nil => contradiction
  | cons p ps ih =>
    rcases List.mem_cons.mp h with rfl | h
    · exact List.mem_append_left _ List.mem_cons_self
    · exact List.mem_append_right _ (ih h)

/-- A filter has more than white space. -/
theorem exists_not_blank {p : Predicate} (h : p.IsFull) (tail : List Piece) :
    ∃ b ∈ (segmentsOf c.dialect (body c.dialect (some p) tail)).flatMap
      (Segment.chars c.dialect c.style), Text.isBlank b = false := by
  obtain ⟨s, hs⟩ := exists_name_pieces c.dialect p h
  have hmem : .name s ∈ segmentsOf c.dialect (body c.dialect (some p) tail) :=
    name_mem_segmentsFrom (List.mem_append_left _ (mem_conjunctText c.dialect hs))
  refine ⟨c.dialect.mark, List.mem_flatMap.mpr ⟨_, hmem, List.mem_cons_self⟩, ?_⟩
  have := c.dialect.isBreak_mark
  simp_all [isBreak]

/-- Clauses without a filter do not start like one. -/
theorem dropWhere_tail {d : Dialect} {tail : List Piece} (h : StartsClause d tail)
    (style : MarkerStyle) :
    dropWhere (Text.collapseChars ((segmentsOf d tail).flatMap (Segment.chars d style))) =
      Text.collapseChars ((segmentsOf d tail).flatMap (Segment.chars d style)) := by
  have hword {w : String} (b : Char) (cs : List Char)
      (hw : (w.toList.dropWhile Text.isBlank).head? = some b) (hb : Text.isBlank b = false)
      (hne : b ≠ 'W') :
      dropWhere (Text.collapseChars (w.toList ++ cs)) = Text.collapseChars (w.toList ++ cs) := by
    obtain ⟨bs, hw⟩ := List.head?_eq_some_iff.mp hw
    have hline : Text.collapseChars (w.toList ++ cs) = b :: Text.collapseFrom false (bs ++ cs) := by
      rw [Text.collapseChars, List.dropWhile_append, hw]
      simp [Text.collapseFrom, hb]
    rw [hline]
    exact dropWhere_of_ne hne
  rcases h with rfl | ⟨w, qs, hw, rfl⟩
  · rfl
  · change dropWhere (Text.collapseChars (w.toList ++ _)) = Text.collapseChars (w.toList ++ _)
    rcases hw with rfl | rfl
    · exact hword 'O' _ (by decide) (by decide) (by decide)
    · cases d <;> exact hword 'L' _ (by decide) (by decide) (by decide)

theorem dropWhere_body {p? : Option Predicate} {tail : List Piece}
    (h : c.parts k = .ok (p?, tail)) :
    dropWhere (Text.collapseChars (((segmentsOf c.dialect (c.lead p? ++ body c.dialect p? tail)).flatMap
      (Segment.chars c.dialect c.style)).drop (c.headLength (c.tables p?)))) =
      (c.line (body c.dialect p? tail)).toList := by
  have hlength (n m : Nat) : ((segmentsFrom c.dialect n m (headPieces (c.tables p?))).flatMap
      (Segment.chars c.dialect c.style)).length = c.headLength (c.tables p?) := by
    rw [chars_head, String.length_toList]
    rfl
  rw [segmentsOf_silent fun p hp => label_lead hp, lead, segmentsFrom_append, List.flatMap_append,
    List.flatMap_append, List.append_assoc, List.drop_append_of_le_length (by rw [hlength]),
    List.drop_of_length_le (by rw [hlength]), List.nil_append, line, String.toList_ofList]
  cases p? with
  | none => exact dropWhere_tail (tidy_tail h).2 c.style
  | some p =>
    exact dropWhere_filter (exists_not_blank (isFull_of_parts h) tail)

theorem isOrdinary_lead {p? : Option Predicate} {p : Piece} (h : p ∈ c.lead p?) : p.IsOrdinary := by
  rcases List.mem_append.mp h with h | h
  · rcases mem_headPieces h with rfl | rfl | ⟨t, -, rfl⟩
    · exact (by decide : IsKeyword headWord)
    · exact (by decide : IsKeyword ", ")
    · trivial
  · split at h
    · obtain rfl := List.mem_singleton.mp h
      exact (by decide : IsKeyword " \nWHERE ")
    · contradiction

theorem settle_eq_ok {w₀ w : Written} {head : Nat} :
    w₀.settle c.style c.start head = .ok w ↔
      c.restyled (String.ofList (dropWhere (Text.collapseChars (w₀.text.toList.drop head)))) =
        .ok w.text ∧ w.values = w₀.values := by
  obtain ⟨text, values⟩ := w
  unfold Written.settle restyled
  by_cases hstyle : c.style = .dollar
  · simp only [hstyle, if_true, map_eq_ok, Written.mk.injEq]
    constructor
    · rintro ⟨text', h, rfl, rfl⟩
      exact ⟨h, rfl⟩
    · rintro ⟨h, rfl⟩
      exact ⟨text, h, rfl, rfl⟩
  · simp only [if_neg hstyle, Except.ok.injEq, Written.mk.injEq]
    exact and_congr_right fun _ => eq_comm

/-- Statements with plain names are read as they are written. -/
theorem isLegible_of_plain
    (hplain : ∀ r, c.clauses k = .ok r → ∀ p ∈ headPieces r.1 ++ r.2, p.IsPlain) :
    c.IsLegible k := by
  intro r hr
  refine SqlFragment.isLegible_of_plain (hplain r hr) ?_
  rw [clauses_eq, map_eq_ok] at hr
  obtain ⟨⟨p?, tail⟩, hparts, rfl⟩ := hr
  rw [pieces_eq]
  exact List.forall_mem_append.mpr ⟨fun p hp => isOrdinary_lead hp, (tidy_body hparts).words⟩

/-- When legible criteria are compiled, and what is compiled for them. -/
theorem compile_eq_ok (hlegible : c.IsLegible k) {w : Written} : c.compile k = .ok w ↔
    ∃ p? tail, c.parts k = .ok (p?, tail) ∧ Spellable c.dialect (body c.dialect p? tail) ∧
      c.restyled (c.line (body c.dialect p? tail)) = .ok w.text ∧
      w.values = valuesOf c.style (body c.dialect p? tail) := by
  unfold compile
  simp only [bind_eq_ok, ofFault_eq_ok, clauses_eq, map_eq_ok]
  -- what leads to the body has no names to look up and binds nothing
  have hwrite {p? : Option Predicate} {tail : List Piece} (h : c.parts k = .ok (p?, tail))
      {w₀ : Written} : write c.dialect c.style
        (headPieces (c.tables p?) ++ (c.filterPieces p? ++ tail)) = .ok w₀ ↔
      Spellable c.dialect (body c.dialect p? tail) ∧
        w₀ = written c.dialect c.style (c.lead p? ++ body c.dialect p? tail) := by
    have hps := hlegible (c.tables p?, c.filterPieces p? ++ tail) (by rw [clauses_eq, h]; rfl)
    rw [pieces_eq] at hps ⊢
    rw [write_eq_ok hps, slotNames_silent fun p hp => label_lead hp,
      members_silent fun p hp => label_lead hp, ← and_assoc]
    exact and_congr_left fun _ => ⟨fun h => ⟨h.1, h.2⟩, fun h => ⟨h.1, h.2⟩⟩
  constructor
  · rintro ⟨_, ⟨⟨p?, tail⟩, hparts, rfl⟩, w₀, hw₀, hw⟩
    obtain ⟨hspell, rfl⟩ := (hwrite hparts).mp hw₀
    obtain ⟨htext, hvalues⟩ := settle_eq_ok.mp hw
    refine ⟨p?, tail, hparts, hspell, ?_, ?_⟩
    · rw [written, String.toList_ofList, dropWhere_body hparts, String.ofList_toList] at htext
      exact htext
    · rw [hvalues, written, valuesOf_silent fun p hp => label_lead hp]
  · rintro ⟨p?, tail, hparts, hspell, htext, hvalues⟩
    refine ⟨_, ⟨⟨p?, tail⟩, hparts, rfl⟩, _, (hwrite hparts).mpr ⟨hspell, rfl⟩, ?_⟩
    refine settle_eq_ok.mpr ⟨?_, ?_⟩
    · rw [written, String.toList_ofList, dropWhere_body hparts, String.ofList_toList]
      exact htext
    · rw [hvalues, written, valuesOf_silent fun p hp => label_lead hp]

end ClauseCompiler

end SqlFragment
