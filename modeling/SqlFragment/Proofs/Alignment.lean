import Mathlib.Data.List.Perm.Subperm
import SqlFragment.Proofs.Fragments

/-!
Markers with numbers in a whole compilation. The markers of each fragment have the numbers of its own
values, which are counted on from one fragment to the next.
-/
namespace SqlFragment

/-! ## Consecutive numbers -/

/-- The first `n` numbers from `start` on. -/
def consecutive (start : Int) (n : Nat) : List Int := (List.range n).map fun i : Nat => start + i

theorem mem_consecutive {start i : Int} {n : Nat} :
    i ∈ consecutive start n ↔ start ≤ i ∧ i < start + n := by
  rw [consecutive, List.mem_map]
  constructor
  · rintro ⟨j, hj, rfl⟩
    have := List.mem_range.mp hj
    omega
  · intro h
    exact ⟨(i - start).toNat, List.mem_range.mpr (by omega), by omega⟩

theorem length_consecutive (start : Int) (n : Nat) : (consecutive start n).length = n := by
  simp [consecutive]

theorem nodup_consecutive (start : Int) (n : Nat) : (consecutive start n).Nodup :=
  List.nodup_range.map fun i j (h : start + (i : Int) = start + j) => by omega

/-- As many numbers as `n`, all of them among the first `n` from `start` on. -/
structure Counts (start : Int) (n : Nat) (is : List Int) : Prop where
  length : is.length = n
  within : ∀ i ∈ is, start ≤ i ∧ i < start + n

namespace Counts

variable {start : Int} {n m : Nat} {is js : List Int}

theorem nil : Counts start 0 [] := ⟨rfl, nofun⟩

/-- All numbers occur when none occurs twice. -/
theorem perm_iff (h : Counts start n is) : is.Perm (consecutive start n) ↔ is.Nodup := by
  constructor
  · exact fun hperm => hperm.nodup_iff.mpr (nodup_consecutive start n)
  · intro hnodup
    have hsub : is ⊆ consecutive start n := fun i hi => mem_consecutive.mpr (h.within i hi)
    refine (hnodup.subperm hsub).perm_of_length_le ?_
    rw [length_consecutive, h.length]

theorem append (h : Counts start n is) (h' : Counts (start + n) m js) :
    Counts start (n + m) (is ++ js) where
  length := by rw [List.length_append, h.length, h'.length]
  within := by
    refine List.forall_mem_append.mpr ⟨fun i hi => ?_, fun i hi => ?_⟩
    · have := h.within i hi
      omega
    · have := h'.within i hi
      omega

/-- Numbers counted on are other numbers. -/
theorem nodup_append_iff (h : Counts start n is) (h' : Counts (start + n) m js) :
    (is ++ js).Nodup ↔ is.Nodup ∧ js.Nodup := by
  rw [List.nodup_append]
  refine ⟨fun hall => ⟨hall.1, hall.2.1⟩, fun hall => ⟨hall.1, hall.2, fun i hi j hj => ?_⟩⟩
  have hless := h.within i hi
  have hmore := h'.within j hj
  omega

theorem of_perm (h : Counts start n is) (hperm : js.Perm is) : Counts start n js where
  length := hperm.length_eq.trans h.length
  within j hj := h.within j (hperm.subset hj)

end Counts

/-! ## Numbers in a statement -/

namespace Segment

variable {d : Dialect} {style : MarkerStyle} {start : Int} {segs : List Segment}

/-- The markers of a compiled text are those of its segments. -/
theorem markers_settled (h : ∀ s ∈ segs, s.IsOrdinary) :
    (segs.flatMap (Segment.settled d style start)).filterMap (Lexeme.marker? style) =
      (segs.filterMap number?).map (numberAt style start) := by
  induction segs with
  | nil => rfl
  | cons s segs ih =>
    obtain ⟨hs, hsegs⟩ := List.forall_mem_cons.mp h
    rw [List.flatMap_cons, List.filterMap_append, ih hsegs, List.filterMap_cons]
    cases s with
    | word w =>
      have hsilent : (lex d.mark w.toList).filterMap (Lexeme.marker? style) = [] :=
        List.filterMap_eq_nil_iff.mpr fun l hl => marker?_keyword hs hl
      rw [settled, hsilent]
      rfl
    | name w =>
      rw [settled, List.filterMap_cons, marker?_settledName]
      rfl
    | marker n v =>
      rw [settled, List.filterMap_cons, marker?_markAt]
      rfl

theorem length_numbers (segs : List Segment) :
    (segs.filterMap number?).length = (segs.filterMap value?).length := by
  induction segs with
  | nil => rfl
  | cons s segs ih =>
    rw [List.filterMap_cons, List.filterMap_cons]
    cases s with
    | word _ | name _ => exact ih
    | marker n v => exact congrArg (· + 1) ih

end Segment

section Statements

variable {d : Dialect} {k : Int}

/-- The markers of a list have numbers of its values. -/
theorem counts_list {vs : List Value} (h : CanSpell vs) (negated : Bool) (first : Nat) :
    Counts (first + k) (boundMembers vs).length
      (((listSegments d negated first vs).filterMap Segment.number?).map fun n : Nat => n + k) ∧
    ((((listSegments d negated first vs).filterMap Segment.number?).map fun n : Nat => n + k).Nodup ↔
      HasDistinctMarks vs) := by
  have hnumbers : (listSegments d negated first vs).filterMap Segment.number? =
      ((listMarks vs).map (·.1)).map (first + ·) := by
    rw [filterMap_listSegments fun _ => rfl, List.map_map]
    exact congrFun (List.filterMap_eq_map (f := fun m : Nat × Value => first + m.1)) _
  rw [hnumbers, List.map_map]
  refine ⟨⟨?_, ?_⟩, ?_⟩
  · rw [List.length_map, List.length_map, ← map_snd_listMarks, List.length_map]
  · intro i hi
    obtain ⟨j, hj, rfl⟩ := List.mem_map.mp hi
    obtain ⟨m, hm, rfl⟩ := List.mem_map.mp hj
    have := h.lt_length m hm
    simp only [Function.comp_apply]
    omega
  · refine List.nodup_map_iff fun i j hij => ?_
    simp only [Function.comp_apply] at hij
    omega

/-- The numbers of the markers of a statement: those outside lists, and those of lists. All occur when
the markers of every list have different numbers. -/
theorem split_numbers {ps : List Piece} (h : ∀ vs ∈ ps.filterMap Piece.members?, CanSpell vs)
    (n m : Nat) :
    ∃ is js, (((segmentsFrom d n m ps).filterMap Segment.number?).map fun i : Nat => i + k).Perm
        (is ++ js) ∧
      Counts (n + k) (ps.flatMap Piece.singles).length is ∧ is.Nodup ∧
      Counts (m + k) (ps.flatMap Piece.listed).length js ∧
      (js.Nodup ↔ ∀ vs ∈ ps.filterMap Piece.members?, HasDistinctMarks vs) := by
  induction ps generalizing n m with
  | nil => exact ⟨[], [], .nil, .nil, .nil, .nil, by simp⟩
  | cons p ps ih =>
    cases p with
    | word s | name s =>
      exact ih h n m
    | marker label v =>
      obtain ⟨is, js, hperm, his, hnodup, hjs, hiff⟩ := ih h (n + 1) m
      have hone : Counts (n + k) 1 [(n : Int) + k] :=
        ⟨rfl, List.forall_mem_singleton.mpr (by omega)⟩
      have hall : Counts (n + k) (1 + (ps.flatMap Piece.singles).length) ((n + k) :: is) := by
        refine hone.append ?_
        rwa [show (n : Int) + k + (1 : Nat) = (n + 1 : Nat) + k by omega]
      refine ⟨(n + k) :: is, js, hperm.cons _, ?_, ?_, hjs, hiff⟩
      · simpa [Piece.singles, Nat.add_comm] using hall
      · -- the other single markers have higher numbers
        refine List.nodup_cons.mpr ⟨fun hmem => ?_, hnodup⟩
        have := his.within _ hmem
        omega
    | members label negated vs =>
      obtain ⟨hvs, hps⟩ := List.forall_mem_cons.mp h
      obtain ⟨is, js, hperm, his, hnodup, hjs, hiff⟩ := ih hps n (m + (boundMembers vs).length)
      obtain ⟨hlist, hdistinct⟩ := counts_list (d := d) (k := k) hvs negated m
      rw [Int.natCast_add, Int.add_right_comm] at hjs
      rw [List.flatMap_cons (f := Piece.listed), List.length_append]
      refine ⟨is, _ ++ js, ?_, his, hnodup, hlist.append hjs, ?_⟩
      · rw [segmentsFrom, List.filterMap_append, List.map_append]
        exact (hperm.append_left _).trans (List.perm_append_comm_assoc _ _ _)
      · rw [hlist.nodup_append_iff hjs, hdistinct, hiff]
        exact List.forall_mem_cons.symm

end Statements

/-! ## Numbers in a compiled text -/

namespace ClauseCompiler.Compiled

variable {c : ClauseCompiler} {k : Criteria} {w : Written} {p? : Option Predicate}
  {tail : List Piece} (h : Compiled c k w p? tail)
include h

theorem markers_eq : (c.lexemes w.text).filterMap (Lexeme.marker? c.style) =
    ((segmentsOf c.dialect (body c.dialect p? tail)).filterMap Segment.number?).map
      (numberAt c.style c.start) := by
  rw [h.lexemes, settledPieces]
  exact Segment.markers_settled (isOrdinary_segments (tidy_body h.parts))

/-- There are as many markers as values. -/
theorem length_markers :
    ((c.lexemes w.text).filterMap (Lexeme.marker? c.style)).length = w.values.length := by
  have hvalues := (perm_valuesOf .question c.style (body c.dialect p? tail)).length_eq
  rw [h.markers_eq, List.length_map, Segment.length_numbers, segmentsOf,
    filterMap_value_segmentsFrom, h.values, ← hvalues]
  rfl

/-- Numbered markers count values, and all of them when lists have different numbers. -/
theorem counts (hstyle : c.style = .dollar) :
    Counts c.start w.values.length ((c.lexemes w.text).filterMap (Lexeme.marker? c.style)) ∧
      (((c.lexemes w.text).filterMap (Lexeme.marker? c.style)).Nodup ↔
        c.EachList k HasDistinctMarks) := by
  have hnumber : numberAt c.style c.start = fun n : Nat => (n : Int) + (c.start - 1) := by
    funext n
    rw [numberAt, if_pos hstyle]
  obtain ⟨is, js, hperm, his, hnodup, hjs, hiff⟩ := split_numbers (d := c.dialect)
    (k := c.start - 1) h.spellable.lists 1 (firstListed (body c.dialect p? tail))
  have hvalues : w.values = (body c.dialect p? tail).flatMap Piece.singles ++
      (body c.dialect p? tail).flatMap Piece.listed := by
    rw [h.values, hstyle]
    rfl
  have hsingles : ((1 : Nat) : Int) + (c.start - 1) = c.start := by omega
  have hlisted : (firstListed (body c.dialect p? tail) : Int) + (c.start - 1) =
      c.start + ((body c.dialect p? tail).flatMap Piece.singles).length := by
    rw [firstListed, countP_isMarker]
    omega
  rw [hsingles] at his
  rw [hlisted] at hjs
  have hall := his.append hjs
  rw [h.markers_eq, hnumber, hvalues, List.length_append, eachList_iff h.parts]
  refine ⟨hall.of_perm hperm, hperm.nodup_iff.trans ?_⟩
  rw [his.nodup_append_iff hjs, hiff]
  exact and_iff_right hnodup

end ClauseCompiler.Compiled

/-! ## Fragments -/

/-- The numbers of the markers of a text, in their order. -/
def numbersIn (d : Dialect) (style : MarkerStyle) (text : String) : List Int :=
  (lex d.mark text.toList).filterMap (Lexeme.marker? style)

theorem numbersIn_of_silent {d : Dialect} {style : MarkerStyle} {text : String}
    {before ls behind : List Lexeme} (h : ReadsAs d text.toList (before ++ ls ++ behind))
    (hbefore : ∀ l ∈ before, l.marker? style = none)
    (hbehind : ∀ l ∈ behind, l.marker? style = none) :
    numbersIn d style text = ls.filterMap (Lexeme.marker? style) := by
  rw [numbersIn, h.lexemes, List.filterMap_append, List.filterMap_append,
    List.filterMap_eq_nil_iff.mpr hbefore, List.filterMap_eq_nil_iff.mpr hbehind, List.nil_append,
    List.append_nil]

/-- Whether `P` holds of each text with its values and of the number of its first value, when values
are counted on from one text to the next. -/
def Along (P : Int → String × List Value → Prop) : Int → List (String × List Value) → Prop
  | _, [] => True
  | start, p :: ps => P start p ∧ Along P (start + p.2.length) ps

/-- Whether the markers of a text have numbers of its own values, as many as there are. -/
def CountsOwn (d : Dialect) (start : Int) (p : String × List Value) : Prop :=
  Counts start p.2.length (numbersIn d .dollar p.1)

/-- Whether the markers of a text have the numbers of its own values, each of them once. -/
def NumbersOwn (d : Dialect) (start : Int) (p : String × List Value) : Prop :=
  (numbersIn d .dollar p.1).Perm (consecutive start p.2.length)

namespace Along

variable {d : Dialect} {start : Int} {ps : List (String × List Value)}

theorem counts (h : Along (CountsOwn d) start ps) :
    Counts start (ps.flatMap (·.2)).length (ps.flatMap fun p => numbersIn d .dollar p.1) := by
  induction ps generalizing start with
  | nil => exact .nil
  | cons p ps ih =>
    rw [List.flatMap_cons, List.flatMap_cons, List.length_append]
    exact h.1.append (ih h.2)

theorem nodup_iff (h : Along (CountsOwn d) start ps) :
    (ps.flatMap fun p => numbersIn d .dollar p.1).Nodup ↔
      Along (NumbersOwn d) start ps := by
  induction ps generalizing start with
  | nil => exact iff_of_true .nil trivial
  | cons p ps ih =>
    rw [List.flatMap_cons, Counts.nodup_append_iff h.1 (counts h.2), ih h.2]
    exact and_congr_left' h.1.perm_iff.symm

end Along

namespace QueryCompiler

/-- Whether `P` holds of all criteria handed to the usual compiler. -/
def EachRequest (q : QueryCompiler) (d : Dialect) (style : MarkerStyle)
    (rs : List (String × Int × Criteria)) (P : ClauseCompiler → Criteria → Prop) : Prop :=
  ∀ r ∈ rs, ∀ c, ClauseCompiler.create q.catalog r.1 d style r.2.1 .usual = .ok c → P c r.2.2

/-- In a catalog with plain names all statements are read as they are written. -/
theorem eachRequest_isLegible {catalog : Catalog} {table aliasStart : String} {q : QueryCompiler}
    {d : Dialect} {style : MarkerStyle}
    (hq : create catalog table (.dialect d) none style.name usualPlaceholder aliasStart = .ok q)
    (hcatalog : catalog.IsPlain) (rs : List (String × Int × Criteria)) :
    q.EachRequest d style rs ClauseCompiler.IsLegible := by
  obtain ⟨_, -, rfl⟩ := map_eq_ok.mp hq
  intro r _ c hc
  obtain ⟨t, ht, rfl⟩ := map_eq_ok.mp hc
  refine ClauseCompiler.isLegible_of_catalog hcatalog ?_
  unfold Catalog.table at ht
  split at ht
  · rename_i t' ht'
    exact (hcatalog.table ht').1
  · contradiction

/-- Texts with values that were compiled one after the other, each for the only criteria that were
handed on for it; a text without any is empty. -/
inductive Renders (q : QueryCompiler) (d : Dialect) (style : MarkerStyle) :
    Int → List (String × Int × Criteria) → List (String × List Value) → Prop
  | nil {start : Int} : Renders q d style start [] []
  | empty {start : Int} {rs : List (String × Int × Criteria)} {ps : List (String × List Value)}
      (rest : Renders q d style start rs ps) : Renders q d style start rs (("", []) :: ps)
  | cons {start : Int} {es : List Event} {table text : String} {query : Query}
      {c : ClauseCompiler} {w : Written} {rs : List (String × Int × Criteria)}
      {ps : List (String × List Value)} (served : Served q d style es table start query c w)
      (markers : ∀ {p? tail}, c.Compiled query.criteria w p? tail →
        numbersIn d style text = (c.lexemes w.text).filterMap (Lexeme.marker? style))
      (rest : Renders q d style (start + w.values.length) rs ps) :
      Renders q d style start ((table, start, query.criteria) :: rs) ((text, w.values) :: ps)

variable {q : QueryCompiler} {d : Dialect} {style : MarkerStyle} {start : Int}

theorem Served.eachRequest_cons {es : List Event} {table : String} {query : Query}
    {c : ClauseCompiler} {w : Written} (h : Served q d style es table start query c w)
    {rs : List (String × Int × Criteria)} {P : ClauseCompiler → Criteria → Prop} :
    q.EachRequest d style ((table, start, query.criteria) :: rs) P ↔
      P c query.criteria ∧ q.EachRequest d style rs P := by
  unfold EachRequest
  rw [List.forall_mem_cons, h.create]
  simp

namespace Renders

variable {rs : List (String × Int × Criteria)} {ps : List (String × List Value)}

/-- Markers count the values of their own text, and all values are counted when the markers of every
list have different numbers. -/
theorem along (h : Renders q d .dollar start rs ps)
    (hlegible : q.EachRequest d .dollar rs ClauseCompiler.IsLegible) :
    Along (CountsOwn d) start ps ∧ (Along (NumbersOwn d) start ps ↔
      q.EachRequest d .dollar rs fun c k => c.EachList k HasDistinctMarks) := by
  induction h with
  | nil => exact ⟨trivial, iff_of_true trivial nofun⟩
  | empty _ ih =>
    obtain ⟨hcounts, hiff⟩ := ih hlegible
    rw [Along, Along, List.length_nil, Int.natCast_zero, Int.add_zero]
    exact ⟨⟨.nil, hcounts⟩, (and_iff_right .nil).trans hiff⟩
  | cons hserved hmarkers _ ih =>
    obtain ⟨hhead, hrest⟩ := hserved.eachRequest_cons.mp hlegible
    obtain ⟨hcounts, hiff⟩ := ih hrest
    obtain ⟨p?, tail, hc⟩ := ClauseCompiler.exists_compiled hhead hserved.compiled
    obtain ⟨hd, hstyle, hstart⟩ := hserved.compiler_eq
    obtain ⟨hown, hdistinct⟩ := hc.counts hstyle
    rw [hstyle, ← hmarkers hc, hstart] at hown
    rw [hstyle, ← hmarkers hc] at hdistinct
    refine ⟨⟨hown, hcounts⟩, ?_⟩
    rw [hserved.eachRequest_cons, ← hdistinct]
    exact and_congr hown.perm_iff hiff

/-- There are as many markers as values. -/
theorem length_eq (h : Renders q d style start rs ps)
    (hlegible : q.EachRequest d style rs ClauseCompiler.IsLegible) :
    ∀ p ∈ ps, (numbersIn d style p.1).length = p.2.length := by
  induction h with
  | nil => exact nofun
  | empty _ ih => exact List.forall_mem_cons.mpr ⟨rfl, ih hlegible⟩
  | cons hserved hmarkers _ ih =>
    obtain ⟨hhead, hrest⟩ := hserved.eachRequest_cons.mp hlegible
    obtain ⟨p?, tail, hc⟩ := ClauseCompiler.exists_compiled hhead hserved.compiled
    obtain ⟨-, rfl, -⟩ := hserved.compiler_eq
    refine List.forall_mem_cons.mpr ⟨?_, ih hrest⟩
    rw [hmarkers hc, hc.length_markers]

end Renders

/-! ### Compilations -/

theorem renders_rows (h : q.IsUsual d style) {query : Query} {es : List Event} {f : Fragment}
    (hrun : q.rows (some query) = ⟨es, .ok f⟩) {rs : List (String × Int × Criteria)}
    {ps : List (String × List Value)}
    (hrest : Renders q d style (1 + f.values.length) rs ps) :
    Renders q d style 1 (requestsIn es ++ rs) ((f.text, f.values) :: ps) := by
  obtain ⟨links, sorted, c, w, hrows⟩ := rows_eq h hrun
  rw [hrows.served.requests, hrows.values] at *
  refine .cons hrows.served (fun hc => ?_) hrest
  have hreads := hrows.reads h hc
  rw [← List.append_assoc, ← List.append_nil (_ ++ _)] at hreads
  refine numbersIn_of_silent hreads (List.forall_mem_append.mpr ⟨fun l hl => ?_, ?_⟩) nofun
  · exact (isHead_lexemes (isHead_joinsSegments links) l hl).silent style
  · split
    · exact List.forall_mem_singleton.mpr (marker?_connective (.inl rfl) style)
    · exact nofun

theorem renders_subqueriesFrom (h : q.IsUsual d style) {as : List Association} {es : List Event}
    {ss : List Subquery} (hrun : q.subqueriesFrom as start = ⟨es, .ok ss⟩) :
    Renders q d style start (requestsIn es) (ss.map fun s => (s.template, s.values)) := by
  induction as generalizing start es ss with
  | nil =>
    obtain ⟨rfl, rfl⟩ := Traced.pure_eq.mp hrun
    exact .nil
  | cons a as ih =>
    rw [subqueriesFrom, Traced.bind_eq] at hrun
    obtain ⟨es₁, s?, es₂, ha, hrun, rfl⟩ := hrun
    rw [requestsIn_append]
    cases s? with
    | none =>
      rw [subqueryOf_none ha]
      exact ih hrun
    | some s =>
      simp only [Traced.bind_eq, Traced.emit_eq, Traced.pure_eq] at hrun
      obtain ⟨_, _, _, rfl, ⟨_, more, _, hmore, ⟨rfl, rfl⟩, rfl⟩, rfl⟩ := hrun
      obtain ⟨head, before, c, w, hs⟩ := subqueryOf_eq h ha
      obtain ⟨table, hserved⟩ := hs.served
      rw [hserved.requests, List.map_cons, hs.values]
      refine .cons hserved (fun hc => ?_) ?_
      · have hreads := hs.reads hc
        rw [← List.append_assoc (_ ++ _), ← List.cons_append] at hreads
        refine numbersIn_of_silent hreads ?_ ?_
        · refine List.forall_mem_cons.mpr ⟨rfl, List.forall_mem_append.mpr
            ⟨List.forall_mem_append.mpr ⟨fun l hl => (hs.isHead.before l hl).silent style, ?_⟩, ?_⟩⟩
          · exact List.forall_mem_cons.mpr ⟨marker?_connective (.inl rfl) style,
              silent_correlation a⟩
          · split
            · exact List.forall_mem_singleton.mpr (marker?_connective (.inr rfl) style)
            · exact List.forall_mem_nil _
        · exact List.forall_mem_singleton.mpr rfl
      · have hrest := ih hmore
        rw [List.append_nil, ← hs.values]
        exact hrest

/-- The texts of a compilation with their values. -/
def fragments (r : Fragment × List Subquery) : List (String × List Value) :=
  (r.1.text, r.1.values) :: r.2.map fun s => (s.template, s.values)

theorem renders_compile (h : q.IsUsual d style) {query : Option Query} {es : List Event}
    {r : Fragment × List Subquery} (hrun : q.compile query = ⟨es, .ok r⟩) :
    Renders q d style 1 (requestsIn es) (fragments r) := by
  simp only [compile, Traced.bind_eq, Traced.pure_eq] at hrun
  obtain ⟨es₁, f, _, hrows, ⟨es₂, ss, _, hsubqueries, ⟨rfl, rfl⟩, rfl⟩, rfl⟩ := hrun
  rw [List.append_nil, requestsIn_append]
  cases query with
  | none =>
    obtain ⟨rfl, rfl⟩ := Traced.pure_eq.mp hrows
    obtain ⟨rfl, rfl⟩ := Traced.pure_eq.mp hsubqueries
    exact .empty .nil
  | some query =>
    rw [Int.add_comm] at hsubqueries
    exact renders_rows h hrows (renders_subqueriesFrom h hsubqueries)

/-- In a whole compilation there are as many markers in each text as it has values. With numbers, the
markers of each text count its own values, which are counted on from one text to the next; each
number occurs, in its text and altogether, unless markers of one list have the same number. -/
theorem markers_count_values {catalog : Catalog} {table aliasStart : String} {q : QueryCompiler}
    (hq : create catalog table (.dialect d) none style.name usualPlaceholder aliasStart = .ok q)
    {query : Option Query} {r : Fragment × List Subquery}
    (hrun : (q.compile query).outcome = .ok r)
    (hlegible : q.EachRequest d style (requestsIn (q.compile query).events) ClauseCompiler.IsLegible) :
    (∀ p ∈ fragments r, (numbersIn d style p.1).length = p.2.length) ∧
    (style = .dollar → Along (CountsOwn d) 1 (fragments r) ∧
      (Along (NumbersOwn d) 1 (fragments r) ↔
        q.EachRequest d style (requestsIn (q.compile query).events)
          fun c k => c.EachList k HasDistinctMarks) ∧
      (((fragments r).flatMap fun p => numbersIn d style p.1).Perm
          (consecutive 1 ((fragments r).flatMap (·.2)).length) ↔
        q.EachRequest d style (requestsIn (q.compile query).events)
          fun c k => c.EachList k HasDistinctMarks)) := by
  have hcompile : q.compile query = ⟨(q.compile query).events, .ok r⟩ := congrArg (Traced.mk _) hrun
  have hrenders := renders_compile (isUsual_of_create hq) hcompile
  refine ⟨hrenders.length_eq hlegible, ?_⟩
  rintro rfl
  obtain ⟨hcounts, hiff⟩ := hrenders.along hlegible
  exact ⟨hcounts, hiff, hcounts.counts.perm_iff.trans (hcounts.nodup_iff.trans hiff)⟩

theorem markers_count_sales : ∃ r,
    ((shopQueries .dollar).compile (some shopQuery)).outcome = .ok r ∧ r.2.length = 1 ∧
    (∀ p ∈ fragments r, (numbersIn .default .dollar p.1).length = p.2.length) ∧
    Along (CountsOwn .default) 1 (fragments r) := by
  obtain ⟨r, hr, hlength⟩ := exists_compile_shop .dollar
  obtain ⟨hmarkers, hnumbers⟩ := markers_count_values (create_shop .dollar) hr
    (eachRequest_isLegible (create_shop .dollar) isPlain_shop _)
  exact ⟨r, hr, hlength, hmarkers, (hnumbers rfl).1⟩

end QueryCompiler

end SqlFragment
