import SqlFragment.Proofs.Names

/-!
Compiled texts with their values put in the place of the markers. Without numbers a marker stands
for the value at its place, with numbers for the value that its number counts.
-/
namespace SqlFragment

/-- A lexeme of a text in which values stand for markers. Names are told apart by their places
only. -/
inductive BoundLexeme
  | name
  | other (l : Lexeme)
  | value (v? : Option Value)

def Lexeme.unbound : Lexeme → BoundLexeme
  | .name _ => .name
  | l => .other l

/-- Each marker takes the next value. -/
def bindInOrder (style : MarkerStyle) : List Value → List Lexeme → List BoundLexeme
  | _, [] => []
  | vs, l :: ls =>
    if (l.marker? style).isSome then .value vs.head? :: bindInOrder style vs.tail ls
    else l.unbound :: bindInOrder style vs ls

/-- The marker of the first value has the number `start`. -/
def bindByNumber (start : Int) (vs : List Value) (ls : List Lexeme) : List BoundLexeme :=
  ls.map fun l =>
    match l.marker? .dollar with
    | some n => .value (if start ≤ n then vs[(n - start).toNat]? else none)
    | none => l.unbound

/-- What a compiled text says to the database. -/
def ClauseCompiler.bind (c : ClauseCompiler) (w : Written) : List BoundLexeme :=
  match c.style with
  | .dollar => bindByNumber c.start w.values (c.lexemes w.text)
  | .question | .percent => bindInOrder c.style w.values (c.lexemes w.text)

namespace Segment

/-- A segment with `value?` of its marker. -/
def bound (d : Dialect) (value? : Nat → Value → Option Value) : Segment → List BoundLexeme
  | .word s => (lex d.mark s.toList).map .other
  | .name _ => [.name]
  | .marker n v => [.value (value? n v)]

variable {d : Dialect} {style : MarkerStyle} {start : Int}

theorem unbound_keyword {s : String} (h : IsKeyword s) {l : Lexeme} (hl : l ∈ lex d.mark s.toList) :
    l.unbound = .other l := by
  have hplain : ∀ c ∈ s.toList, c ≠ d.mark ∧ True := by
    intro c hc
    refine ⟨?_, trivial⟩
    rintro rfl
    exact mark_notMem_keyword d h hc
  rcases mem_lexFrom (.inl rfl) hplain hl with ⟨w, rfl, -⟩ | ⟨c, rfl⟩ <;> rfl

theorem unbound_settledName (s : String) : (settledName d style start s).unbound = .name := by
  obtain ⟨t, ht⟩ := exists_settledName d style start s
  rw [ht]
  rfl

theorem bindInOrder_settled {s : Segment} (h : s.IsOrdinary) (vs : List Value) (ls : List Lexeme) :
    bindInOrder style (s.value?.toList ++ vs) (s.settled d style start ++ ls) =
      s.bound d (fun _ v => some v) ++ bindInOrder style vs ls := by
  cases s with
  | word w =>
    have hlexemes : ∀ l ∈ lex d.mark w.toList, l.marker? style = none ∧ l.unbound = .other l :=
      fun l hl => ⟨marker?_keyword h hl, unbound_keyword h hl⟩
    simp only [value?, settled, bound, Option.toList_none, List.nil_append]
    generalize lex d.mark w.toList = xs at hlexemes
    induction xs with
    | nil => rfl
    | cons l xs ih =>
      obtain ⟨⟨hm, hu⟩, hxs⟩ := List.forall_mem_cons.mp hlexemes
      simp only [List.cons_append, bindInOrder, hm, hu, ih hxs, List.map_cons]
      rfl
  | name w =>
    simp only [value?, settled, bound, Option.toList_none, List.nil_append, List.singleton_append,
      bindInOrder, marker?_settledName, unbound_settledName]
    rfl
  | marker n v =>
    simp only [value?, settled, bound, Option.toList_some, List.singleton_append, bindInOrder,
      marker?_markAt]
    rfl

theorem bindByNumber_settled {s : Segment} (h : s.IsOrdinary)
    (hn : ∀ n ∈ s.number?, 1 ≤ n) (vs : List Value) :
    bindByNumber start vs (s.settled d .dollar start) = s.bound d fun n _ => vs[n - 1]? := by
  cases s with
  | word w =>
    refine List.map_congr_left fun l hl => ?_
    simp only [marker?_keyword h hl, unbound_keyword h hl]
  | name w => simp [bindByNumber, settled, bound, marker?_settledName, unbound_settledName]
  | marker n v =>
    have hn : 1 ≤ n := hn n rfl
    have hstart : start ≤ (n : Int) + (start - 1) := by omega
    have hindex : ((n : Int) + (start - 1) - start).toNat = n - 1 := by omega
    simp [bindByNumber, settled, bound, marker?_markAt, numberAt, hstart, hindex]

end Segment

/-! ## Statements -/

section Statements

variable {d : Dialect} {style : MarkerStyle} {start : Int} {segs : List Segment}

theorem bindInOrder_segments (h : ∀ s ∈ segs, s.IsOrdinary) :
    bindInOrder style (segs.filterMap Segment.value?) (segs.flatMap (Segment.settled d style start)) =
      segs.flatMap (Segment.bound d fun _ v => some v) := by
  induction segs with
  | nil => rfl
  | cons s segs ih =>
    obtain ⟨hs, hsegs⟩ := List.forall_mem_cons.mp h
    have hvalues : (s :: segs).filterMap Segment.value? =
        s.value?.toList ++ segs.filterMap Segment.value? := by
      rw [List.filterMap_cons]
      cases s.value? <;> rfl
    rw [hvalues, List.flatMap_cons, Segment.bindInOrder_settled hs, ih hsegs, List.flatMap_cons]

theorem bindByNumber_segments (h : ∀ s ∈ segs, s.IsOrdinary)
    (hn : ∀ s ∈ segs, ∀ n ∈ s.number?, 1 ≤ n) (vs : List Value) :
    bindByNumber start vs (segs.flatMap (Segment.settled d .dollar start)) =
      segs.flatMap (Segment.bound d fun n _ => vs[n - 1]?) := by
  rw [bindByNumber, List.map_flatMap]
  exact List.flatMap_congr fun s hs => Segment.bindByNumber_settled (h s hs) (hn s hs) vs

/-- Texts say the same if their markers stand for the same values. -/
theorem flatMap_bound_eq_iff {f g : Nat → Value → Option Value} :
    segs.flatMap (Segment.bound d f) = segs.flatMap (Segment.bound d g) ↔
      ∀ n v, .marker n v ∈ segs → f n v = g n v := by
  have hlength (s : Segment) : (s.bound d f).length = (s.bound d g).length := by
    cases s <;> simp [Segment.bound]
  induction segs with
  | nil => simp
  | cons s segs ih =>
    rw [List.flatMap_cons, List.flatMap_cons]
    constructor
    · intro h n v hmem
      obtain ⟨hs, hsegs⟩ := List.append_inj h (hlength s)
      rcases List.mem_cons.mp hmem with rfl | hmem
      · exact BoundLexeme.value.inj (List.cons.inj hs).1
      · exact ih.mp hsegs n v hmem
    · intro h
      rw [ih.mpr fun n v hmem => h n v (List.mem_cons_of_mem s hmem)]
      cases s with
      | marker n v => rw [Segment.bound, Segment.bound, h n v List.mem_cons_self]
      | word _ | name _ => rfl

theorem number?_segmentsFrom {n m : Nat} (hn : 1 ≤ n) (hm : 1 ≤ m) {ps : List Piece} :
    ∀ k v, .marker k v ∈ segmentsFrom d n m ps → 1 ≤ k := by
  induction ps generalizing n m with
  | nil => exact nofun
  | cons p ps ih =>
    intro k v h
    rcases List.mem_append.mp h with h | h
    · cases p with
      | word _ | name _ => simp [Piece.segments] at h
      | marker label u =>
        obtain ⟨rfl, rfl⟩ := Segment.marker.inj (List.mem_singleton.mp h)
        exact hn
      | members label negated xs =>
        obtain ⟨j, -, rfl⟩ := marker_mem_listSegments.mp h
        exact Nat.le_add_right_of_le hm
    · exact ih (Nat.le_add_right_of_le hn) (Nat.le_add_right_of_le hm) k v h

/-- The markers of a list have the numbers of their values if each stands for its own. -/
theorem values_at_list_iff {before after vs xs : List Value} {m : Nat} {negated : Bool}
    (hxs : CanSpell xs) (hm : m = before.length + 1)
    (hvs : vs = before ++ (boundMembers xs ++ after)) :
    (∀ k v, .marker k v ∈ listSegments d negated m xs → vs[k - 1]? = some v) ↔
      HasOwnMarks xs := by
  have hown : ∀ j < (boundMembers xs).length, vs[m + j - 1]? = (boundMembers xs)[j]? := by
    intro j hj
    have hindex : m + j - 1 = before.length + j := by omega
    rw [hindex, hvs, List.getElem?_append_right (Nat.le_add_right _ _), Nat.add_sub_cancel_left,
      List.getElem?_append_left hj]
  constructor
  · intro h mark hmark
    rw [← hown _ (hxs.lt_length mark hmark)]
    exact h _ _ (marker_mem_listSegments.mpr ⟨mark.1, hmark, rfl⟩)
  · intro h k v hmem
    obtain ⟨j, hj, rfl⟩ := marker_mem_listSegments.mp hmem
    rw [hown _ (hxs.lt_length _ hj)]
    exact h _ hj

/-- Single markers have the numbers of their values, and so have all markers if those of every list
have. `A` and `B` are the values before the pieces. -/
theorem values_at_numbers {A B vs : List Value} {n m : Nat} {ps : List Piece}
    (hspell : ∀ xs ∈ ps.filterMap Piece.members?, CanSpell xs) (hn : n = A.length + 1)
    (hm : m = A.length + (ps.flatMap Piece.singles).length + B.length + 1)
    (hvs : vs = A ++ ps.flatMap Piece.singles ++ (B ++ ps.flatMap Piece.listed)) :
    (∀ k v, .marker k v ∈ segmentsFrom d n m ps → vs[k - 1]? = some v) ↔
      ∀ xs ∈ ps.filterMap Piece.members?, HasOwnMarks xs := by
  induction ps generalizing A B n m with
  | nil => simp [segmentsFrom]
  | cons p ps ih =>
    cases p with
    | word s | name s =>
      refine Iff.trans ?_ (ih (A := A) (B := B) hspell hn hm hvs)
      simp [segmentsFrom, Piece.segments, Piece.singles, Piece.listed]
    | marker label v =>
      -- the value joins those that stand before the pieces
      have htail := ih (A := A ++ [v]) (B := B) (n := n + 1) (m := m) hspell (by simp [hn])
        (by simp [hm, Piece.singles]; omega) (by simp [hvs, Piece.singles, Piece.listed])
      have hown : vs[n - 1]? = some v := by simp [hvs, hn, Piece.singles]
      refine Iff.trans ?_ htail
      constructor
      · exact fun h k u hmem => h k u (List.mem_cons_of_mem _ hmem)
      · intro h k u hmem
        rcases List.mem_cons.mp hmem with hmem | hmem
        · obtain ⟨rfl, rfl⟩ := Segment.marker.inj hmem
          exact hown
        · exact h k u hmem
    | members label negated xs =>
      obtain ⟨hxs, hspell⟩ := List.forall_mem_cons.mp hspell
      have htail := ih (A := A) (B := B ++ boundMembers xs) (n := n)
        (m := m + (boundMembers xs).length) hspell hn
        (by simp [hm, Piece.singles]; omega) (by simp [hvs, Piece.singles, Piece.listed])
      -- values of lists stand behind those of all single markers, also of later ones
      have hlist := @values_at_list_iff d (A ++ ps.flatMap Piece.singles ++ B)
        (ps.flatMap Piece.listed) vs xs m negated hxs (by simp [hm, Piece.singles]; omega)
        (by simp [hvs, Piece.singles, Piece.listed])
      constructor
      · intro h
        refine List.forall_mem_cons.mpr ⟨hlist.mp fun k v hmem => ?_, htail.mp fun k v hmem => ?_⟩
        · exact h k v (List.mem_append_left _ hmem)
        · exact h k v (List.mem_append_right _ hmem)
      · intro h k v hmem
        obtain ⟨hxs, hrest⟩ := List.forall_mem_cons.mp h
        rcases List.mem_append.mp hmem with hmem | hmem
        · exact hlist.mpr hxs k v hmem
        · exact htail.mpr hrest k v hmem

end Statements

/-! ## Styles -/

namespace ClauseCompiler

variable {c : ClauseCompiler} {k : Criteria} {start : Int}

/-- The compiler with markers of another style. -/
def inStyle (c : ClauseCompiler) (style : MarkerStyle) (start : Int) : ClauseCompiler :=
  { c with style, start }

/-- Whether no number behind a dollar sign has too many digits to be moved. -/
def HasMovableNumbers (c : ClauseCompiler) (k : Criteria) : Prop :=
  ∀ p? tail, c.parts k = .ok (p?, tail) → c.start = 1 ∨
    (tokensFrom .other (c.line (body c.dialect p? tail)).toList).all (Token.isMovable (c.start - 1))

theorem exists_restyled {s : String} (h : c.style ≠ .dollar) : c.restyled s = .ok s :=
  if_neg h

theorem exists_restyled_iff {s : String} (h : c.style = .dollar) :
    (∃ text, c.restyled s = .ok text) ↔ c.start = 1 ∨
      (tokensFrom .other s.toList).all (Token.isMovable (c.start - 1)) := by
  unfold restyled renumber
  rw [if_pos h]
  by_cases hstart : c.start = 1
  · simp [hstart]
  · simp only [hstart, if_false, false_or]
    split <;> simp_all

/-- Without numbers criteria are compiled when their statement can be spelled. -/
theorem exists_compiled_iff (hlegible : c.IsLegible k) (h : c.style ≠ .dollar) :
    (∃ w, c.compile k = .ok w) ↔
      ∃ p? tail, c.parts k = .ok (p?, tail) ∧ Spellable c.dialect (body c.dialect p? tail) := by
  constructor
  · rintro ⟨w, hw⟩
    obtain ⟨p?, tail, hparts, hspell, -⟩ := (compile_eq_ok hlegible).mp hw
    exact ⟨p?, tail, hparts, hspell⟩
  · rintro ⟨p?, tail, hparts, hspell⟩
    exact ⟨⟨_, _⟩, (compile_eq_ok hlegible).mpr ⟨p?, tail, hparts, hspell, exists_restyled h, rfl⟩⟩

theorem exists_compiled_dollar_iff (hlegible : c.IsLegible k) (h : c.style = .dollar) :
    (∃ w, c.compile k = .ok w) ↔
      (∃ p? tail, c.parts k = .ok (p?, tail) ∧ Spellable c.dialect (body c.dialect p? tail)) ∧
        c.HasMovableNumbers k := by
  constructor
  · rintro ⟨w, hw⟩
    obtain ⟨p?, tail, hparts, hspell, htext, -⟩ := (compile_eq_ok hlegible).mp hw
    refine ⟨⟨p?, tail, hparts, hspell⟩, fun q? tail' hparts' => ?_⟩
    obtain ⟨rfl, rfl⟩ := Prod.mk.inj (Except.ok.inj (hparts.symm.trans hparts'))
    exact (exists_restyled_iff h).mp ⟨_, htext⟩
  · rintro ⟨⟨p?, tail, hparts, hspell⟩, hnumbers⟩
    obtain ⟨text, htext⟩ := (exists_restyled_iff h).mpr (hnumbers p? tail hparts)
    exact ⟨⟨text, _⟩, (compile_eq_ok hlegible).mpr ⟨p?, tail, hparts, hspell, htext, rfl⟩⟩

namespace Compiled

variable {w : Written} {p? : Option Predicate} {tail : List Piece} (h : Compiled c k w p? tail)
include h

/-- Without numbers every marker stands for its own value. -/
theorem bind_eq (hstyle : c.style ≠ .dollar) :
    c.bind w = (segmentsOf c.dialect (body c.dialect p? tail)).flatMap
      (Segment.bound c.dialect fun _ v => some v) := by
  have hwords := isOrdinary_segments (tidy_body h.parts)
  have hbind : c.bind w = bindInOrder c.style w.values (c.lexemes w.text) := by
    unfold bind
    split <;> first | contradiction | rfl
  have hown : w.values =
      (segmentsOf c.dialect (body c.dialect p? tail)).filterMap Segment.value? := by
    rw [h.values, segmentsOf, filterMap_value_segmentsFrom]
    unfold valuesOf
    split <;> first | contradiction | rfl
  rw [hbind, h.lexemes, hown, settledPieces, bindInOrder_segments hwords]

theorem bind_dollar_eq (hstyle : c.style = .dollar) :
    c.bind w = (segmentsOf c.dialect (body c.dialect p? tail)).flatMap
      (Segment.bound c.dialect fun n _ => w.values[n - 1]?) := by
  have hwords := isOrdinary_segments (tidy_body h.parts)
  have hbind : c.bind w = bindByNumber c.start w.values (c.lexemes w.text) := by
    unfold bind
    split <;> simp_all
  rw [hbind, h.lexemes, settledPieces, hstyle]
  refine bindByNumber_segments hwords (fun s hs n hn => ?_) w.values
  cases s with
  | word _ | name _ => contradiction
  | marker m v =>
    obtain rfl := Option.some.inj hn
    exact number?_segmentsFrom (Nat.le_refl 1) (Nat.le_add_left 1 _) m v hs

end Compiled

/-- In all styles the same criteria are compiled, but that long numbers cannot be moved, and texts
say the same, but where the markers of tuples count other values than their own. -/
theorem styles_bind_alike (hlegible : ∀ style, (c.inStyle style start).IsLegible k) :
    ((∃ w, (c.inStyle .question start).compile k = .ok w) ↔
      ∃ w, (c.inStyle .percent start).compile k = .ok w) ∧
    ((∃ w, (c.inStyle .dollar start).compile k = .ok w) ↔
      (∃ w, (c.inStyle .question start).compile k = .ok w) ∧
        (c.inStyle .dollar start).HasMovableNumbers k) ∧
    ∀ q f d, (c.inStyle .question start).compile k = .ok q →
      (c.inStyle .percent start).compile k = .ok f →
      (c.inStyle .dollar start).compile k = .ok d →
      (c.inStyle .percent start).bind f = (c.inStyle .question start).bind q ∧
      ((c.inStyle .dollar start).bind d = (c.inStyle .question start).bind q ↔ c.EachList k HasOwnMarks) ∧
      f.values = q.values ∧ d.values.Perm q.values := by
  have hq := hlegible .question
  have hf := hlegible .percent
  have hd := hlegible .dollar
  refine ⟨?_, ?_, fun q f d hwq hwf hwd => ?_⟩
  · rw [exists_compiled_iff hq nofun, exists_compiled_iff hf nofun]
    rfl
  · rw [exists_compiled_dollar_iff hd rfl, exists_compiled_iff hq nofun]
    rfl
  · obtain ⟨p?, tail, hcq⟩ := exists_compiled hq hwq
    obtain ⟨p?', tail', hcf⟩ := exists_compiled hf hwf
    obtain ⟨p?'', tail'', hcd⟩ := exists_compiled hd hwd
    have hparts : c.parts k = .ok (p?, tail) := hcq.parts
    obtain ⟨rfl, rfl⟩ := Prod.mk.inj (Except.ok.inj (hparts.symm.trans hcf.parts))
    obtain ⟨rfl, rfl⟩ := Prod.mk.inj (Except.ok.inj (hparts.symm.trans hcd.parts))
    have hvq := hcq.values
    have hvf := hcf.values
    have hvd := hcd.values
    have hbq := hcq.bind_eq nofun
    have hbf := hcf.bind_eq nofun
    have hbd := hcd.bind_dollar_eq rfl
    refine ⟨hbf.trans hbq.symm, ?_, hvf.trans hvq.symm, ?_⟩
    · rw [hbd, hbq, eachList_iff hparts]
      refine flatMap_bound_eq_iff.trans
        (values_at_numbers (A := []) (B := []) hcq.spellable.lists rfl ?_ ?_)
      · rw [firstListed, countP_isMarker]
        simp [inStyle]
      · rw [hvd]
        rfl
    · rw [hvd, hvq]
      exact perm_valuesOf _ _ _

theorem ownMarks_tagged (style : MarkerStyle) (start : Int) :
    (shopCompiler style start).EachList tagged HasOwnMarks := by
  intro r hr
  obtain rfl := Except.ok.inj ((clauses_tagged style start).symm.trans hr)
  exact List.forall_mem_singleton.mpr (hasOwnMarks_even (n := 1) (absurd · (by decide)))

theorem styles_bind_sales : ∃ q f d, (shopCompiler .question 4).compile tagged = .ok q ∧
    (shopCompiler .percent 4).compile tagged = .ok f ∧
    (shopCompiler .dollar 4).compile tagged = .ok d ∧
    (shopCompiler .percent 4).bind f = (shopCompiler .question 4).bind q ∧
    (shopCompiler .dollar 4).bind d = (shopCompiler .question 4).bind q := by
  obtain ⟨q, hq, -⟩ := exists_compile_tagged .question (.inr rfl)
  obtain ⟨f, hf, -⟩ := exists_compile_tagged .percent (.inr rfl)
  obtain ⟨d, hd, -⟩ := exists_compile_tagged .dollar (.inr rfl)
  obtain ⟨-, -, halike⟩ := styles_bind_alike (c := shopCompiler .question 4)
    fun style => isLegible_tagged style 4
  obtain ⟨hpercent, hdollar, -⟩ := halike q f d hq hf hd
  exact ⟨q, f, d, hq, hf, hd, hpercent, hdollar.mpr (ownMarks_tagged .question 4)⟩

end ClauseCompiler

end SqlFragment
