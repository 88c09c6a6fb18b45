import SqlFragment.Proofs.Conjunctions

/-!
Criteria are compiled part by part: the filter, the order and the range of rows. The text of all of
them is the texts of the parts with a space between each two, and the values are those of the parts
in order.
-/
namespace SqlFragment

/-! ## Lists -/

theorem mapM_eq_ok_iff_forall₂ {ε α β : Type} {f : α → Except ε β} {xs : List α} {ys : List β} :
    xs.mapM f = .ok ys ↔ List.Forall₂ (fun x y => f x = .ok y) xs ys := by
  induction xs generalizing ys with
  | nil =>
    rw [List.forall₂_nil_left_iff, List.mapM_nil, pure_eq_ok]
    exact eq_comm
  | cons x xs ih =>
    simp only [List.mapM_cons, bind_eq_ok, pure_eq_ok, List.forall₂_cons_left_iff, ih]
    constructor
    · rintro ⟨y, hy, ys, hys, rfl⟩
      exact ⟨y, ys, hy, hys, rfl⟩
    · rintro ⟨y, ys, hy, hys, rfl⟩
      exact ⟨y, hy, ys, hys, rfl⟩

theorem exists_forall₂_map {α β γ : Type} {R : α → β → Prop} {f : β → γ} {xs : List α}
    {zs : List γ} (h : List.Forall₂ (fun x z => ∃ y, R x y ∧ f y = z) xs zs) :
    ∃ ys, List.Forall₂ R xs ys ∧ zs = ys.map f := by
  induction h with
  | nil => exact ⟨[], .nil, rfl⟩
  | cons hxz _ ih =>
    obtain ⟨y, hy, rfl⟩ := hxz
    obtain ⟨ys, hys, rfl⟩ := ih
    exact ⟨y :: ys, .cons hy hys, rfl⟩

/-! ## Lines -/

namespace Text

variable {cs ds : List Char} {b c : Char}

theorem collapseChars_concat (hb : isBlank b = false) (hc : isBlank c = false) (cs : List Char) :
    collapseChars (cs ++ [b, c]) = collapseChars (cs ++ [b]) ++ [c] := by
  have hfrom (gap : Bool) (cs : List Char) :
      collapseFrom gap (cs ++ [b, c]) = collapseFrom gap (cs ++ [b]) ++ [c] := by
    induction cs generalizing gap with
    | nil => cases gap <;> simp [collapseFrom, hb, hc]
    | cons a cs ih =>
      rw [List.cons_append, List.cons_append, collapseFrom, collapseFrom]
      split
      · exact ih true
      · split <;> simp [ih false]
  induction cs with
  | nil =>
    have := hfrom false []
    simpa [collapseChars, hb] using this
  | cons a cs ih =>
    by_cases ha : isBlank a = true
    · simpa [collapseChars, ha] using ih
    · have := hfrom false (a :: cs)
      simpa [collapseChars, ha] using this

/-- Whether characters end, and not with white space. -/
def IsFirm (cs : List Char) : Prop := ∃ zs b, cs = zs ++ [b] ∧ isBlank b = false

theorem IsFirm.append {cs : List Char} (h : IsFirm cs) (ds : List Char) : IsFirm (ds ++ cs) := by
  obtain ⟨zs, b, rfl, hb⟩ := h
  exact ⟨ds ++ zs, b, (List.append_assoc ds zs [b]).symm, hb⟩

theorem IsFirm.ne_nil {cs : List Char} (h : IsFirm cs) : collapseChars cs ≠ [] := by
  obtain ⟨zs, b, rfl, hb⟩ := h
  intro hnil
  have := collapseChars_eq_nil_iff.mp hnil b (by simp)
  rw [hb] at this
  cases this

/-- What stands behind a comma is brought on one line by itself. -/
theorem collapseChars_comma {cs ds : List Char} (hcs : IsFirm cs) (hds : IsFirm ds) :
    collapseChars (cs ++ ", ".toList ++ ds) =
      collapseChars cs ++ ", ".toList ++ collapseChars ds := by
  have hne := hcs.ne_nil
  obtain ⟨zs, b, rfl, hb⟩ := hcs
  have hcomma : collapseChars (zs ++ [b, ',']) = collapseChars (zs ++ [b]) ++ [','] :=
    collapseChars_concat hb (by decide) zs
  have happend : zs ++ [b] ++ ", ".toList ++ ds = zs ++ [b, ','] ++ ' ' :: ds := by simp
  rw [happend, collapseChars_append_blank (by decide), if_neg (by simp [hcomma]),
    if_neg hds.ne_nil, hcomma]
  simp

theorem collapseChars_order {cs : List Char} (h : IsFirm cs) :
    collapseChars (" ORDER BY ".toList ++ cs) = "ORDER BY ".toList ++ collapseChars cs := by
  have hword : collapseChars " ORDER BY".toList = "ORDER BY".toList := by decide
  have happend : " ORDER BY ".toList ++ cs = " ORDER BY".toList ++ ' ' :: cs := by simp
  rw [happend, collapseChars_append_blank (by decide), hword, if_neg (by decide),
    if_neg h.ne_nil]
  simp

end Text

/-! ## Texts with spaces between them -/

/-- Texts with a space between each two, the empty ones left out. -/
def spaced (texts : List String) : String := " ".intercalate (texts.filter (· ≠ ""))

theorem spaced_empty_cons (texts : List String) : spaced ("" :: texts) = spaced texts := rfl

theorem spaced_eq_empty_iff {texts : List String} :
    spaced texts = "" ↔ texts.filter (· ≠ "") = [] := by
  constructor
  · intro h
    by_contra hne
    obtain ⟨t, ts, hts⟩ := List.exists_cons_of_ne_nil hne
    have ht : t ≠ "" := by
      have hmem : t ∈ texts.filter (· ≠ "") := hts ▸ List.mem_cons_self
      simpa using (List.mem_filter.mp hmem).2
    rw [spaced, hts] at h
    cases ts with
    | nil => exact ht (String.intercalate_singleton.symm.trans h)
    | cons u ts =>
      rw [String.intercalate_cons_cons, String.append_eq_empty_iff,
        String.append_eq_empty_iff] at h
      exact ht h.1.1
  · intro h
    rw [spaced, h]
    rfl

theorem spaced_cons {text : String} (h : text ≠ "") (texts : List String) :
    spaced (text :: texts) =
      if spaced texts = "" then text else text ++ " " ++ spaced texts := by
  have hfilter : (text :: texts).filter (· ≠ "") = text :: texts.filter (· ≠ "") :=
    List.filter_cons_of_pos (by simpa using h)
  by_cases htexts : spaced texts = ""
  · rw [if_pos htexts, spaced, hfilter, spaced_eq_empty_iff.mp htexts]
    exact String.intercalate_singleton
  · rw [if_neg htexts, spaced, hfilter, String.intercalate_cons_of_ne_nil]
    · rfl
    · exact fun hnone => htexts (spaced_eq_empty_iff.mpr hnone)

theorem spaced_singleton (text : String) : spaced [text] = text := by
  by_cases h : text = ""
  · rw [h]
    rfl
  · exact spaced_cons h []

theorem spaced_spaced (text : String) (texts : List String) :
    spaced [text, spaced texts] = spaced (text :: texts) := by
  by_cases h : text = ""
  · rw [h, spaced_empty_cons, spaced_singleton, spaced_empty_cons]
  · rw [spaced_cons h, spaced_cons h, spaced_singleton]

theorem ofList_eq_empty_iff {cs : List Char} : String.ofList cs = "" ↔ cs = [] := by
  rw [← String.toList_inj, String.toList_ofList]
  rfl

theorem ofList_collapse_append {b : Char} (hb : Text.isBlank b = true) (cs ds : List Char) :
    String.ofList (Text.collapseChars (cs ++ b :: ds)) =
      spaced [String.ofList (Text.collapseChars cs),
        String.ofList (Text.collapseChars (b :: ds))] := by
  have hdrop : Text.collapseChars (b :: ds) = Text.collapseChars ds :=
    @Text.collapseChars_append_of_blank [b] ds (List.forall_mem_singleton.mpr hb)
  rw [hdrop, Text.collapseChars_append_blank hb]
  by_cases hcs : Text.collapseChars cs = []
  · rw [if_pos hcs, hcs]
    exact (spaced_singleton _).symm
  · rw [if_neg hcs, spaced_cons (by rwa [Ne, ofList_eq_empty_iff]), spaced_singleton]
    by_cases hds : Text.collapseChars ds = []
    · rw [if_pos hds, if_pos (ofList_eq_empty_iff.mpr hds)]
    · rw [if_neg hds, if_neg (by rwa [ofList_eq_empty_iff]), ← String.toList_inj]
      simp

/-! ## Pieces -/

namespace ClauseCompiler

variable {c : ClauseCompiler} {k : Criteria} {w : Written} {ps qs : List Piece}

/-- What pieces are compiled to. -/
structure IsWritten (c : ClauseCompiler) (ps : List Piece) (w : Written) : Prop where
  spellable : Spellable c.dialect ps
  text : w.text = c.line ps
  values : w.values = valuesOf c.style ps

theorem parts_eq_ok_iff {p? : Option Predicate} {tail : List Piece} :
    c.parts k = .ok (p?, tail) ↔ ∃ sort limit skip, c.predicate k.filter = .ok p? ∧
      c.sortPieces k.sort = .ok sort ∧ rowCount "limit" k.limit = .ok limit ∧
      rowCount "skip" k.skip = .ok skip ∧ tail = sort ++ rangePieces c.dialect skip limit := by
  unfold parts
  simp only [bind_eq_ok, pure_eq_ok, Prod.mk.injEq]
  constructor
  · rintro ⟨_, hp, sort, hsort, limit, hlimit, skip, hskip, rfl, rfl⟩
    exact ⟨sort, limit, skip, hp, hsort, hlimit, hskip, rfl⟩
  · rintro ⟨sort, limit, skip, hp, hsort, hlimit, hskip, rfl⟩
    exact ⟨_, hp, sort, hsort, limit, hlimit, skip, hskip, rfl, rfl⟩

/-- The characters of pieces where markers have no numbers. -/
def unnumberedChars (c : ClauseCompiler) (ps : List Piece) : List Char :=
  ps.flatMap fun p => (p.segments c.dialect 0 0).flatMap (Segment.chars c.dialect c.style)

theorem unnumberedChars_append (ps qs : List Piece) :
    c.unnumberedChars (ps ++ qs) = c.unnumberedChars ps ++ c.unnumberedChars qs :=
  List.flatMap_append

theorem unnumberedChars_word (w : String) (ps : List Piece) :
    c.unnumberedChars (.word w :: ps) = w.toList ++ c.unnumberedChars ps := by
  rw [unnumberedChars, List.flatMap_cons, Piece.segments, List.flatMap_singleton]
  rfl

/-- What binds nothing is written as it stands. -/
theorem isWritten_silent_iff (h : ∀ p ∈ ps, p.label? = none) :
    c.IsWritten ps w ↔ w = ⟨c.line ps, []⟩ := by
  have hvalues : valuesOf c.style ps = [] := by
    have hnone := @valuesOf_silent ps [] h c.style
    rw [List.append_nil] at hnone
    rw [hnone]
    cases c.style <;> rfl
  constructor
  · rintro ⟨-, ht, hv⟩
    rw [hvalues] at hv
    obtain ⟨text, values⟩ := w
    exact congrArg₂ Written.mk ht hv
  · rintro rfl
    refine ⟨(spellable_iff _ _).mpr ⟨?_, ?_⟩, rfl, hvalues.symm⟩
    · rw [List.filterMap_eq_nil_iff.mpr h]
      exact List.forall_mem_nil _
    · rw [List.filterMap_eq_nil_iff.mpr fun p hp => (silent h hp).2.2.1]
      exact List.forall_mem_nil _

theorem isFirm_sortTerm {key direction : Value} {t : List Piece}
    (h : c.sortTerm key direction = .ok t) :
    Text.IsFirm (c.unnumberedChars t) ∧ ∀ p ∈ t, p.label? = none := by
  obtain ⟨name, column, d, -, -, rfl⟩ := sortTerm_eq_ok h
  constructor
  · rw [unnumberedChars_append]
    refine Text.IsFirm.append ?_ _
    cases d
    · exact ⟨" AS".toList, 'C', rfl, by decide⟩
    · exact ⟨" DES".toList, 'C', rfl, by decide⟩
  · simp [Column.pieces, Piece.label?]

section Unnumbered

variable (hstyle : c.style ≠ .dollar)
include hstyle

theorem compile_eq_ok_of_unnumbered (hlegible : c.IsLegible k) : c.compile k = .ok w ↔
    ∃ p? tail, c.parts k = .ok (p?, tail) ∧ c.IsWritten (body c.dialect p? tail) w := by
  simp only [compile_eq_ok hlegible, restyled, if_neg hstyle, Except.ok.injEq]
  constructor
  · rintro ⟨p?, tail, hparts, hspell, htext, hvalues⟩
    exact ⟨p?, tail, hparts, hspell, htext.symm, hvalues⟩
  · rintro ⟨p?, tail, hparts, hspell, htext, hvalues⟩
    exact ⟨p?, tail, hparts, hspell, htext.symm, hvalues⟩

theorem line_eq (ps : List Piece) : c.line ps =
    String.ofList (Text.collapseChars (c.unnumberedChars ps)) := by
  rw [line, chars_segmentsOf hstyle]
  rfl

/-- A clause is brought on one line by itself. -/
theorem line_append (hqs : StartsClause c.dialect qs) :
    c.line (ps ++ qs) = spaced [c.line ps, c.line qs] := by
  rcases hqs with rfl | ⟨w, qs, hw, rfl⟩
  · rw [List.append_nil]
    exact ((spaced_spaced _ []).trans (spaced_singleton _)).symm
  · obtain ⟨b, bs, hbs, hb⟩ : ∃ b bs, w.toList = b :: bs ∧ Text.isBlank b = true := by
      rcases hw with rfl | rfl
      · exact ⟨_, _, rfl, rfl⟩
      · cases c.dialect <;> exact ⟨_, _, rfl, rfl⟩
    rw [line_eq hstyle, line_eq hstyle, line_eq hstyle, unnumberedChars_append,
      unnumberedChars_word, hbs]
    exact ofList_collapse_append hb _ _

/-- Pieces and the clauses behind them are written by themselves. -/
theorem isWritten_append_iff (hqs : StartsClause c.dialect qs) :
    c.IsWritten (ps ++ qs) w ↔ ∃ w₁ w₂, c.IsWritten ps w₁ ∧ c.IsWritten qs w₂ ∧
      w.text = spaced [w₁.text, w₂.text] ∧ w.values = w₁.values ++ w₂.values := by
  have htext := @line_append c ps qs hstyle hqs
  have hvalues := valuesOf_append hstyle ps qs
  constructor
  · intro h
    obtain ⟨hleft, hright⟩ := (spellable_append_iff _ _ _).mp h.spellable
    exact ⟨⟨_, _⟩, ⟨_, _⟩, ⟨hleft, rfl, rfl⟩, ⟨hright, rfl, rfl⟩, h.text.trans htext,
      h.values.trans hvalues⟩
  · rintro ⟨w₁, w₂, h₁, h₂, ht, hv⟩
    refine ⟨(spellable_append_iff _ _ _).mpr ⟨h₁.spellable, h₂.spellable⟩, ?_, ?_⟩
    · rw [ht, h₁.text, h₂.text, htext]
    · rw [hv, h₁.values, h₂.values, hvalues]

/-! ### Parts of criteria -/

theorem compile_filter_iff {filter : Value} (hlegible : c.IsLegible { filter }) :
    c.compile { filter } = .ok w ↔
      ∃ p?, c.predicate filter = .ok p? ∧ c.IsWritten (body c.dialect p? []) w := by
  rw [compile_eq_ok_of_unnumbered hstyle hlegible, parts_filter]
  simp only [map_eq_ok, Prod.mk.injEq]
  constructor
  · rintro ⟨_, _, ⟨p?, hp, rfl, rfl⟩, hw⟩
    exact ⟨p?, hp, hw⟩
  · rintro ⟨p?, hp, hw⟩
    exact ⟨p?, [], ⟨p?, hp, rfl, rfl⟩, hw⟩

theorem compile_sort_iff {sort : Value} (hlegible : c.IsLegible { sort }) :
    c.compile { sort } = .ok w ↔ ∃ ps, c.sortPieces sort = .ok ps ∧ c.IsWritten ps w := by
  rw [compile_eq_ok_of_unnumbered hstyle hlegible]
  simp only [parts_eq_ok_iff]
  have hbody (ps : List Piece) :
      body c.dialect none (ps ++ rangePieces c.dialect none none) = ps := List.append_nil ps
  constructor
  · rintro ⟨p?, tail, ⟨ps, limit, skip, hp, hps, hlimit, hskip, rfl⟩, hw⟩
    obtain rfl : none = p? := Except.ok.inj hp
    obtain rfl : none = limit := Except.ok.inj hlimit
    obtain rfl : none = skip := Except.ok.inj hskip
    rw [hbody] at hw
    exact ⟨ps, hps, hw⟩
  · rintro ⟨ps, hps, hw⟩
    refine ⟨none, _, ⟨ps, none, none, rfl, hps, rfl, rfl, rfl⟩, ?_⟩
    rwa [hbody]

theorem compile_range_iff {skip limit : Value} (hlegible : c.IsLegible { skip, limit }) :
    c.compile { skip, limit } = .ok w ↔ ∃ limit? skip?, rowCount "limit" limit = .ok limit? ∧
      rowCount "skip" skip = .ok skip? ∧ c.IsWritten (rangePieces c.dialect skip? limit?) w := by
  rw [compile_eq_ok_of_unnumbered hstyle hlegible]
  simp only [parts_eq_ok_iff]
  constructor
  · rintro ⟨p?, tail, ⟨ps, limit?, skip?, hp, hps, hlimit, hskip, rfl⟩, hw⟩
    obtain rfl : none = p? := Except.ok.inj hp
    obtain rfl : [] = ps := Except.ok.inj hps
    exact ⟨limit?, skip?, hlimit, hskip, hw⟩
  · rintro ⟨limit?, skip?, hlimit, hskip, hw⟩
    exact ⟨none, _, ⟨[], limit?, skip?, rfl, rfl, hlimit, hskip, rfl⟩, hw⟩

/-! ### Orders -/

theorem line_joinPieces {terms : List (List Piece)} (filled : terms ≠ [])
    (hfirm : ∀ t ∈ terms, Text.IsFirm (c.unnumberedChars t)) :
    c.line (joinPieces (.word ", ") terms) = ", ".intercalate (terms.map c.line) ∧
      Text.IsFirm (c.unnumberedChars (joinPieces (.word ", ") terms)) := by
  induction terms with
  | nil => contradiction
  | cons t terms ih =>
    obtain ⟨ht, hterms⟩ := List.forall_mem_cons.mp hfirm
    cases terms with
    | nil => exact ⟨String.intercalate_singleton.symm, ht⟩
    | cons t' terms =>
      obtain ⟨hline, hrest⟩ := ih (List.cons_ne_nil _ _) hterms
      have hchars : c.unnumberedChars (joinPieces (.word ", ") (t :: t' :: terms)) =
          c.unnumberedChars t ++ ", ".toList ++
            c.unnumberedChars (joinPieces (.word ", ") (t' :: terms)) := by
        change c.unnumberedChars (t ++ .word ", " :: joinPieces (.word ", ") (t' :: terms)) = _
        rw [unnumberedChars_append, unnumberedChars_word, List.append_assoc]
      constructor
      · have hmap : (t' :: terms).map c.line ≠ [] := mt List.map_eq_nil_iff.mp (List.cons_ne_nil _ _)
        rw [List.map_cons, String.intercalate_cons_of_ne_nil hmap, ← hline]
        rw [line_eq hstyle, line_eq hstyle t, line_eq hstyle (joinPieces _ _), hchars,
          Text.collapseChars_comma ht hrest, ← String.toList_inj]
        simp only [String.toList_append, String.toList_ofList]
      · rw [hchars]
        exact hrest.append _

theorem line_order {ps : List Piece} (hfirm : Text.IsFirm (c.unnumberedChars ps)) :
    c.line (.word " ORDER BY " :: ps) = "ORDER BY " ++ c.line ps := by
  rw [line_eq hstyle, line_eq hstyle ps, unnumberedChars_word, Text.collapseChars_order hfirm,
    ← String.toList_inj]
  simp only [String.toList_append, String.toList_ofList]

theorem compile_order_eq_ok_iff {es : Entries} (filled : es ≠ [])
    (hlegible : c.IsLegible { sort := .map es }) :
    c.compile { sort := .map es } = .ok w ↔
      ∃ terms, List.Forall₂ (fun e t => c.sortTerm e.1 e.2 = .ok t) es terms ∧
        w = ⟨"ORDER BY " ++ ", ".intercalate (terms.map c.line), []⟩ := by
  have hpieces : c.sortPieces (.map es) = (es.mapM fun e => c.sortTerm e.1 e.2).map fun terms =>
      .word " ORDER BY " :: joinPieces (.word ", ") terms := by
    have htruthy : (Value.map es).isTruthy = true := by
      cases es with
      | nil => contradiction
      | cons e es => rfl
    rw [sortPieces, if_neg (by simp [htruthy])]
    rfl
  rw [compile_sort_iff hstyle hlegible, hpieces]
  simp only [map_eq_ok, mapM_eq_ok_iff_forall₂]
  have hwritten {terms : List (List Piece)}
      (h : List.Forall₂ (fun (e : Value × Value) t => c.sortTerm e.1 e.2 = .ok t) es terms) :
      c.IsWritten (.word " ORDER BY " :: joinPieces (.word ", ") terms) w ↔
        w = ⟨"ORDER BY " ++ ", ".intercalate (terms.map c.line), []⟩ := by
    have hterm : ∀ t ∈ terms, Text.IsFirm (c.unnumberedChars t) ∧ ∀ p ∈ t, p.label? = none := by
      intro t ht
      obtain ⟨e, -, he⟩ := exists_of_mem_mapM (mapM_eq_ok_iff_forall₂.mpr h) t ht
      exact isFirm_sortTerm he
    have hne : terms ≠ [] := by
      rintro rfl
      exact filled (List.forall₂_nil_right_iff.mp h)
    obtain ⟨hline, hfirm⟩ := line_joinPieces hstyle hne fun t ht => (hterm t ht).1
    rw [isWritten_silent_iff, line_order hstyle hfirm, hline]
    refine List.forall_mem_cons.mpr ⟨rfl, fun p hp => ?_⟩
    rcases eq_or_mem_of_joinPieces hp with rfl | ⟨t, ht, hp⟩
    · rfl
    · exact (hterm t ht).2 p hp
  constructor
  · rintro ⟨_, ⟨terms, hterms, rfl⟩, hw⟩
    exact ⟨terms, hterms, (hwritten hterms).mp hw⟩
  · rintro ⟨terms, hterms, hw⟩
    exact ⟨_, ⟨terms, hterms, rfl⟩, (hwritten hterms).mpr hw⟩

/-- One entry after the other is compiled, with a comma between each two. -/
theorem compile_order_iff {es : Entries} (filled : es ≠ [])
    (hlegible : c.IsLegible { sort := .map es })
    (heach : ∀ e ∈ es, c.IsLegible { sort := .map [e] }) :
    c.compile { sort := .map es } = .ok w ↔ ∃ terms, List.Forall₂ (fun e term =>
        c.compile { sort := .map [e] } = .ok ⟨"ORDER BY " ++ term, []⟩) es terms ∧
      w = ⟨"ORDER BY " ++ ", ".intercalate terms, []⟩ := by
  have hone : ∀ e ∈ es, ∀ term : String,
      c.compile { sort := .map [e] } = .ok ⟨"ORDER BY " ++ term, []⟩ ↔
        ∃ t, c.sortTerm e.1 e.2 = .ok t ∧ c.line t = term := by
    intro e he term
    rw [compile_order_eq_ok_iff hstyle (List.cons_ne_nil e []) (heach e he)]
    simp only [List.forall₂_cons_left_iff, List.forall₂_nil_left_iff, Written.mk.injEq]
    constructor
    · rintro ⟨_, ⟨t, _, ht, rfl, rfl⟩, hterm, -⟩
      rw [List.map_singleton, String.intercalate_singleton] at hterm
      exact ⟨t, ht, (String.append_right_inj _).mp hterm.symm⟩
    · rintro ⟨t, ht, rfl⟩
      exact ⟨[t], ⟨t, [], ht, rfl, rfl⟩, by simp, trivial⟩
  rw [compile_order_eq_ok_iff hstyle filled hlegible]
  simp only [forall₂_congr hone]
  constructor
  · rintro ⟨terms, hterms, rfl⟩
    refine ⟨terms.map c.line, ?_, rfl⟩
    exact List.forall₂_map_right_iff.mpr (hterms.imp fun e t ht => ⟨t, ht, rfl⟩)
  · rintro ⟨texts, htexts, rfl⟩
    obtain ⟨terms, hterms, rfl⟩ := exists_forall₂_map htexts
    exact ⟨terms, hterms, rfl⟩

/-! ### Criteria -/

theorem compile_parts_iff (hlegible : c.IsLegible k) (hfilter : c.IsLegible { filter := k.filter })
    (hsort : c.IsLegible { sort := k.sort })
    (hrange : c.IsLegible { skip := k.skip, limit := k.limit }) :
    c.compile k = .ok w ↔ ∃ w₁ w₂ w₃, c.compile { filter := k.filter } = .ok w₁ ∧
      c.compile { sort := k.sort } = .ok w₂ ∧
      c.compile { skip := k.skip, limit := k.limit } = .ok w₃ ∧
      w.text = spaced [w₁.text, w₂.text, w₃.text] ∧
      w.values = w₁.values ++ w₂.values ++ w₃.values := by
  simp only [compile_filter_iff hstyle hfilter, compile_sort_iff hstyle hsort,
    compile_range_iff hstyle hrange]
  rw [compile_eq_ok_of_unnumbered hstyle hlegible]
  simp only [parts_eq_ok_iff]
  have hbody (p? : Option Predicate) (tail : List Piece) :
      body c.dialect p? tail = body c.dialect p? [] ++ tail := by
    rw [body, body, List.append_nil]
  constructor
  · rintro ⟨p?, _, ⟨ps, limit?, skip?, hp, hps, hlimit, hskip, rfl⟩, hw⟩
    have hstart := (tidy_rangePieces c.dialect skip? limit?).2
    rw [hbody, isWritten_append_iff hstyle ((tidy_sortPieces hps).2.append hstart)] at hw
    obtain ⟨w₁, w', h₁, h', ht, hv⟩ := hw
    obtain ⟨w₂, w₃, h₂, h₃, ht', hv'⟩ := (isWritten_append_iff hstyle hstart).mp h'
    refine ⟨w₁, w₂, w₃, ⟨p?, hp, h₁⟩, ⟨ps, hps, h₂⟩, ⟨limit?, skip?, hlimit, hskip, h₃⟩, ?_, ?_⟩
    · rw [ht, ht', spaced_spaced]
    · rw [hv, hv', List.append_assoc]
  · rintro ⟨w₁, w₂, w₃, ⟨p?, hp, h₁⟩, ⟨ps, hps, h₂⟩, ⟨limit?, skip?, hlimit, hskip, h₃⟩, ht, hv⟩
    have hstart := (tidy_rangePieces c.dialect skip? limit?).2
    refine ⟨p?, _, ⟨ps, limit?, skip?, hp, hps, hlimit, hskip, rfl⟩, ?_⟩
    rw [hbody, isWritten_append_iff hstyle ((tidy_sortPieces hps).2.append hstart)]
    refine ⟨w₁, ⟨spaced [w₂.text, w₃.text], w₂.values ++ w₃.values⟩, h₁, ?_, ?_, ?_⟩
    · exact (isWritten_append_iff hstyle hstart).mpr ⟨w₂, w₃, h₂, h₃, rfl, rfl⟩
    · rw [ht, spaced_spaced]
    · rw [hv, List.append_assoc]

/-- Where statements are read as they are written, criteria are compiled if their filter, their order
and their range of rows are: their text is the three texts with a space between each two, and their
values are those of the three. An order is compiled entry by entry. -/
theorem compile_clauses_iff (hlegible : c.IsLegible k)
    (hfilter : c.IsLegible { filter := k.filter }) (hsort : c.IsLegible { sort := k.sort })
    (hrange : c.IsLegible { skip := k.skip, limit := k.limit }) :
    (∀ w, c.compile k = .ok w ↔ ∃ w₁ w₂ w₃, c.compile { filter := k.filter } = .ok w₁ ∧
      c.compile { sort := k.sort } = .ok w₂ ∧
      c.compile { skip := k.skip, limit := k.limit } = .ok w₃ ∧
      w.text = spaced [w₁.text, w₂.text, w₃.text] ∧
      w.values = w₁.values ++ w₂.values ++ w₃.values) ∧
    ∀ es, k.sort = .map es → es ≠ [] → (∀ e ∈ es, c.IsLegible { sort := .map [e] }) →
      ∀ w, c.compile { sort := k.sort } = .ok w ↔
        ∃ terms, List.Forall₂ (fun e term =>
            c.compile { sort := .map [e] } = .ok ⟨"ORDER BY " ++ term, []⟩) es terms ∧
          w = ⟨"ORDER BY " ++ ", ".intercalate terms, []⟩ := by
  refine ⟨fun w => compile_parts_iff hstyle hlegible hfilter hsort hrange, ?_⟩
  intro es hes filled heach w
  rw [hes] at hsort ⊢
  exact compile_order_iff hstyle filled hsort heach

end Unnumbered

end ClauseCompiler

/-! ## Sales -/

/-- The first sales with a tag, in an order of two columns. -/
def firstNew : Criteria where
  filter := .map [(.text "tag", .text "new")]
  sort := .map [(.text "origin", .int 1), (.text "id", .int (-1))]
  limit := .int 3

theorem compile_new : (shopCompiler .question 1).compile
    { filter := .map [(.text "tag", .text "new")] } =
      .ok ⟨"\"sales\".\"tag\" = ?", [.text "new"]⟩ := by
  have hclauses : (shopCompiler .question 1).clauses
      { filter := .map [(.text "tag", .text "new")] } =
        .ok (["sales"], [.word " \nWHERE ", .name "sales", .word ".", .name "tag", .word " = ",
          .marker "param" (.text "new")]) := by
    cbv
  rw [ClauseCompiler.compile, hclauses]
  rfl

theorem compile_byOrigin : (shopCompiler .question 1).compile
    { sort := .map [(.text "origin", .int 1)] } =
      .ok ⟨"ORDER BY " ++ "\"sales\".\"origin\" ASC", []⟩ := by
  have hclauses : (shopCompiler .question 1).clauses { sort := .map [(.text "origin", .int 1)] } =
      .ok (["sales"], [.word " ORDER BY ", .name "sales", .word ".", .name "origin",
        .word " ASC"]) := by
    cbv
  rw [ClauseCompiler.compile, hclauses]
  rfl

theorem compile_lastId : (shopCompiler .question 1).compile
    { sort := .map [(.text "id", .int (-1))] } =
      .ok ⟨"ORDER BY " ++ "\"sales\".\"id\" DESC", []⟩ := by
  have hclauses : (shopCompiler .question 1).clauses { sort := .map [(.text "id", .int (-1))] } =
      .ok (["sales"], [.word " ORDER BY ", .name "sales", .word ".", .name "id",
        .word " DESC"]) := by
    cbv
  rw [ClauseCompiler.compile, hclauses]
  rfl

theorem compile_three : (shopCompiler .question 1).compile { limit := .int 3 } =
    .ok ⟨"LIMIT ?", [.int 3]⟩ := by
  have hclauses : (shopCompiler .question 1).clauses { limit := .int 3 } =
      .ok (["sales"], [.word "\n LIMIT ", .marker "param" (.int 3)]) := by
    cbv
  rw [ClauseCompiler.compile, hclauses]
  rfl

theorem compile_clauses_sales : (shopCompiler .question 1).style ≠ .dollar ∧
    (∀ k, (shopCompiler .question 1).IsLegible k) ∧
    (shopCompiler .question 1).compile firstNew =
      .ok ⟨"\"sales\".\"tag\" = ? ORDER BY \"sales\".\"origin\" ASC, \"sales\".\"id\" DESC LIMIT ?",
        [.text "new", .int 3]⟩ := by
  have hlegible (k : Criteria) : (shopCompiler .question 1).IsLegible k :=
    ClauseCompiler.isLegible_of_catalog isPlain_shop (by decide : IsPlainName "sales")
  have hstyle : (shopCompiler .question 1).style ≠ .dollar := by decide
  obtain ⟨hparts, horder⟩ := @ClauseCompiler.compile_clauses_iff _ firstNew hstyle (hlegible _)
    (hlegible _) (hlegible _) (hlegible _)
  have hsort := (horder _ rfl (List.cons_ne_nil _ _) (fun e _ => hlegible _) _).mpr
    ⟨_, .cons compile_byOrigin (.cons compile_lastId .nil), rfl⟩
  exact ⟨hstyle, hlegible, (hparts _).mpr ⟨_, _, _, compile_new, hsort, compile_three, rfl, rfl⟩⟩

end SqlFragment
