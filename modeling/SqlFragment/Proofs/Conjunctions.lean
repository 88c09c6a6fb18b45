import SqlFragment.Proofs.Lookups
import SqlFragment.Proofs.Shorthands

/-!
A filter of several entries is compiled as the conjunction of its entries: its text is that of its
entries with `AND` between them, and it binds their values in order.
-/
namespace SqlFragment

/-! ## Lines -/

namespace Text

variable {cs ds : List Char} {b : Char}

theorem collapseFrom_append_blank (hb : isBlank b = true) (gap : Bool) (cs ds : List Char) :
    collapseFrom gap (cs ++ b :: ds) = collapseFrom gap cs ++ collapseFrom true ds := by
  induction cs generalizing gap with
  | nil => simp [collapseFrom, hb]
  | cons c cs ih =>
    rw [List.cons_append, collapseFrom, collapseFrom]
    split
    · exact ih true
    · split
      · rw [ih false, List.cons_append, List.cons_append]
      · rw [ih false, List.cons_append]

/-- Nothing is left of white space only. -/
theorem collapseChars_eq_nil_iff : collapseChars cs = [] ↔ ∀ c ∈ cs, isBlank c = true := by
  rw [← List.dropWhile_eq_nil_iff, collapseChars]
  constructor
  · intro h
    by_contra hdrop
    obtain ⟨c, rest, hrest⟩ := List.exists_cons_of_ne_nil hdrop
    have hc : isBlank c = false := by
      have := List.head_dropWhile_not isBlank hdrop
      simpa [hrest] using this
    rw [hrest, collapseFrom, if_neg (by simp [hc])] at h
    cases h
  · intro h
    rw [h]
    rfl

theorem collapseChars_ne_nil_iff : collapseChars cs ≠ [] ↔ ∃ c ∈ cs, isBlank c = false := by
  simp [collapseChars_eq_nil_iff]

theorem collapseChars_append_of_blank (h : ∀ c ∈ cs, isBlank c = true) :
    collapseChars (cs ++ ds) = collapseChars ds := by
  rw [collapseChars, List.dropWhile_append, List.dropWhile_eq_nil_iff.mpr h]
  rfl

/-- Two parts of a text with white space between them are brought on one line by themselves. -/
theorem collapseChars_append_blank (hb : isBlank b = true) (cs ds : List Char) :
    collapseChars (cs ++ b :: ds) =
      if collapseChars cs = [] then collapseChars ds
      else if collapseChars ds = [] then collapseChars cs
      else collapseChars cs ++ ' ' :: collapseChars ds := by
  by_cases hcs : collapseChars cs = []
  · rw [if_pos hcs, collapseChars_append_of_blank (collapseChars_eq_nil_iff.mp hcs),
      ← List.singleton_append, collapseChars_append_of_blank (List.forall_mem_singleton.mpr hb)]
  · rw [if_neg hcs, collapseChars, List.dropWhile_append,
      dropWhile_isEmpty (collapseChars_ne_nil_iff.mp hcs), if_neg Bool.false_ne_true,
      collapseFrom_append_blank hb, collapseFrom_true]
    by_cases hds : collapseChars ds = []
    · rw [if_pos hds, List.dropWhile_eq_nil_iff.mpr (collapseChars_eq_nil_iff.mp hds)]
      simp [collapseChars]
    · rw [if_neg hds, dropWhile_isEmpty (collapseChars_ne_nil_iff.mp hds), if_neg Bool.false_ne_true]
      rfl

/-- Parts of a text that are not white space are brought on one line by themselves. -/
theorem collapseChars_and (hcs : collapseChars cs ≠ []) (hds : collapseChars ds ≠ []) :
    collapseChars (cs ++ " AND ".toList ++ ds) =
      collapseChars cs ++ " AND ".toList ++ collapseChars ds := by
  have hword : collapseChars "AND".toList = "AND".toList := by decide
  have happend : cs ++ " AND ".toList ++ ds = cs ++ ' ' :: ("AND".toList ++ ' ' :: ds) := by simp
  have hline : collapseChars ("AND".toList ++ ' ' :: ds) =
      "AND".toList ++ ' ' :: collapseChars ds := by
    rw [collapseChars_append_blank (by decide), hword, if_neg (by decide), if_neg hds]
  rw [happend, collapseChars_append_blank (by decide), hline, if_neg hcs, if_neg (by simp)]
  simp

end Text

/-! ## Names of markers -/

/-- Whether the names for a label are spelled as they are, whatever their numbers. -/
def IsSpelledLabel (limit : Nat) (label : String) : Prop :=
  ∀ c ∈ label.toList.take (limit - 6), slotChar c = c

theorem spelled_eq_iff (name : String) : spelled name = name ↔ ∀ c ∈ name.toList, slotChar c = c := by
  have hmap (cs : List Char) : cs.map slotChar = cs ↔ ∀ c ∈ cs, slotChar c = c := by
    induction cs with
    | nil => simp
    | cons c cs ih => simp [ih]
  rw [← hmap, spelled, ← String.toList_inj, String.toList_ofList]

theorem slotChar_toDigits {base : Nat} (h : 1 < base) (hle : base ≤ 16) (n : Nat) :
    ∀ c ∈ '_' :: Nat.toDigits base n, slotChar c = c := by
  have hd : ∀ k < 16, slotChar (Nat.digitChar k) = Nat.digitChar k := by decide
  refine List.forall_mem_cons.mpr ⟨rfl, fun c hc => ?_⟩
  obtain ⟨k, hk, rfl⟩ := exists_of_mem_toDigits h hc
  exact hd k (by omega)

theorem spelled_cutName_iff (limit : Nat) (label : String) (n k : Nat) :
    spelled (cutName limit (numberedName label n) k) = cutName limit (numberedName label n) k ↔
      IsSpelledLabel limit label := by
  rw [spelled_eq_iff, cutName, String.toList_ofList, toList_numberedName, List.take_append,
    List.append_assoc]
  constructor
  · intro h c hc
    exact h c (List.mem_append_left _ hc)
  · intro h
    refine List.forall_mem_append.mpr ⟨h, List.forall_mem_append.mpr ⟨fun c hc => ?_, ?_⟩⟩
    · exact slotChar_toDigits (by decide) (by decide) n c (List.mem_of_mem_take hc)
    · exact slotChar_toDigits (by decide) (by decide) k

theorem spelled_numberedName_iff {limit : Nat} {label : String} {n : Nat}
    (h : (numberedName label n).length + 6 ≤ limit) :
    spelled (numberedName label n) = numberedName label n ↔ IsSpelledLabel limit label := by
  have hlength : label.toList.length ≤ limit - 6 := by
    have hname : (numberedName label n).length =
        label.toList.length + (Nat.toDigits 10 n).length + 1 := by
      rw [← String.length_toList, toList_numberedName]
      simp [Nat.add_assoc]
    omega
  rw [spelled_eq_iff, toList_numberedName, IsSpelledLabel, List.take_of_length_le hlength,
    List.forall_mem_append]
  exact and_iff_left (slotChar_toDigits (by decide) (by decide) n)

theorem spelled_slotNamesFrom_iff (limit : Nat) (seen : List String) (cuts : Nat)
    (labels : List String) :
    (∀ n ∈ slotNamesFrom limit seen cuts labels, spelled n = n) ↔
      ∀ label ∈ labels, IsSpelledLabel limit label := by
  induction labels generalizing seen cuts with
  | nil => simp [slotNamesFrom]
  | cons label labels ih =>
    rw [slotNamesFrom, List.forall_mem_cons]
    split
    · rw [List.forall_mem_cons, ih]
      exact and_congr_left fun _ => spelled_cutName_iff limit label _ _
    · rename_i hshort
      rw [List.forall_mem_cons, ih]
      exact and_congr_left fun _ => spelled_numberedName_iff (by exact Nat.le_of_not_lt hshort)

/-! ## Words in lower case -/

namespace Text

/-- Whether a character is below the accented letters, and no capital. -/
def isLow (c : Char) : Bool := c.toNat < 0x41 || 0x5a < c.toNat && c.toNat < 0xc0

theorem lowerChar_of_isLow {c : Char} (h : isLow c = true) : lowerChar c = c := by
  have haccented : ∀ r ∈ lowerRules.tail, 0xc0 ≤ r.1 := by decide +kernel
  simp only [isLow, Bool.or_eq_true, Bool.and_eq_true, decide_eq_true_eq] at h
  unfold lowerChar
  split
  · rename_i first last step offset hfound
    have hfirst := List.find?_some hfound
    simp only [Bool.and_eq_true, decide_eq_true_eq] at hfirst
    rcases List.mem_cons.mp (List.mem_of_find?_eq_some hfound) with heq | hmem
    · cases heq
      rcases h with h | h <;> omega
    · have := haccented _ hmem
      rcases h with h | h <;> omega
  · rfl

theorem lowerFrom_of_isLow {cs : List Char} (h : cs.all isLow = true) (before : List Char) :
    lowerFrom before cs = cs := by
  induction cs generalizing before with
  | nil => rfl
  | cons c cs ih =>
    rw [List.all_cons, Bool.and_eq_true] at h
    obtain ⟨hc, hcs⟩ := h
    have hsigma : c ≠ 'Σ' := by
      rintro rfl
      exact absurd hc (by decide)
    have hdotted : c ≠ 'İ' := by
      rintro rfl
      exact absurd hc (by decide)
    rw [lowerFrom, if_neg hsigma, if_neg hdotted, lowerChar_of_isLow hc, ih hcs]
    rfl

theorem lower_eq_self {s : String} (h : s.toList.all isLow = true) : lower s = s := by
  rw [lower, lowerFrom_of_isLow h, String.ofList_toList]

/-- What a number or a value with members begins with. -/
def openings : List Char :=
  ['-', '0', '1', '2', '3', '4', '5', '6', '7', '8', '9', '[', '(', '\x7b']

theorem head?_lower {s : String} {c : Char} (h : s.toList.head? = some c) (hc : c ∈ openings) :
    (lower s).toList.head? = some c := by
  have hplain : openings.all (fun c => isLow c && c != 'Σ' && c != 'İ') = true := by decide
  have hc := List.all_eq_true.mp hplain c hc
  simp only [Bool.and_eq_true, bne_iff_ne] at hc
  obtain ⟨⟨hlow, hsigma⟩, hdotted⟩ := hc
  obtain ⟨cs, hcs⟩ := List.head?_eq_some_iff.mp h
  rw [lower, String.toList_ofList, hcs, lowerFrom, if_neg hsigma, if_neg hdotted,
    lowerChar_of_isLow hlow]
  rfl

end Text

/-! ## Words of nodes -/

/-- A value that cannot be written is a number, or has members. -/
theorem Value.exists_opening {v : Value} (h : v.isWritable = false) :
    ∃ c ∈ Text.openings, v.display.toList.head? = some c := by
  have hbrackets (c : Char) (s close : String) :
      (String.ofList [c] ++ s ++ close).toList.head? = some c := by
    simp
  have hdigits (n : Nat) : ∃ c ∈ Text.openings, (Nat.toDigits 10 n).head? = some c := by
    have hdigit : ∀ k < 10, Nat.digitChar k ∈ Text.openings := by decide
    have hlength : 0 < (Nat.toDigits 10 n).length := Nat.length_toDigits_pos
    obtain ⟨c, cs, hcs⟩ := List.exists_cons_of_length_pos hlength
    obtain ⟨k, hk, rfl⟩ := exists_of_mem_toDigits (by decide) (hcs ▸ List.mem_cons_self)
    exact ⟨_, hdigit k hk, congrArg List.head? hcs⟩
  cases v with
  | int n =>
    have hdisplay : (int n).display = toString n := rfl
    rw [hdisplay, toList_toString_int]
    split
    · exact hdigits _
    · exact ⟨'-', by decide, rfl⟩
  | list xs => exact ⟨'[', by decide, hbrackets '[' _ _⟩
  | tuple xs =>
    refine ⟨'(', by decide, ?_⟩
    -- a tuple of one has a comma behind it
    rcases xs with _ | ⟨x, _ | ⟨y, ys⟩⟩ <;> exact hbrackets '(' _ _
  | set xs =>
    refine ⟨'\x7b', by decide, ?_⟩
    cases xs with
    | nil => cases h
    | cons x xs => exact hbrackets '\x7b' _ _
  | map es => exact ⟨'\x7b', by decide, hbrackets '\x7b' _ _⟩
  | _ => cases h

/-- No word of an operator stands for a value that cannot be written. -/
theorem Filter.isWritable_of_word {es : Entries} (h : nodeWord es ∈ operatorNames) :
    (Value.get es "op").isWritable = true := by
  have hnames : operatorNames.all (fun w => w.toList.head?.all fun c => !Text.openings.contains c) =
      true := by decide
  rw [← Bool.not_eq_false]
  intro hop
  obtain ⟨c, hc, hhead⟩ := Value.exists_opening hop
  suffices hword : (nodeWord es).toList.head? = some c by
    have hname := List.all_eq_true.mp hnames _ h
    simp [hword, hc] at hname
  cases hv : Value.lookup "op" es with
  | none =>
    rw [Value.get, hv] at hop
    cases hop
  | some v =>
    rw [Value.get, hv] at hhead
    rw [Filter.nodeWord, hv]
    exact Text.head?_lower hhead hc

/-! ## Nodes read at any place -/

namespace Filter

variable {α : Type} {leaf : Leaf → Except Error α}

theorem leafOf_anywhere {path : Path} {es : Entries} {l : Leaf} (h : leafOf path es = .ok l)
    (q : Path) : leafOf q es = .ok l :=
  Tree.leafOf_eq_ok_iff.mpr (Tree.leafOf_eq_ok_iff.mp h)

theorem ofName?_leafNode (op : Operator) (field operand : Value) :
    Connective.ofName? (nodeWord [(.text "op", .text op.name), (.text "attr", field),
      (.text "val", operand)]) = none := by
  have hwords : ∀ op ∈ Operator.all, op.name.toList.all Text.isLow = true ∧
      Connective.ofName? op.name = none := by decide
  obtain ⟨hlow, hname⟩ := hwords op (Operator.mem_all op)
  simpa [nodeWord, Value.lookup, Value.display, Text.lower_eq_self hlow] using hname

theorem ofName?_groupNode (c : Connective) (nodes : List Value) :
    Connective.ofName? (nodeWord [(.text "op", .text c.name), (.text "conditions", .list nodes)]) =
      some c := by
  have hlow : c.name.toList.all Text.isLow = true := by
    cases c <;> decide
  have hname : Connective.ofName? c.name = some c := by
    cases c <;> decide
  simpa [nodeWord, Value.lookup, Value.display, Text.lower_eq_self hlow] using hname

theorem read_groupNode (path : Path) (c : Connective) {nodes : List Value} (filled : nodes ≠ []) :
    Tree.read leaf path (groupNode c nodes) =
      (Tree.readFrom leaf path 0 nodes).map (Tree.ofGroup c) :=
  Tree.read_group (ofName?_groupNode c nodes) (by simp [Value.lookup]) filled

mutual

/-- A node that is read anywhere is read everywhere, and the same. -/
theorem IsNode.read_anywhere : ∀ {node : Value} {leaves : List Value}, IsNode node leaves →
    ∀ {path t}, Tree.read leaf path node = .ok t → ∀ q, Tree.read leaf q node = .ok t
  | _, _, @IsNode.leaf op field operand _, path, t, h, q => by
    have word := ofName?_leafNode op field operand
    rw [leafNode, Tree.read_leaf word, map_eq_ok] at h
    obtain ⟨a, ha, rfl⟩ := h
    obtain ⟨l, hl, ha⟩ := bind_eq_ok.mp ha
    rw [leafNode, Tree.read_leaf word, leafOf_anywhere hl q, ok_bind, ha]
    rfl
  | _, _, @IsNode.all nodes _ many each, path, t, h, q => by
    have filled : nodes ≠ [] := List.length_pos_iff.mp (by omega)
    rw [read_groupNode _ _ filled, map_eq_ok] at h
    obtain ⟨ts, hts, rfl⟩ := h
    rw [read_groupNode _ _ filled, each.readFrom_anywhere hts]
    rfl
  | _, _, @IsNode.any nodes _ filled each, path, t, h, q => by
    rw [read_groupNode _ _ filled, map_eq_ok] at h
    obtain ⟨ts, hts, rfl⟩ := h
    rw [read_groupNode _ _ filled, each.readFrom_anywhere hts]
    rfl

theorem AreNodes.readFrom_anywhere : ∀ {nodes leaves : List Value}, AreNodes nodes leaves →
    ∀ {path i ts}, Tree.readFrom leaf path i nodes = .ok ts →
      ∀ {q j}, Tree.readFrom leaf q j nodes = .ok ts
  | _, _, .nil, path, i, ts, h, q, j => by
    rw [Tree.readFrom] at h ⊢
    exact h
  | _, _, .cons first others, path, i, ts, h, q, j => by
    rw [Tree.readFrom] at h ⊢
    simp only [bind_eq_ok, pure_eq_ok] at h
    obtain ⟨t, ht, ts, hts, rfl⟩ := h
    rw [first.read_anywhere ht, others.readFrom_anywhere hts]
    rfl

end

theorem mapM_read_eq_ok_iff {nodes leaves : List Value} (h : AreNodes nodes leaves) {path : Path}
    {i : Nat} {ts : List (Tree α)} :
    nodes.mapM (Tree.read leaf path) = .ok ts ↔ Tree.readFrom leaf path i nodes = .ok ts := by
  induction nodes generalizing leaves i ts with
  | nil =>
    rw [Tree.readFrom]
    rfl
  | cons node nodes ih =>
    cases h with
    | cons first others =>
      rw [List.mapM_cons, Tree.readFrom]
      simp only [bind_eq_ok, pure_eq_ok, @ih _ others (i + 1)]
      constructor
      · rintro ⟨t, ht, hts⟩
        exact ⟨t, first.read_anywhere ht _, hts⟩
      · rintro ⟨t, ht, hts⟩
        exact ⟨t, first.read_anywhere ht _, hts⟩

/-- All of the conditions are read one after the other. -/
theorem read_allOf_iff {leaf : Leaf → Except Error Condition} {nodes leaves : List Value}
    (h : AreNodes nodes leaves) (filled : nodes ≠ []) {path : Path} {p : Predicate} :
    (∃ t, Tree.read leaf path (allOf nodes) = .ok t ∧ .ofTree t = p) ↔
      ∃ ts, nodes.mapM (Tree.read leaf path) = .ok ts ∧
        .conjunction (Predicate.ofTrees ts) = p := by
  by_cases hone : nodes.length = 1
  · obtain ⟨node, rfl⟩ := List.length_eq_one_iff.mp hone
    simp only [List.mapM_cons, List.mapM_nil, bind_eq_ok, pure_eq_ok]
    constructor
    · rintro ⟨t, ht, rfl⟩
      exact ⟨[t], ⟨t, ht, [], rfl, rfl⟩, rfl⟩
    · rintro ⟨_, ⟨t, ht, _, rfl, rfl⟩, rfl⟩
      exact ⟨t, ht, rfl⟩
  · rw [allOf_of_length_ne hone, read_groupNode _ _ filled]
    simp only [map_eq_ok, @mapM_read_eq_ok_iff _ leaf _ _ h path 0]
    constructor
    · rintro ⟨_, ⟨ts, hts, rfl⟩, rfl⟩
      exact ⟨ts, hts, rfl⟩
    · rintro ⟨ts, hts, rfl⟩
      exact ⟨_, ⟨ts, hts, rfl⟩, rfl⟩

end Filter

/-! ## Conjunctions in pieces -/

namespace Predicate

variable (d : Dialect)

theorem ofTrees_append (ts us : List (Filter.Tree Condition)) :
    ofTrees (ts ++ us) = ofTrees ts ++ ofTrees us := by
  induction ts with
  | nil => rfl
  | cons t ts ih => rw [List.cons_append, ofTrees, ofTrees, ih, List.cons_append]

theorem conjuncts_conjunction (ps : List Predicate) :
    (conjunction ps).conjuncts = ps.flatMap conjuncts := by
  unfold conjunction
  split
  · simp
  · rfl

theorem joinPieces_append {w : Piece} {parts others : List (List Piece)} (h : parts ≠ [])
    (h' : others ≠ []) :
    joinPieces w (parts ++ others) = joinPieces w parts ++ w :: joinPieces w others := by
  induction parts with
  | nil => contradiction
  | cons part parts ih =>
    cases parts with
    | nil =>
      obtain ⟨other, others, rfl⟩ := List.exists_cons_of_ne_nil h'
      rfl
    | cons next parts =>
      change part ++ w :: joinPieces w ((next :: parts) ++ others) = _
      rw [ih (List.cons_ne_nil _ _)]
      simp [joinPieces]

/-- A predicate is the conjunction of its conjuncts. -/
theorem conjunctText_eq (p : Predicate) :
    p.conjunctText d = joinPieces (.word " AND ") (p.conjuncts.map (conjunctText d)) := by
  cases p with
  | all ps =>
    change pieces d (.all ps) = joinPieces (.word " AND ") (ps.map (conjunctText d))
    rw [pieces, conjunctPieces_eq]
  | condition | any | negation => rfl

theorem conjuncts_ne_nil {p : Predicate} (h : p.IsFull) : p.conjuncts ≠ [] := by
  cases p with
  | all ps => exact h.1
  | condition | any | negation => exact List.cons_ne_nil _ _

/-- The pieces of a conjunction of predicates. -/
def allPieces (ps : List Predicate) : List Piece := (conjunction ps).conjunctText d

theorem allPieces_append {ps qs : List Predicate} (hp : ps ≠ [] ∧ AreFull ps)
    (hq : qs ≠ [] ∧ AreFull qs) :
    allPieces d (ps ++ qs) = allPieces d ps ++ .word " AND " :: allPieces d qs := by
  have hne {ps : List Predicate} (h : ps ≠ [] ∧ AreFull ps) :
      (ps.flatMap conjuncts).map (conjunctText d) ≠ [] := by
    obtain ⟨p, ps, rfl⟩ := List.exists_cons_of_ne_nil h.1
    simp [conjuncts_ne_nil h.2.1]
  rw [allPieces, allPieces, allPieces, conjunctText_eq, conjunctText_eq d (conjunction ps),
    conjunctText_eq d (conjunction qs), conjuncts_conjunction, conjuncts_conjunction,
    conjuncts_conjunction, List.flatMap_append, List.map_append, joinPieces_append (hne hp) (hne hq)]

end Predicate

/-! ## Conjunctions in texts -/

namespace ClauseCompiler

variable {c : ClauseCompiler} {ps qs : List Piece}

theorem spellable_iff (d : Dialect) (ps : List Piece) :
    Spellable d ps ↔ (∀ label ∈ ps.filterMap Piece.label?, IsSpelledLabel d.nameLimit label) ∧
      ∀ vs ∈ ps.filterMap Piece.members?, CanSpell vs := by
  rw [← spelled_slotNamesFrom_iff d.nameLimit [] 0]
  exact ⟨fun h => ⟨h.names, h.lists⟩, fun h => ⟨h.1, h.2⟩⟩

theorem spellable_append_iff (d : Dialect) (ps qs : List Piece) :
    Spellable d (ps ++ qs) ↔ Spellable d ps ∧ Spellable d qs := by
  have hlabels : (ps ++ qs).filterMap Piece.label? =
      ps.filterMap Piece.label? ++ qs.filterMap Piece.label? := List.filterMap_append
  have hmembers : (ps ++ qs).filterMap Piece.members? =
      ps.filterMap Piece.members? ++ qs.filterMap Piece.members? := List.filterMap_append
  rw [spellable_iff, spellable_iff, spellable_iff, hlabels, hmembers, List.forall_mem_append,
    List.forall_mem_append]
  exact and_and_and_comm

theorem spellable_word_iff (d : Dialect) (w : String) (ps : List Piece) :
    Spellable d (.word w :: ps) ↔ Spellable d ps :=
  ⟨fun h => ⟨h.names, h.lists⟩, fun h => ⟨h.names, h.lists⟩⟩

variable (hstyle : c.style ≠ .dollar)
include hstyle

theorem valuesOf_append (ps qs : List Piece) :
    valuesOf c.style (ps ++ qs) = valuesOf c.style ps ++ valuesOf c.style qs := by
  cases hs : c.style with
  | dollar => contradiction
  | question | percent => exact List.flatMap_append

theorem valuesOf_word (w : String) (ps : List Piece) :
    valuesOf c.style (.word w :: ps) = valuesOf c.style ps := by
  cases hs : c.style with
  | dollar => contradiction
  | question | percent => rfl

/-- The characters of pieces; without numbers they are those of each piece. -/
theorem chars_segmentsOf (ps : List Piece) :
    (segmentsOf c.dialect ps).flatMap (Segment.chars c.dialect c.style) =
      ps.flatMap fun p => (p.segments c.dialect 0 0).flatMap (Segment.chars c.dialect c.style) := by
  refine flatMap_segmentsFrom (fun n v => ?_) c.dialect 1 (firstListed ps) ps
  cases hs : c.style with
  | dollar => contradiction
  | question | percent => rfl

theorem line_and (hps : ∃ b ∈ (segmentsOf c.dialect ps).flatMap (Segment.chars c.dialect c.style),
      Text.isBlank b = false)
    (hqs : ∃ b ∈ (segmentsOf c.dialect qs).flatMap (Segment.chars c.dialect c.style),
      Text.isBlank b = false) :
    c.line (ps ++ .word " AND " :: qs) = c.line ps ++ " AND " ++ c.line qs := by
  have hchars : (segmentsOf c.dialect (ps ++ .word " AND " :: qs)).flatMap
      (Segment.chars c.dialect c.style) =
      (segmentsOf c.dialect ps).flatMap (Segment.chars c.dialect c.style) ++ " AND ".toList ++
        (segmentsOf c.dialect qs).flatMap (Segment.chars c.dialect c.style) := by
    rw [chars_segmentsOf hstyle, chars_segmentsOf hstyle ps, chars_segmentsOf hstyle qs,
      List.flatMap_append, List.flatMap_cons, List.append_assoc]
    rfl
  rw [← String.toList_inj, String.toList_append, String.toList_append]
  rw [line, line, line, hchars, Text.collapseChars_and
    (Text.collapseChars_ne_nil_iff.mpr hps) (Text.collapseChars_ne_nil_iff.mpr hqs)]
  simp only [String.toList_ofList]

end ClauseCompiler

/-! ## Entries -/

theorem lookup_singleton_eq_none {α : Type} {key : String} {es : List (Value × α)}
    (h : Value.lookup key es = none) : ∀ e ∈ es, Value.lookup key [e] = none := by
  induction es with
  | nil => exact List.forall_mem_nil _
  | cons e rest ih =>
    obtain ⟨k, v⟩ := e
    have hrest : Value.lookup key [(k, v)] = none ∧ Value.lookup key rest = none := by
      cases k with
      | text s => by_cases hs : s = key <;> simp_all [Value.lookup]
      | _ => simp_all [Value.lookup]
    exact List.forall_mem_cons.mpr ⟨hrest.1, ih hrest.2⟩

theorem forall₂_congr {α β : Type} {R S : α → β → Prop} {as : List α}
    (h : ∀ a ∈ as, ∀ b, R a b ↔ S a b) {bs : List β} :
    List.Forall₂ R as bs ↔ List.Forall₂ S as bs := by
  induction as generalizing bs with
  | nil => simp
  | cons a as ih =>
    obtain ⟨ha, has⟩ := List.forall_mem_cons.mp h
    rw [List.forall₂_cons_left_iff, List.forall₂_cons_left_iff]
    simp only [ha, ih has]

namespace ClauseCompiler

variable (c : ClauseCompiler)

/-- The predicates of the nodes that entries are read into. -/
def conjunctsOf (es : Entries) : Except Error (List Predicate) := do
  let nodes ← Filter.entryNodes (.root "where") es
  let ts ← nodes.mapM (Filter.Tree.read c.condition (.root "where"))
  return Predicate.ofTrees ts

/-- What conjuncts are compiled to. -/
structure IsRendered (ps : List Predicate) (w : Written) : Prop where
  spellable : Spellable c.dialect (Predicate.allPieces c.dialect ps)
  text : w.text = c.line (Predicate.allPieces c.dialect ps)
  values : w.values = valuesOf c.style (Predicate.allPieces c.dialect ps)

variable {c} {es : Entries} {w : Written}

theorem conjunctsOf_cons_iff {e : Value × Value} {rest : Entries} {ps : List Predicate} :
    c.conjunctsOf (e :: rest) = .ok ps ↔ ∃ own more, c.conjunctsOf [e] = .ok own ∧
      c.conjunctsOf rest = .ok more ∧ own ++ more = ps := by
  unfold conjunctsOf
  rw [Filter.entryNodes_cons]
  simp only [bind_eq_ok, pure_eq_ok]
  constructor
  · rintro ⟨_, ⟨own, hown, more, hmore, rfl⟩, ts, hts, rfl⟩
    rw [List.mapM_append] at hts
    simp only [bind_eq_ok, pure_eq_ok] at hts
    obtain ⟨first, hfirst, others, hothers, rfl⟩ := hts
    exact ⟨_, _, ⟨own, hown, first, hfirst, rfl⟩, ⟨more, hmore, others, hothers, rfl⟩,
      (Predicate.ofTrees_append first others).symm⟩
  · rintro ⟨_, _, ⟨own, hown, first, hfirst, rfl⟩, ⟨more, hmore, others, hothers, rfl⟩, rfl⟩
    refine ⟨_, ⟨own, hown, more, hmore, rfl⟩, first ++ others, ?_,
      Predicate.ofTrees_append first others⟩
    rw [List.mapM_append, hfirst, hothers]
    rfl

theorem full_conjunctsOf (filled : es ≠ []) {ps : List Predicate} (h : c.conjunctsOf es = .ok ps) :
    ps ≠ [] ∧ Predicate.AreFull ps := by
  unfold conjunctsOf at h
  simp only [bind_eq_ok, pure_eq_ok] at h
  obtain ⟨nodes, hnodes, ts, hts, rfl⟩ := h
  obtain ⟨nodes', hnodes', hne, are⟩ := Filter.giveNodes_of_entryNodes hnodes
  cases hnodes.symm.trans (hnodes' (.root "where"))
  rw [Filter.mapM_read_eq_ok_iff are] at hts
  obtain ⟨⟨hts', hfull⟩, -⟩ := (Filter.Tree.read_facts c.condition).2.2 _ 0 _ _ hts
  exact Predicate.areFull_ofTrees ts ⟨hts' (hne filled), hfull⟩

/-- The predicate of a filter of entries is the conjunction of their predicates. -/
theorem predicate_eq_ok_iff (filled : es ≠ []) (plain : Value.lookup "op" es = none)
    {p? : Option Predicate} :
    c.predicate (.map es) = .ok p? ↔
      ∃ ps, c.conjunctsOf es = .ok ps ∧ some (.conjunction ps) = p? := by
  unfold predicate conjunctsOf
  rw [Filter.toNode_map filled plain]
  cases hnodes : Filter.entryNodes (.root "where") es with
  | error e => simp [Except.map]
  | ok nodes =>
    obtain ⟨nodes', hnodes', hne, are⟩ := Filter.giveNodes_of_entryNodes hnodes
    cases hnodes.symm.trans (hnodes' (.root "where"))
    have htruthy := Filter.isTruthy_allOf (Filter.isTruthy_entryNodes _ _ hnodes)
    simp only [Except.map, ok_bind, htruthy, Bool.not_true, Bool.false_eq_true, if_false,
      bind_eq_ok, pure_eq_ok]
    have hread (p : Predicate) :=
      @Filter.read_allOf_iff c.condition _ _ are (hne filled) (.root "where") p
    constructor
    · rintro ⟨t, ht, rfl⟩
      obtain ⟨ts, hts, hp⟩ := (hread _).mp ⟨t, ht, rfl⟩
      exact ⟨_, ⟨ts, hts, rfl⟩, congrArg some hp⟩
    · rintro ⟨_, ⟨ts, hts, rfl⟩, rfl⟩
      obtain ⟨t, ht, hp⟩ := (hread _).mpr ⟨ts, hts, rfl⟩
      exact ⟨t, ht, congrArg some hp⟩

theorem parts_filter (filter : Value) : c.parts { filter } =
    (c.predicate filter).map fun p? => (p?, []) := by
  unfold parts
  cases c.predicate filter with
  | error e => rfl
  | ok p? => rfl

/-- The clauses of a filter of entries are those of the predicates of its entries. -/
theorem clauses_entries (filled : es ≠ []) (plain : Value.lookup "op" es = none)
    {ps : List Predicate} (h : c.conjunctsOf es = .ok ps) :
    c.clauses { filter := .map es } = .ok (c.tables (some (.conjunction ps)),
      .word " \nWHERE " :: Predicate.allPieces c.dialect ps) := by
  rw [clauses_eq, parts_filter, (predicate_eq_ok_iff filled plain).mpr ⟨ps, h, rfl⟩]
  exact congrArg (fun pieces => Except.ok (c.tables (some (.conjunction ps)), pieces))
    (List.append_nil _)

theorem compile_entries_eq_ok (hstyle : c.style ≠ .dollar) (filled : es ≠ [])
    (plain : Value.lookup "op" es = none) (hlegible : c.IsLegible { filter := .map es }) :
    c.compile { filter := .map es } = .ok w ↔
      ∃ ps, c.conjunctsOf es = .ok ps ∧ c.IsRendered ps w := by
  have hbody (ps : List Predicate) : body c.dialect (some (.conjunction ps)) [] =
      Predicate.allPieces c.dialect ps := List.append_nil _
  rw [compile_eq_ok hlegible, parts_filter]
  simp only [map_eq_ok, predicate_eq_ok_iff filled plain, restyled, if_neg hstyle, Except.ok.injEq]
  constructor
  · rintro ⟨_, _, ⟨_, ⟨ps, hps, rfl⟩, ⟨⟩⟩, hspell, htext, hvalues⟩
    rw [hbody] at hspell htext hvalues
    exact ⟨ps, hps, hspell, htext.symm, hvalues⟩
  · rintro ⟨ps, hps, hspell, htext, hvalues⟩
    refine ⟨_, _, ⟨_, ⟨ps, hps, rfl⟩, rfl⟩, ?_⟩
    rw [hbody]
    exact ⟨hspell, htext.symm, hvalues⟩

/-- Conjuncts are compiled in two parts with `AND` between them. -/
theorem isRendered_append_iff (hstyle : c.style ≠ .dollar) {ps qs : List Predicate}
    (hps : ps ≠ [] ∧ Predicate.AreFull ps) (hqs : qs ≠ [] ∧ Predicate.AreFull qs) :
    c.IsRendered (ps ++ qs) w ↔ ∃ w₁ w₂, c.IsRendered ps w₁ ∧ c.IsRendered qs w₂ ∧
      w.text = w₁.text ++ " AND " ++ w₂.text ∧ w.values = w₁.values ++ w₂.values := by
  -- neither part is blank, so that the spaces around `AND` stay when the text is put on one line
  have hdark {ps : List Predicate} (h : ps ≠ [] ∧ Predicate.AreFull ps) :
      ∃ b ∈ (segmentsOf c.dialect (Predicate.allPieces c.dialect ps)).flatMap
        (Segment.chars c.dialect c.style), Text.isBlank b = false := by
    have := exists_not_blank (c := c) (Predicate.isFull_conjunction h) []
    rwa [body, List.append_nil] at this
  have hpieces := Predicate.allPieces_append c.dialect hps hqs
  have htext := line_and hstyle (hdark hps) (hdark hqs)
  have hvalues := valuesOf_append hstyle (Predicate.allPieces c.dialect ps)
    (.word " AND " :: Predicate.allPieces c.dialect qs)
  have hspell := spellable_append_iff c.dialect (Predicate.allPieces c.dialect ps)
    (.word " AND " :: Predicate.allPieces c.dialect qs)
  rw [valuesOf_word hstyle] at hvalues
  rw [spellable_word_iff] at hspell
  rw [← hpieces] at htext hvalues hspell
  constructor
  · intro h
    obtain ⟨hleft, hright⟩ := hspell.mp h.spellable
    exact ⟨⟨_, _⟩, ⟨_, _⟩, ⟨hleft, rfl, rfl⟩, ⟨hright, rfl, rfl⟩, h.text.trans htext,
      h.values.trans hvalues⟩
  · rintro ⟨w₁, w₂, h₁, h₂, ht, hv⟩
    refine ⟨hspell.mpr ⟨h₁.spellable, h₂.spellable⟩, ?_, ?_⟩
    · rw [ht, h₁.text, h₂.text, htext]
    · rw [hv, h₁.values, h₂.values, hvalues]

/-- Entries are compiled one after the other, with `AND` between each two. -/
theorem isRendered_entries_iff (hstyle : c.style ≠ .dollar) (filled : es ≠ []) :
    (∃ ps, c.conjunctsOf es = .ok ps ∧ c.IsRendered ps w) ↔
      ∃ ws, List.Forall₂ (fun e w => ∃ ps, c.conjunctsOf [e] = .ok ps ∧ c.IsRendered ps w) es ws ∧
        w.text = " AND ".intercalate (ws.map Written.text) ∧
        w.values = ws.flatMap Written.values := by
  induction es generalizing w with
  | nil => contradiction
  | cons e rest ih =>
    by_cases hrest : rest = []
    · subst hrest
      constructor
      · rintro ⟨ps, hps, hw⟩
        exact ⟨[w], .cons ⟨ps, hps, hw⟩ .nil, by simp, by simp⟩
      · rintro ⟨ws, hall, ht, hv⟩
        obtain ⟨w₁, ws, ⟨ps, hps, hw⟩, hnil, rfl⟩ := List.forall₂_cons_left_iff.mp hall
        obtain rfl := List.forall₂_nil_left_iff.mp hnil
        rw [List.map_singleton, String.intercalate_singleton] at ht
        rw [List.flatMap_singleton] at hv
        exact ⟨ps, hps, hw.spellable, ht.trans hw.text, hv.trans hw.values⟩
    · have hstep {own more : List Predicate} (hown : c.conjunctsOf [e] = .ok own)
          (hmore : c.conjunctsOf rest = .ok more) :=
        isRendered_append_iff (w := w) hstyle (full_conjunctsOf (List.cons_ne_nil e []) hown)
          (full_conjunctsOf hrest hmore)
      have hws {ws : List Written} (h : rest.length = ws.length) : ws.map Written.text ≠ [] := by
        rw [← List.length_pos_iff, List.length_map, ← h]
        exact List.length_pos_iff.mpr hrest
      constructor
      · rintro ⟨_, hps, hw⟩
        obtain ⟨own, more, hown, hmore, rfl⟩ := conjunctsOf_cons_iff.mp hps
        obtain ⟨w₁, w₂, h₁, h₂, ht, hv⟩ := (hstep hown hmore).mp hw
        obtain ⟨ws, hall, ht', hv'⟩ := (ih hrest).mp ⟨more, hmore, h₂⟩
        refine ⟨w₁ :: ws, .cons ⟨own, hown, h₁⟩ hall, ?_, ?_⟩
        · rw [List.map_cons, String.intercalate_cons_of_ne_nil (hws hall.length_eq), ht, ht']
        · rw [List.flatMap_cons, hv, hv']
      · rintro ⟨ws, hall, ht, hv⟩
        obtain ⟨w₁, ws, ⟨own, hown, h₁⟩, others, rfl⟩ := List.forall₂_cons_left_iff.mp hall
        rw [List.map_cons, String.intercalate_cons_of_ne_nil (hws others.length_eq)] at ht
        rw [List.flatMap_cons] at hv
        obtain ⟨more, hmore, h₂⟩ := (@ih ⟨_, _⟩ hrest).mpr ⟨ws, others, rfl, rfl⟩
        exact ⟨_, conjunctsOf_cons_iff.mpr ⟨own, more, hown, hmore, rfl⟩,
          (hstep hown hmore).mpr ⟨w₁, _, h₁, h₂, ht, hv⟩⟩

/-- Where statements are clear, a filter of entries is compiled if each of its entries is: its text is
that of the entries with `AND` between them, and its values are theirs. -/
theorem compile_entries_iff (hstyle : c.style ≠ .dollar) (filled : es ≠ [])
    (plain : Value.lookup "op" es = none) (hclear : c.IsClear { filter := .map es })
    (heach : ∀ e ∈ es, c.IsClear { filter := .map [e] }) :
    c.compile { filter := .map es } = .ok w ↔
      ∃ ws, List.Forall₂ (fun e w => c.compile { filter := .map [e] } = .ok w) es ws ∧
        w.text = " AND ".intercalate (ws.map Written.text) ∧
        w.values = ws.flatMap Written.values := by
  rw [compile_entries_eq_ok hstyle filled plain hclear.legible, isRendered_entries_iff hstyle filled]
  have hone : ∀ e ∈ es, ∀ w, (∃ ps, c.conjunctsOf [e] = .ok ps ∧ c.IsRendered ps w) ↔
      c.compile { filter := .map [e] } = .ok w := by
    intro e he w
    have plain : Value.lookup "op" [e] = none := lookup_singleton_eq_none plain e he
    rw [compile_entries_eq_ok hstyle (List.cons_ne_nil _ _) plain (heach e he).legible]
  simp only [forall₂_congr hone]

end ClauseCompiler

/-- Sales that are new, or numbered between two others. -/
def newOrBetween : Value × Value :=
  (.text "or", .list [.map [(.text "tag", .text "new")],
    .map [(.text "id", .map [(.text ">", .int 7), (.text "<", .int 9)])]])

/-- Sales with any tag, since none is left out. -/
def anyTag : Value × Value := (.text "tag", .map [(.text "nin", .list [])])

def newOrBetweenPieces : List Piece :=
  [.word "(", .name "sales", .word ".", .name "tag", .word " = ", .marker "param" (.text "new"),
    .word " OR ", .name "sales", .word ".", .name "id", .word " > ", .marker "param" (.int 7),
    .word " AND ", .name "sales", .word ".", .name "id", .word " < ", .marker "param" (.int 9),
    .word ")"]

def anyTagPieces : List Piece :=
  [.word "(", .name "sales", .word ".", .name "tag", .word " NOT IN (", .members "tag" true [],
    .word "))"]

theorem conjunctsOf_newOrBetween : (shopCompiler .question 1).conjunctsOf [newOrBetween] =
    .ok [.any [.condition ⟨⟨"sales", "tag"⟩, .compare .eq (.text "new")⟩,
      .all [.condition ⟨⟨"sales", "id"⟩, .compare .gt (.int 7)⟩,
        .condition ⟨⟨"sales", "id"⟩, .compare .lt (.int 9)⟩]]] := by
  cbv

theorem conjunctsOf_anyTag : (shopCompiler .question 1).conjunctsOf [anyTag] =
    .ok [.condition ⟨⟨"sales", "tag"⟩, .member true []⟩] := by
  cbv

theorem clauses_newOrBetween :
    (shopCompiler .question 1).clauses { filter := .map [newOrBetween] } =
      .ok (["sales"], .word " \nWHERE " :: newOrBetweenPieces) :=
  ClauseCompiler.clauses_entries (List.cons_ne_nil _ _) rfl conjunctsOf_newOrBetween

theorem clauses_anyTag : (shopCompiler .question 1).clauses { filter := .map [anyTag] } =
    .ok (["sales"], .word " \nWHERE " :: anyTagPieces) :=
  ClauseCompiler.clauses_entries (List.cons_ne_nil _ _) rfl conjunctsOf_anyTag

theorem clauses_newOrBetween_anyTag :
    (shopCompiler .question 1).clauses { filter := .map [newOrBetween, anyTag] } =
      .ok (["sales"], .word " \nWHERE " :: newOrBetweenPieces ++ .word " AND " :: anyTagPieces) :=
  ClauseCompiler.clauses_entries (List.cons_ne_nil _ _) rfl (ClauseCompiler.conjunctsOf_cons_iff.mpr
    ⟨_, _, conjunctsOf_newOrBetween, conjunctsOf_anyTag, rfl⟩)

theorem compile_newOrBetween :
    (shopCompiler .question 1).compile { filter := .map [newOrBetween] } =
      .ok ⟨"(\"sales\".\"tag\" = ? OR \"sales\".\"id\" > ? AND \"sales\".\"id\" < ?)",
        [.text "new", .int 7, .int 9]⟩ := by
  rw [ClauseCompiler.compile, clauses_newOrBetween]
  rfl

theorem compile_anyTag : (shopCompiler .question 1).compile { filter := .map [anyTag] } =
    .ok ⟨"(\"sales\".\"tag\" NOT IN (NULL) OR (1 = 1))", []⟩ := by
  rw [ClauseCompiler.compile, clauses_anyTag]
  rfl

theorem isClear_shop {k : Criteria} {r : List String × List Piece}
    (hr : (shopCompiler .question 1).clauses k = .ok r)
    (hnames : ∀ n ∈ slotNames .default r.2, spelled n = n ∧ n.length + 6 ≤ Dialect.default.nameLimit) :
    (shopCompiler .question 1).IsClear k := by
  refine ClauseCompiler.isClear_of_catalog isPlain_shop (by decide : IsPlainName "sales")
    (by decide : shop.HasPlainLabels) fun r' hr' => ?_
  obtain rfl := Except.ok.inj (hr.symm.trans hr')
  exact hnames

/-- The parentheses of a group and of a list without members stay when entries are joined. -/
theorem compile_entries_sales :
    Value.lookup "op" [newOrBetween, anyTag] = none ∧
      (shopCompiler .question 1).IsClear { filter := .map [newOrBetween, anyTag] } ∧
      (∀ e ∈ [newOrBetween, anyTag], (shopCompiler .question 1).IsClear { filter := .map [e] }) ∧
      (shopCompiler .question 1).compile { filter := .map [newOrBetween, anyTag] } =
        .ok ⟨"(\"sales\".\"tag\" = ? OR \"sales\".\"id\" > ? AND \"sales\".\"id\" < ?) AND " ++
          "(\"sales\".\"tag\" NOT IN (NULL) OR (1 = 1))", [.text "new", .int 7, .int 9]⟩ := by
  have hclear := isClear_shop clauses_newOrBetween_anyTag (by decide)
  have heach : ∀ e ∈ [newOrBetween, anyTag],
      (shopCompiler .question 1).IsClear { filter := .map [e] } :=
    List.forall_mem_cons.mpr ⟨isClear_shop clauses_newOrBetween (by decide),
      List.forall_mem_singleton.mpr (isClear_shop clauses_anyTag (by decide))⟩
  refine ⟨rfl, hclear, heach, ?_⟩
  exact (ClauseCompiler.compile_entries_iff (by decide) (List.cons_ne_nil _ _) rfl hclear heach).mpr
    ⟨_, .cons compile_newOrBetween (.cons compile_anyTag .nil), rfl, rfl⟩

end SqlFragment
