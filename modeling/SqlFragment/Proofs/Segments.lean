import Mathlib.Data.List.Perm.Basic
import SqlFragment.Proofs.Keys
import SqlFragment.Proofs.Outcome
import SqlFragment.Proofs.Plain

/-!
Written statements as segments. A marker is a segment with the number it has where markers have
numbers, and with its own value; what a statement binds is read off its segments.
-/
namespace SqlFragment

/-- A part of a written statement. -/
inductive Segment
  | word (text : String)
  | name (text : String)
  | marker (number : Nat) (value : Value)

namespace Segment

def chars (d : Dialect) (style : MarkerStyle) : Segment → List Char
  | .word s => s.toList
  | .name s => (d.quoting style).quoteChars s.toList
  | .marker n _ => (style.mark n).toList

def number? : Segment → Option Nat
  | .marker n _ => some n
  | _ => none

def value? : Segment → Option Value
  | .marker _ v => some v
  | _ => none

/-- Parts with commas between them. -/
def joined (parts : List (List Segment)) : List Segment :=
  (parts.intersperse [.word ", "]).flatten

/-- What holds of parts, and of two texts with a comma between them, holds of joined parts. -/
theorem joined_induction {P : List Segment → Prop} (hnil : P [])
    (hglue : ∀ {xs ys}, P xs → P ys → P (xs ++ .word ", " :: ys)) {parts : List (List Segment)}
    (h : ∀ p ∈ parts, P p) : P (joined parts) := by
  induction parts with
  | nil => exact hnil
  | cons p parts ih =>
    obtain ⟨hp, hparts⟩ := List.forall_mem_cons.mp h
    cases parts with
    | nil => simpa [joined] using hp
    | cons q parts =>
      have := hglue hp (ih hparts)
      simpa [joined] using this

end Segment

/-! ## Lists -/

def groupsOf (vs : List Value) : List (List Value) := vs.map fun v => v.elements?.getD []

/-- The values that a list binds. -/
def boundMembers (vs : List Value) : List Value :=
  if holdsTuples vs then (groupsOf vs).flatten else vs

/-- The markers of all tuples, by their numbers within the list. -/
def allTupleMarks (groups : List (List Value)) : List Nat :=
  groups.zipIdx.flatMap fun p => tupleMarks p.2 p.1

/-- Whether a list has a spelling: a list of tuples needs elements in each, and a value for every
marker. -/
def CanSpell (vs : List Value) : Prop :=
  holdsTuples vs = true → (∀ v ∈ vs, v.elements?.isSome = true) ∧
    ∀ k ∈ allTupleMarks (groupsOf vs), k < (groupsOf vs).flatten.length

def spellingOf (vs : List Value) : Spelling :=
  if holdsTuples vs then .tuples ((groupsOf vs).zipIdx.map fun p => tupleMarks p.2 p.1)
  else if vs.isEmpty then .nothing
  else .each

def keyedMembers (key : String) (vs : List Value) : List (String × Value) :=
  if holdsTuples vs then keyedElements key (groupsOf vs) else keyed key vs

/-- A tuple of markers for each group; the first value of all has number `first`. -/
def tupleSegments (first : Nat) (groups : List (List Value)) : List (List Segment) :=
  groups.zipIdx.map fun p =>
    .word "(" :: Segment.joined (((tupleMarks p.2 p.1).zip p.1).map fun m =>
      [.marker (first + m.1) m.2]) ++ [.word ")"]

def listSegments (d : Dialect) (negated : Bool) (first : Nat) (vs : List Value) : List Segment :=
  if holdsTuples vs then
    (if d = .sqlite then [.word "VALUES "] else []) ++
      Segment.joined (tupleSegments first (groupsOf vs))
  else if vs.isEmpty then [.word (emptyList d negated)]
  else Segment.joined (vs.zipIdx.map fun p => [.marker (first + p.2) p.1])

theorem tupleElements_eq_ok {vs : List Value} {groups : List (List Value)} :
    tupleElements vs = .ok groups ↔
      (∀ v ∈ vs, v.elements?.isSome = true) ∧ groups = groupsOf vs := by
  have hone (v : Value) (hv : v.elements?.isSome = true) :
      v.elements?.elim (.error Fault.notIterable) .ok =
        (.ok (v.elements?.getD []) : Except Fault (List Value)) := by
    obtain ⟨ys, hys⟩ := Option.isSome_iff_exists.mp hv
    simp [hys]
  constructor
  · intro h
    have hall : ∀ v ∈ vs, v.elements?.isSome = true := by
      intro v hv
      obtain ⟨ys, hys⟩ := mem_of_mapM_eq_ok h v hv
      obtain ⟨zs, hzs, -⟩ := elim_error_eq_ok.mp hys
      exact Option.isSome_of_eq_some hzs
    refine ⟨hall, ?_⟩
    rw [tupleElements, mapM_eq_ok fun v hv => hone v (hall v hv)] at h
    exact (Except.ok.inj h).symm
  · rintro ⟨hall, rfl⟩
    exact mapM_eq_ok fun v hv => hone v (hall v hv)

theorem marks_all_iff {groups : List (List Value)} {count : Nat} :
    ((groups.zipIdx.map fun p => tupleMarks p.2 p.1).all fun ms => ms.all (· < count)) = true ↔
      ∀ k ∈ allTupleMarks groups, k < count := by
  simp only [allTupleMarks, List.all_eq_true, List.mem_map, List.mem_flatMap, decide_eq_true_eq]
  constructor
  · rintro h k ⟨p, hp, hk⟩
    exact h _ ⟨p, hp, rfl⟩ k hk
  · rintro h ms ⟨p, hp, rfl⟩ k hk
    exact h k ⟨p, hp, hk⟩

theorem spellMembers_eq_ok {key : String} {vs : List Value} {r : Spelling × List (String × Value)} :
    spellMembers key vs = .ok r ↔ CanSpell vs ∧ r = (spellingOf vs, keyedMembers key vs) := by
  by_cases ht : holdsTuples vs = true
  · simp only [spellMembers, spellTuples, ht, if_true, bind_eq_ok, tupleElements_eq_ok]
    constructor
    · rintro ⟨groups, ⟨hall, rfl⟩, h⟩
      split at h
      · rename_i hmarks
        refine ⟨fun _ => ⟨hall, marks_all_iff.mp hmarks⟩, ?_⟩
        rw [spellingOf, keyedMembers, if_pos ht, if_pos ht]
        exact (pure_eq_ok.mp h).symm
      · contradiction
    · rintro ⟨hspell, rfl⟩
      refine ⟨_, ⟨(hspell ht).1, rfl⟩, ?_⟩
      rw [if_pos (marks_all_iff.mpr (hspell ht).2), spellingOf, keyedMembers, if_pos ht, if_pos ht]
      rfl
  · have hspell : CanSpell vs := fun h => absurd h ht
    rw [spellMembers, spellingOf, keyedMembers, if_neg ht, if_neg ht, if_neg ht]
    constructor
    · intro h
      exact ⟨hspell, (Except.ok.inj h).symm⟩
    · rintro ⟨-, rfl⟩
      rfl

/-! ### What lists bind -/

theorem map_zipIdx_fst {α β : Type} (f : α → β) (l : List α) (n : Nat) :
    (l.zipIdx n).map (fun p => f p.1) = l.map f := by
  induction l generalizing n with
  | nil => rfl
  | cons a l ih => simp [ih]

theorem map_snd_keyed (key : String) (vs : List Value) : (keyed key vs).map (·.2) = vs := by
  rw [keyed, List.map_map]
  exact (map_zipIdx_fst id vs 0).trans (List.map_id vs)

theorem map_snd_keyedMembers (key : String) (vs : List Value) :
    (keyedMembers key vs).map (·.2) = boundMembers vs := by
  unfold keyedMembers boundMembers
  split
  · rw [keyedElements, List.map_flatMap]
    simp only [map_snd_keyed]
    rw [List.flatMap_def]
    exact congrArg List.flatten ((map_zipIdx_fst id _ 0).trans (List.map_id _))
  · exact map_snd_keyed key vs

theorem length_keyedMembers (key : String) (vs : List Value) :
    (keyedMembers key vs).length = (boundMembers vs).length := by
  rw [← map_snd_keyedMembers key, List.length_map]

theorem flatMap_values_memberMarks (style : MarkerStyle) (first : Nat)
    (members : List (String × Value)) :
    (memberMarks style first members).flatMap Mark.values = members.map (·.2) := by
  rw [memberMarks, List.flatMap_map, List.map_eq_flatMap, List.flatMap_def, List.flatMap_def]
  exact congrArg List.flatten (map_zipIdx_fst (fun e => [e.2]) members 0)

theorem filterMap_joined {β : Type} {f : Segment → Option β} (hf : ∀ s, f (.word s) = none)
    (parts : List (List Segment)) :
    (Segment.joined parts).filterMap f = parts.flatMap (List.filterMap f) := by
  induction parts with
  | nil => rfl
  | cons p parts ih =>
    cases parts with
    | nil => simp [Segment.joined]
    | cons q parts => simp_all [Segment.joined]

/-- The markers of a list in the order of the text: their numbers within the list, and the members
they stand for. -/
def listMarks (vs : List Value) : List (Nat × Value) :=
  if holdsTuples vs then (groupsOf vs).zipIdx.flatMap fun p => (tupleMarks p.2 p.1).zip p.1
  else vs.zipIdx.map Prod.swap

theorem map_snd_listMarks (vs : List Value) : (listMarks vs).map (·.2) = boundMembers vs := by
  unfold listMarks boundMembers
  split
  · have hmarks (p : List Value × Nat) : ((tupleMarks p.2 p.1).zip p.1).map (·.2) = p.1 :=
      List.map_snd_zip (by simp [tupleMarks])
    simp only [List.map_flatMap, hmarks]
    rw [List.flatMap_def]
    exact congrArg List.flatten ((map_zipIdx_fst id _ 0).trans (List.map_id _))
  · rw [List.map_map]
    exact (map_zipIdx_fst id vs 0).trans (List.map_id vs)

/-- What the segments of a list have in them, in the order of the text. -/
theorem filterMap_listSegments {β : Type} {f : Segment → Option β} (hf : ∀ s, f (.word s) = none)
    (d : Dialect) (negated : Bool) (first : Nat) (vs : List Value) :
    (listSegments d negated first vs).filterMap f =
      (listMarks vs).filterMap fun m => f (.marker (first + m.1) m.2) := by
  have hone (x : List (Nat × Value)) : (x.map fun m => [Segment.marker (first + m.1) m.2]).flatMap
      (List.filterMap f) = x.filterMap fun m => f (.marker (first + m.1) m.2) := by
    induction x with
    | nil => rfl
    | cons m x ih =>
      rw [List.map_cons, List.flatMap_cons, ih, List.filterMap_cons, List.filterMap_cons]
      cases f (.marker (first + m.1) m.2) <;> rfl
  unfold listSegments listMarks
  split
  · have hlead : (if d = .sqlite then [Segment.word "VALUES "] else []).filterMap f = [] := by
      split <;> simp [hf]
    rw [List.filterMap_append, hlead, List.nil_append, filterMap_joined hf, tupleSegments,
      List.flatMap_map, List.filterMap_flatMap]
    refine List.flatMap_congr fun p _ => ?_
    simp only [List.cons_append, List.filterMap_cons, hf, List.filterMap_append,
      filterMap_joined hf, hone, List.filterMap_nil, List.append_nil]
  · split
    · rename_i he
      simp [List.isEmpty_iff.mp he, hf]
    · rw [filterMap_joined hf]
      have := hone (vs.zipIdx.map Prod.swap)
      rw [List.map_map] at this
      exact this

/-- The markers among the segments of a list. -/
theorem marker_mem_listSegments {d : Dialect} {negated : Bool} {first n : Nat} {vs : List Value}
    {v : Value} : .marker n v ∈ listSegments d negated first vs ↔
      ∃ k, (k, v) ∈ listMarks vs ∧ n = first + k := by
  let pair : Segment → Option (Nat × Value)
    | .marker n v => some (n, v)
    | _ => none
  have hpair : .marker n v ∈ listSegments d negated first vs ↔
      (n, v) ∈ (listSegments d negated first vs).filterMap pair := by
    rw [List.mem_filterMap]
    constructor
    · exact fun h => ⟨_, h, rfl⟩
    · rintro ⟨s, hs, h⟩
      cases s with
      | marker m u =>
        obtain ⟨rfl, rfl⟩ := Prod.mk.inj (Option.some.inj h)
        exact hs
      | word _ | name _ => contradiction
  rw [hpair, filterMap_listSegments fun _ => rfl, List.mem_filterMap]
  constructor
  · rintro ⟨⟨k, u⟩, hm, h⟩
    obtain ⟨rfl, rfl⟩ := Prod.mk.inj (Option.some.inj h)
    exact ⟨k, hm, rfl⟩
  · rintro ⟨k, hm, rfl⟩
    exact ⟨(k, v), hm, rfl⟩

theorem filterMap_value_listSegments (d : Dialect) (negated : Bool) (first : Nat)
    (vs : List Value) :
    (listSegments d negated first vs).filterMap Segment.value? = boundMembers vs := by
  rw [filterMap_listSegments fun _ => rfl, ← map_snd_listMarks]
  exact congrFun (List.filterMap_eq_map (f := Prod.snd)) _

theorem map_fst_listMarks {vs : List Value} (h : holdsTuples vs = true) :
    (listMarks vs).map (·.1) = allTupleMarks (groupsOf vs) := by
  rw [listMarks, if_pos h, List.map_flatMap, allTupleMarks]
  refine List.flatMap_congr fun p _ => ?_
  exact List.map_fst_zip (by simp [tupleMarks])

/-- In a list that has a spelling every marker has the number of a value. -/
theorem CanSpell.lt_length {vs : List Value} (h : CanSpell vs) :
    ∀ m ∈ listMarks vs, m.1 < (boundMembers vs).length := by
  intro m hm
  by_cases ht : holdsTuples vs = true
  · rw [boundMembers, if_pos ht]
    refine (h ht).2 m.1 ?_
    rw [← map_fst_listMarks ht]
    exact List.mem_map_of_mem hm
  · rw [listMarks, if_neg ht] at hm
    rw [boundMembers, if_neg ht]
    obtain ⟨p, hp, rfl⟩ := List.mem_map.mp hm
    have := List.mem_zipIdx hp
    simpa using this.2.1

/-- Whether every marker of a list has the number of the value that it stands for. -/
def HasOwnMarks (vs : List Value) : Prop :=
  ∀ m ∈ listMarks vs, (boundMembers vs)[m.1]? = some m.2

/-- Whether the markers of a list have different numbers. -/
def HasDistinctMarks (vs : List Value) : Prop := ((listMarks vs).map (·.1)).Nodup

/-- Tuples of one length have the markers of their values. -/
theorem tupleMarks_even {n : Nat} {groups : List (List Value)} (h : ∀ g ∈ groups, g.length = n)
    (i : Nat) : (groups.zipIdx i).flatMap (fun p => (tupleMarks p.2 p.1).zip p.1) =
      (groups.flatten.zipIdx (i * n)).map Prod.swap := by
  induction groups generalizing i with
  | nil => rfl
  | cons g groups ih =>
    obtain ⟨rfl, hgroups⟩ := List.forall_mem_cons.mp h
    have hnext : (i + 1) * g.length = i * g.length + g.length := Nat.succ_mul i g.length
    have hown : (tupleMarks i g).zip g = (g.zipIdx (i * g.length)).map Prod.swap := by
      refine List.ext_getElem (by simp [tupleMarks]) fun j hj hj' => ?_
      simp [tupleMarks]
    rw [List.zipIdx_cons, List.flatMap_cons, ih hgroups, List.flatten_cons, List.zipIdx_append,
      List.map_append, hown, hnext]

/-- Values that are no tuples, or tuples of one length, have markers with their own numbers. -/
theorem listMarks_even {n : Nat} {vs : List Value}
    (h : holdsTuples vs = true → ∀ g ∈ groupsOf vs, g.length = n) :
    listMarks vs = (boundMembers vs).zipIdx.map Prod.swap := by
  unfold listMarks boundMembers
  split
  · rename_i ht
    simpa using tupleMarks_even (h ht) 0
  · rfl

theorem hasOwnMarks_even {n : Nat} {vs : List Value}
    (h : holdsTuples vs = true → ∀ g ∈ groupsOf vs, g.length = n) : HasOwnMarks vs := by
  intro m hm
  rw [listMarks_even h] at hm
  obtain ⟨⟨v, i⟩, hp, rfl⟩ := List.mem_map.mp hm
  exact List.mem_zipIdx_iff_getElem?.mp hp

theorem hasDistinctMarks_even {n : Nat} {vs : List Value}
    (h : holdsTuples vs = true → ∀ g ∈ groupsOf vs, g.length = n) : HasDistinctMarks vs := by
  have hmarks : (listMarks vs).map (·.1) = List.range (boundMembers vs).length := by
    rw [listMarks_even h, List.map_map]
    refine List.ext_getElem (by simp) fun i hi hi' => ?_
    simp
  rw [HasDistinctMarks, hmarks]
  exact List.nodup_range

/-! ## Pieces -/

namespace Piece

/-- What a piece binds outside lists. -/
def singles : Piece → List Value
  | .marker _ v => [v]
  | _ => []

/-- The values of a list. -/
def listed : Piece → List Value
  | .members _ _ vs => boundMembers vs
  | _ => []

def members? : Piece → Option (List Value)
  | .members _ _ vs => some vs
  | _ => none

/-- The segments of a piece, of which a single value has number `next` and the first value of a list
`nextListed`. -/
def segments (d : Dialect) (next nextListed : Nat) : Piece → List Segment
  | .word s => [.word s]
  | .name s => [.name s]
  | .marker _ v => [.marker next v]
  | .members _ negated vs => listSegments d negated nextListed vs

end Piece

def segmentsFrom (d : Dialect) : Nat → Nat → List Piece → List Segment
  | _, _, [] => []
  | next, nextListed, p :: ps =>
    p.segments d next nextListed ++
      segmentsFrom d (next + p.singles.length) (nextListed + p.listed.length) ps

/-- The number of the first value in a list of a statement. -/
def firstListed (ps : List Piece) : Nat := ps.countP Piece.isMarker + 1

/-- The segments of a statement. -/
def segmentsOf (d : Dialect) (ps : List Piece) : List Segment :=
  segmentsFrom d 1 (firstListed ps) ps

/-- The values of a statement in the order of its markers: with numbers, those of lists are the
last. -/
def valuesOf (style : MarkerStyle) (ps : List Piece) : List Value :=
  match style with
  | .dollar => ps.flatMap Piece.singles ++ ps.flatMap Piece.listed
  | .question | .percent => ps.flatMap fun p => p.singles ++ p.listed

theorem segmentsFrom_append (d : Dialect) (n m : Nat) (ps qs : List Piece) :
    segmentsFrom d n m (ps ++ qs) = segmentsFrom d n m ps ++
      segmentsFrom d (n + (ps.flatMap Piece.singles).length)
        (m + (ps.flatMap Piece.listed).length) qs := by
  induction ps generalizing n m with
  | nil => rfl
  | cons p ps ih =>
    simp only [List.cons_append, segmentsFrom, ih, List.append_assoc, List.flatMap_cons,
      List.length_append, Nat.add_assoc]

theorem countP_isMarker (ps : List Piece) :
    ps.countP Piece.isMarker = (ps.flatMap Piece.singles).length := by
  induction ps with
  | nil => rfl
  | cons p ps ih =>
    rw [List.countP_cons, ih, List.flatMap_cons, List.length_append]
    cases p <;> simp [Piece.isMarker, Piece.singles, Nat.add_comm]

theorem filterMap_value_segmentsFrom (d : Dialect) (n m : Nat) (ps : List Piece) :
    (segmentsFrom d n m ps).filterMap Segment.value? =
      ps.flatMap fun p => p.singles ++ p.listed := by
  induction ps generalizing n m with
  | nil => rfl
  | cons p ps ih =>
    rw [segmentsFrom, List.filterMap_append, ih, List.flatMap_cons]
    cases p with
    | members _ negated vs =>
      rw [Piece.segments, filterMap_value_listSegments]
      rfl
    | _ => rfl

/-- Both orders of the values hold the same values. -/
theorem perm_valuesOf (style style' : MarkerStyle) (ps : List Piece) :
    (valuesOf style ps).Perm (valuesOf style' ps) := by
  have hperm : (ps.flatMap fun p => p.singles ++ p.listed).Perm
      (ps.flatMap Piece.singles ++ ps.flatMap Piece.listed) :=
    List.flatMap_append_perm ps Piece.singles Piece.listed |>.symm
  cases style <;> cases style' <;> first | exact .refl _ | exact hperm | exact hperm.symm

end SqlFragment
