import Mathlib.Data.List.Nodup
import SqlFragment.Proofs.Segments

/-!
What is written for pieces that are read as they are written: their segments, and the values of their
markers.
-/
namespace SqlFragment

/-- No keyword has what markers and places of lists start with, nor a mark of quotation. -/
def IsKeyword (s : String) : Prop := ∀ c ∈ s.toList, c ∉ ['?', '%', '$', '_', '\x22', '\x60']

instance (s : String) : Decidable (IsKeyword s) := List.decidableBAll _ _

namespace Piece

/-- Names are plain, and no white space keeps a list from being spelled. -/
def IsPlain : Piece → Prop
  | .name s => IsPlainName s
  | .members label _ _ => isStuck label = false
  | .word _ | .marker .. => True

def IsOrdinary : Piece → Prop
  | .word s => IsKeyword s
  | _ => True

/-- The keys that are left after a piece. -/
def keysAfter (keys : List String) (p : Piece) : List String :=
  if p.label?.isSome then keys.tail else keys

end Piece

/-! ## Keys -/

/-- Whether lists get keys that let them be spelled. -/
def KeysFit : List Piece → List String → Prop
  | [], _ => True
  | p :: ps, keys =>
    (p.members?.isSome → isStuck (keys.headD "") = false) ∧ KeysFit ps (p.keysAfter keys)

theorem slotNamesFrom_cons (limit : Nat) (seen : List String) (cuts : Nat) (label : String)
    (labels : List String) : ∃ key cuts',
    slotNamesFrom limit seen cuts (label :: labels) =
      key :: slotNamesFrom limit (label :: seen) cuts' labels ∧
    (isStuck label = false → isStuck key = false) := by
  simp only [slotNamesFrom]
  split
  · exact ⟨_, _, rfl, fun h => isStuck_cutName (isStuck_numberedName h _) _⟩
  · exact ⟨_, _, rfl, fun h => isStuck_numberedName h _⟩

theorem keysFit_slotNamesFrom {ps : List Piece} (h : ∀ p ∈ ps, p.IsPlain) (limit : Nat)
    (seen : List String) (cuts : Nat) :
    KeysFit ps (slotNamesFrom limit seen cuts (ps.filterMap Piece.label?)) := by
  induction ps generalizing seen cuts with
  | nil => trivial
  | cons p ps ih =>
    have htail := fun seen cuts => ih (fun q hq => h q (List.mem_cons_of_mem p hq)) seen cuts
    cases p with
    | word _ | name _ => exact ⟨nofun, htail _ _⟩
    | marker label v =>
      obtain ⟨key, cuts', hkeys, -⟩ :=
        slotNamesFrom_cons limit seen cuts label (ps.filterMap Piece.label?)
      change KeysFit _ (slotNamesFrom limit seen cuts (label :: ps.filterMap Piece.label?))
      rw [hkeys]
      exact ⟨nofun, htail _ _⟩
    | members label negated vs =>
      obtain ⟨key, cuts', hkeys, hkey⟩ :=
        slotNamesFrom_cons limit seen cuts label (ps.filterMap Piece.label?)
      change KeysFit _ (slotNamesFrom limit seen cuts (label :: ps.filterMap Piece.label?))
      rw [hkeys]
      exact ⟨fun _ => hkey (h _ List.mem_cons_self), htail _ _⟩

theorem isBlank_slotChar {c : Char} (h : Text.isBlank c = false) :
    Text.isBlank (slotChar c) = false := by
  unfold slotChar
  repeat' split
  all_goals first | decide | exact h

theorem isStuck_spelled {key : String} (h : isStuck key = false) : isStuck (spelled key) = false := by
  unfold isStuck spelled at *
  rw [String.toList_ofList, List.any_eq_false]
  intro c hc
  obtain ⟨b, hb, rfl⟩ := List.mem_map.mp hc
  rw [isBlank_slotChar (by simpa using List.any_eq_false.mp h b hb)]
  exact Bool.false_ne_true

theorem KeysFit.map_spelled {ps : List Piece} {keys : List String} (h : KeysFit ps keys) :
    KeysFit ps (keys.map spelled) := by
  induction ps generalizing keys with
  | nil => trivial
  | cons p ps ih =>
    refine ⟨fun hp => ?_, ?_⟩
    · cases keys with
      | nil => exact h.1 hp
      | cons key keys => exact isStuck_spelled (h.1 hp)
    · have hkeys : p.keysAfter (keys.map spelled) = (p.keysAfter keys).map spelled := by
        unfold Piece.keysAfter
        split
        · exact List.map_tail.symm
        · rfl
      rw [hkeys]
      exact ih h.2

/-! ## Slots -/

/-- A list that is spelled. -/
def listing (d : Dialect) (style : MarkerStyle) (first : Nat) (key : String) (negated : Bool)
    (vs : List Value) : Listing :=
  let marks := memberMarks style first (keyedMembers key vs)
  ⟨key, listGlyphs d style negated (spellingOf vs) marks, marks⟩

theorem length_marks_listing (d : Dialect) (style : MarkerStyle) (first : Nat) (key : String)
    (negated : Bool) (vs : List Value) :
    (listing d style first key negated vs).marks.length = (boundMembers vs).length := by
  simp [listing, memberMarks, length_keyedMembers]

theorem values_listing (d : Dialect) (style : MarkerStyle) (first : Nat) (key : String)
    (negated : Bool) (vs : List Value) :
    (listing d style first key negated vs).values = boundMembers vs := by
  rw [Listing.values, listing, flatMap_values_memberMarks, map_snd_keyedMembers]

theorem ofMembers_eq_ok {d : Dialect} {style : MarkerStyle} {lost : List String} {first : Nat}
    {key : String} {negated : Bool} {vs : List Value} {l : Listing} (hkey : isStuck key = false) :
    Listing.ofMembers d style lost first key negated vs = .ok l ↔
      key ∉ lost ∧ CanSpell vs ∧ l = listing d style first key negated vs := by
  simp only [Listing.ofMembers, hkey, Bool.false_and, Bool.false_eq_true, if_false, error_bind,
    List.contains_iff_mem, ite_error_eq_ok, bind_eq_ok, spellMembers_eq_ok, pure_eq_ok]
  constructor
  · rintro ⟨hlost, r, ⟨hspell, rfl⟩, rfl⟩
    exact ⟨hlost, hspell, rfl⟩
  · rintro ⟨hlost, hspell, rfl⟩
    exact ⟨hlost, _, ⟨hspell, rfl⟩, rfl⟩

namespace Piece

/-- What a piece with plain names becomes. -/
def slot (d : Dialect) (style : MarkerStyle) (next nextListed : Nat) (key : String) : Piece → Slot
  | .word s => .text s
  | .name s => .text ((d.quoting style).quote s)
  | .marker _ v => .marker ⟨key, style.mark next, [v]⟩
  | .members _ negated vs => .list (listing d style nextListed key negated vs)

end Piece

def slotsFrom (d : Dialect) (style : MarkerStyle) : Nat → Nat → List String → List Piece → List Slot
  | _, _, _, [] => []
  | next, nextListed, keys, p :: ps =>
    p.slot d style next nextListed (keys.headD "") ::
      slotsFrom d style (next + p.singles.length) (nextListed + p.listed.length)
        (p.keysAfter keys) ps

theorem slotsOf_eq_ok {d : Dialect} {style : MarkerStyle} {lost : List String} {n m : Nat}
    {keys : List String} {ps : List Piece} {slots : List Slot} (hfit : KeysFit ps keys) :
    slotsOf d style lost n m keys ps = .ok slots ↔
      (∀ l ∈ (slotsFrom d style n m keys ps).filterMap Slot.list?, l.key ∉ lost) ∧
      (∀ vs ∈ ps.filterMap Piece.members?, CanSpell vs) ∧
      slots = slotsFrom d style n m keys ps := by
  induction ps generalizing n m keys slots with
  | nil => simp [slotsOf, slotsFrom, eq_comm]
  | cons p ps ih =>
    have htail (n m slots) := @ih n m _ slots hfit.2
    cases p with
    | word _ | name _ | marker _ _ =>
      simp only [Piece.keysAfter, Piece.label?, Option.isSome_none, Option.isSome_some, if_true,
        Bool.false_eq_true, if_false] at htail
      simp only [slotsOf, map_eq_ok, htail]
      constructor
      · rintro ⟨slots, ⟨hlost, hspell, rfl⟩, rfl⟩
        exact ⟨hlost, hspell, rfl⟩
      · rintro ⟨hlost, hspell, rfl⟩
        exact ⟨_, ⟨hlost, hspell, rfl⟩, rfl⟩
    | members label negated vs =>
      have hkey := hfit.1 rfl
      simp only [Piece.keysAfter, Piece.label?, Option.isSome_some, if_true] at htail
      simp only [slotsOf, bind_eq_ok, ofMembers_eq_ok hkey, htail, pure_eq_ok]
      constructor
      · rintro ⟨l, ⟨hl, hspell, rfl⟩, slots, ⟨hlost, hspells, rfl⟩, rfl⟩
        rw [length_marks_listing] at hlost ⊢
        exact ⟨List.forall_mem_cons.mpr ⟨hl, hlost⟩, List.forall_mem_cons.mpr ⟨hspell, hspells⟩, rfl⟩
      · rintro ⟨hlost, hspells, rfl⟩
        obtain ⟨hl, hlost⟩ := List.forall_mem_cons.mp hlost
        obtain ⟨hspell, hspells⟩ := List.forall_mem_cons.mp hspells
        refine ⟨_, ⟨hl, hspell, rfl⟩, _, ⟨?_, hspells, rfl⟩, ?_⟩
        · rw [length_marks_listing]
          exact hlost
        · rw [length_marks_listing]
          rfl

theorem mem_slotsFrom {d : Dialect} {style : MarkerStyle} {n m : Nat} {keys : List String}
    {ps : List Piece} (hfit : KeysFit ps keys) {s : Slot} (h : s ∈ slotsFrom d style n m keys ps) :
    ∃ p ∈ ps, ∃ n m key, (p.members?.isSome → isStuck key = false) ∧
      s = p.slot d style n m key := by
  induction ps generalizing n m keys with
  | nil => contradiction
  | cons p ps ih =>
    rcases List.mem_cons.mp h with rfl | h
    · exact ⟨p, List.mem_cons_self, n, m, _, hfit.1, rfl⟩
    · obtain ⟨q, hq, hs⟩ := ih hfit.2 h
      exact ⟨q, List.mem_cons_of_mem p hq, hs⟩

namespace Slot

def key? : Slot → Option String
  | .text _ => none
  | .marker m => some m.key
  | .list l => some l.key

/-- Whether its list, if it is one, is spelled. -/
def IsSpelled : Slot → Prop
  | .list l => isStuck l.key = false
  | _ => True

/-- What is written in its place. -/
def filled : Slot → List Glyph
  | .text s => Glyph.ofText s
  | .marker m => Glyph.ofText m.text
  | .list l => l.glyphs

def values : Slot → List Value
  | .text _ => []
  | .marker m => m.values
  | .list l => l.values

end Slot

theorem isSpelled_slot {d : Dialect} {style : MarkerStyle} {n m : Nat} {key : String} {p : Piece}
    (h : p.members?.isSome → isStuck key = false) : (p.slot d style n m key).IsSpelled := by
  cases p with
  | members => exact h rfl
  | _ => trivial

theorem filterMap_key_slotsFrom {d : Dialect} {style : MarkerStyle} {n m : Nat} {keys : List String}
    {ps : List Piece} (h : keys.length = (ps.filterMap Piece.label?).length) :
    (slotsFrom d style n m keys ps).filterMap Slot.key? = keys := by
  induction ps generalizing n m keys with
  | nil => exact (List.length_eq_zero_iff.mp h).symm
  | cons p ps ih =>
    cases p with
    | word _ | name _ => exact ih h
    | marker _ _ | members _ _ _ =>
      cases keys with
      | nil => contradiction
      | cons key keys => exact congrArg (key :: ·) (ih (Nat.succ.inj h))

theorem passes_glyphs {d : Dialect} {style : MarkerStyle} {n m : Nat} {key : String} {p : Piece}
    (hplain : p.IsPlain) (hword : p.IsOrdinary) (h : p.members?.isSome → isStuck key = false) :
    Passes (p.slot d style n m key).glyphs := by
  cases p with
  | word s =>
    exact passes_ofText (fun hc => hword _ hc (by decide)) (fun hc => hword _ hc (by decide))
  | name s => exact passes_quoted hplain d style
  | marker label v => exact passes_marker _
  | members label negated vs =>
    have hplace : (listing d style m key negated vs).place = [.slot key] :=
      if_neg (by simp [h rfl, listing])
    rw [Piece.slot, Slot.glyphs, hplace]
    exact passes_slot key

/-! ## Filling -/

theorem find?_of_nodup {α : Type} {f : α → String} {xs : List α} (hnodup : (xs.map f).Nodup) {x : α}
    (h : x ∈ xs) : xs.find? (f · == f x) = some x := by
  have hsome : (xs.find? (f · == f x)).isSome := List.find?_isSome.mpr ⟨x, h, beq_self_eq_true _⟩
  obtain ⟨y, hy⟩ := Option.isSome_iff_exists.mp hsome
  have hxy := List.find?_some hy
  rw [hy, List.inj_on_of_nodup_map hnodup (List.mem_of_find?_eq_some hy) h (eq_of_beq hxy)]

theorem keys_sublist (slots : List Slot) :
    ((slots.filterMap Slot.list?).map Listing.key).Sublist (slots.filterMap Slot.key?) := by
  induction slots with
  | nil => exact .slnil
  | cons s slots ih =>
    cases s with
    | text s => exact ih
    | marker m => exact ih.cons _
    | list l => exact ih.cons_cons _

/-- Under its key each list is found. -/
theorem listUnder_eq {slots : List Slot} (hkeys : (slots.filterMap Slot.key?).Nodup) {l : Listing}
    (h : .list l ∈ slots) : listUnder (slots.filterMap Slot.list?) l.key = some l :=
  find?_of_nodup (hkeys.sublist (keys_sublist slots)) (List.mem_filterMap.mpr ⟨_, h, rfl⟩)

namespace Glyph

def mark? : Glyph → Option Mark
  | .marker m => some m
  | _ => none

/-- What is written for it, lists being found under their keys. -/
def put (lists : List Listing) : Glyph → List Glyph
  | .char c => [.char c]
  | .marker m => ofText m.text
  | .slot key => ((listUnder lists key).map Listing.glyphs).getD []

/-- The values it binds where markers have no numbers. -/
def values (lists : List Listing) : Glyph → List Value
  | .marker m => m.values
  | .slot key => ((listUnder lists key).map Listing.values).getD []
  | .char _ => []

end Glyph

section Filling

variable {slots : List Slot} (hspelled : ∀ s ∈ slots, s.IsSpelled)
include hspelled

theorem glyphs_list {l : Listing} (h : .list l ∈ slots) : (Slot.list l).glyphs = [.slot l.key] :=
  if_neg (by simp [show isStuck l.key = false from hspelled _ h])

theorem singleMarks_glyphs (style : MarkerStyle) :
    singleMarks style slots (slots.flatMap Slot.glyphs) = slots.filterMap Slot.single? := by
  have hone : ∀ s ∈ slots, s.glyphs.filterMap Glyph.mark? = s.single?.toList := by
    intro s hs
    cases s with
    | text s =>
      simp [Slot.glyphs, Slot.single?, Glyph.ofText, List.filterMap_map, Function.comp_def,
        Glyph.mark?]
    | marker m => rfl
    | list l =>
      rw [glyphs_list hspelled hs]
      rfl
  have hgs : (slots.flatMap Slot.glyphs).filterMap Glyph.mark? = slots.filterMap Slot.single? := by
    rw [List.filterMap_flatMap, List.filterMap_eq_flatMap_toList]
    exact List.flatMap_congr hone
  cases style with
  | dollar => rfl
  | question => exact hgs
  | percent => exact hgs

variable (hkeys : (slots.filterMap Slot.key?).Nodup)
include hkeys

theorem fill_glyphs : fill (slots.filterMap Slot.list?) (slots.flatMap Slot.glyphs) =
    .ok (slots.flatMap Slot.filled) := by
  have hput : ∀ g ∈ slots.flatMap Slot.glyphs,
      fill.filled (slots.filterMap Slot.list?) g = .ok (g.put (slots.filterMap Slot.list?)) := by
    intro g hg
    obtain ⟨s, hs, hg⟩ := List.mem_flatMap.mp hg
    cases s with
    | text s =>
      obtain ⟨c, -, rfl⟩ := List.mem_map.mp hg
      rfl
    | marker m =>
      obtain rfl := List.mem_singleton.mp hg
      rfl
    | list l =>
      rw [glyphs_list hspelled hs, List.mem_singleton] at hg
      subst hg
      simp [fill.filled, Glyph.put, listUnder_eq hkeys hs]
  have hfilled : ∀ s ∈ slots,
      s.glyphs.flatMap (Glyph.put (slots.filterMap Slot.list?)) = s.filled := by
    intro s hs
    cases s with
    | text s =>
      rw [Slot.glyphs, Glyph.ofText, List.flatMap_map]
      exact List.map_eq_flatMap.symm
    | marker m => simp [Slot.glyphs, Slot.filled, Glyph.put]
    | list l => simp [glyphs_list hspelled hs, Slot.filled, Glyph.put, listUnder_eq hkeys hs]
  rw [fill, mapM_eq_ok hput]
  refine congrArg Except.ok ?_
  rw [← List.flatMap_def, List.flatMap_assoc]
  exact List.flatMap_congr hfilled

theorem boundValues_glyphs (style : MarkerStyle) :
    boundValues style slots (slots.flatMap Slot.glyphs) = match style with
      | .dollar => (slots.filterMap Slot.single?).flatMap Mark.values ++
          (slots.filterMap Slot.list?).flatMap Listing.values
      | .question | .percent => slots.flatMap Slot.values := by
  have hgs : (slots.flatMap Slot.glyphs).flatMap (Glyph.values (slots.filterMap Slot.list?)) =
      slots.flatMap Slot.values := by
    rw [List.flatMap_assoc]
    refine List.flatMap_congr fun s hs => ?_
    cases s with
    | text s => simp [Slot.glyphs, Slot.values, Glyph.ofText, List.flatMap_map, Glyph.values]
    | marker m => simp [Slot.glyphs, Slot.values, Glyph.values]
    | list l => simp [glyphs_list hspelled hs, Slot.values, listUnder_eq hkeys hs, Glyph.values]
  cases style with
  | dollar => rfl
  | question => exact hgs
  | percent => exact hgs

end Filling

/-! ## Texts -/

theorem chars_ofText (s : String) : (Glyph.ofText s).flatMap Glyph.chars = s.toList := by
  rw [Glyph.ofText, List.flatMap_map]
  exact List.flatMap_singleton' _

theorem chars_memberGlyphs (style : MarkerStyle) (m : Mark) :
    (memberGlyphs style m).flatMap Glyph.chars = m.text.toList := by
  unfold memberGlyphs
  split
  · exact List.flatMap_singleton _ _
  · exact chars_ofText _

theorem flatMap_intersperse {α β : Type} (f : α → List β) (sep : List α) (parts : List (List α)) :
    (parts.intersperse sep).flatten.flatMap f =
      ((parts.map (List.flatMap f)).intersperse (sep.flatMap f)).flatten := by
  induction parts with
  | nil => rfl
  | cons p parts ih =>
    cases parts with
    | nil => simp
    | cons q parts => simp_all

theorem chars_joinGlyphs (parts : List (List Glyph)) : (joinGlyphs parts).flatMap Glyph.chars =
    ((parts.map (List.flatMap Glyph.chars)).intersperse ", ".toList).flatten := by
  rw [joinGlyphs, flatMap_intersperse, chars_ofText]

theorem flatMap_joined {β : Type} (f : Segment → List β) (parts : List (List Segment)) :
    (Segment.joined parts).flatMap f =
      ((parts.map (List.flatMap f)).intersperse (f (.word ", "))).flatten := by
  rw [Segment.joined, flatMap_intersperse, List.flatMap_singleton]

theorem chars_joined (d : Dialect) (style : MarkerStyle) (parts : List (List Segment)) :
    (Segment.joined parts).flatMap (Segment.chars d style) =
      ((parts.map (List.flatMap (Segment.chars d style))).intersperse ", ".toList).flatten :=
  flatMap_joined _ parts

section Numberless

variable {β : Type} {f : Segment → List β} (hf : ∀ n v, f (.marker n v) = f (.marker 0 v))
include hf

/-- Where the numbers of markers do not show, a list is the same wherever it stands. -/
theorem flatMap_listSegments (d : Dialect) (negated : Bool) (first : Nat) (vs : List Value) :
    (listSegments d negated first vs).flatMap f = (listSegments d negated 0 vs).flatMap f := by
  unfold listSegments
  split
  · have htuples : (tupleSegments first (groupsOf vs)).map (List.flatMap f) =
        (tupleSegments 0 (groupsOf vs)).map (List.flatMap f) := by
      rw [tupleSegments, tupleSegments, List.map_map, List.map_map]
      refine List.map_congr_left fun p _ => ?_
      simp [flatMap_joined, hf (_ + _), fun m : Nat × Value => hf m.1, Function.comp_def]
    rw [List.flatMap_append, List.flatMap_append, flatMap_joined, flatMap_joined, htuples]
  · split
    · rfl
    · simp [flatMap_joined, hf (_ + _), fun m : Value × Nat => hf m.2, Function.comp_def]

theorem flatMap_segmentsFrom (d : Dialect) (n m : Nat) (ps : List Piece) :
    (segmentsFrom d n m ps).flatMap f = ps.flatMap fun p => (p.segments d 0 0).flatMap f := by
  induction ps generalizing n m with
  | nil => rfl
  | cons p ps ih =>
    rw [segmentsFrom, List.flatMap_append, ih, List.flatMap_cons]
    congr 1
    cases p with
    | members label negated vs => exact flatMap_listSegments hf d negated m vs
    | marker label v => simp [Piece.segments, hf n]
    | word | name => rfl

end Numberless

theorem map_zipIdx_snd {α β : Type} (f : Nat → β) (l : List α) (n : Nat) :
    (l.zipIdx n).map (fun p => f p.2) = (List.range' n l.length).map f := by
  induction l generalizing n with
  | nil => rfl
  | cons a l ih => simp [List.range'_succ, ih]

theorem map_text_memberMarks (style : MarkerStyle) (first : Nat)
    (members : List (String × Value)) :
    (memberMarks style first members).map Mark.text =
      (List.range' 0 members.length).map fun i => style.mark (first + i) := by
  rw [memberMarks, List.map_map]
  exact map_zipIdx_snd (fun i => style.mark (first + i)) members 0

/-- The members at given places, all of which there are. -/
theorem map_filterMap_members (style : MarkerStyle) (first : Nat) (members : List (String × Value))
    {ms : List Nat} (h : ∀ k ∈ ms, k < members.length) :
    (ms.filterMap fun i =>
      (((memberMarks style first members).map (memberGlyphs style)).toArray)[i]?).map
        (List.flatMap Glyph.chars) =
      ms.map fun k => (style.mark (first + k)).toList := by
  induction ms with
  | nil => rfl
  | cons k ms ih =>
    have hk := h k List.mem_cons_self
    have htail := ih fun j hj => h j (List.mem_cons_of_mem k hj)
    have hget : (((memberMarks style first members).map (memberGlyphs style)).toArray)[k]? =
        some (memberGlyphs style ⟨members[k].1, style.mark (first + k), [members[k].2]⟩) := by
      simp [memberMarks, hk]
    rw [List.filterMap_cons_some hget, List.map_cons, List.map_cons, htail, chars_memberGlyphs]

theorem map_zip_tupleMarks (style : MarkerStyle) (first index : Nat) (elements : List Value) :
    ((tupleMarks index elements).zip elements).map (fun m => (style.mark (first + m.1)).toList) =
      (tupleMarks index elements).map fun k => (style.mark (first + k)).toList := by
  have hfst : ((tupleMarks index elements).zip elements).map Prod.fst = tupleMarks index elements :=
    List.map_fst_zip (by simp [tupleMarks])
  rw [← hfst, List.map_map, hfst]
  rfl

/-- The markers of members that are no tuples, from the first on. -/
theorem map_chars_memberGlyphs (style : MarkerStyle) (first : Nat) (key : String) {vs : List Value}
    (ht : ¬holdsTuples vs = true) :
    (memberMarks style first (keyedMembers key vs)).map
        (fun m => (memberGlyphs style m).flatMap Glyph.chars) =
      vs.zipIdx.map fun p => (style.mark (first + p.2)).toList := by
  have hlength : (keyedMembers key vs).length = vs.length := by
    rw [length_keyedMembers, boundMembers, if_neg ht]
  calc _ = ((memberMarks style first (keyedMembers key vs)).map Mark.text).map String.toList := by
        rw [List.map_map]
        exact List.map_congr_left fun m _ => chars_memberGlyphs style m
    _ = (List.range' 0 vs.length).map fun i => (style.mark (first + i)).toList := by
        rw [map_text_memberMarks, List.map_map, hlength]
        rfl
    _ = _ := (map_zipIdx_snd (fun i => (style.mark (first + i)).toList) vs 0).symm

theorem chars_listGlyphs {d : Dialect} {style : MarkerStyle} {negated : Bool} {first : Nat}
    {key : String} {vs : List Value} (h : CanSpell vs) :
    (listing d style first key negated vs).glyphs.flatMap Glyph.chars =
      (listSegments d negated first vs).flatMap (Segment.chars d style) := by
  unfold listing listSegments spellingOf
  split
  · rename_i ht
    have hlength : (keyedMembers key vs).length = (groupsOf vs).flatten.length := by
      rw [length_keyedMembers, boundMembers, if_pos ht]
    simp only [listGlyphs, List.flatMap_append, chars_joinGlyphs, chars_joined, chars_ofText,
      tupleSegments, List.map_map]
    refine congrArg₂ (· ++ ·) ?_ ?_
    · split <;> rfl
    · refine congrArg (fun parts => (List.intersperse _ parts).flatten) ?_
      refine List.map_congr_left fun p hp => ?_
      have hk : ∀ k ∈ tupleMarks p.2 p.1, k < (keyedMembers key vs).length := by
        intro k hk
        rw [hlength]
        exact (h ht).2 k (List.mem_flatMap.mpr ⟨p, hp, hk⟩)
      simp only [Function.comp_apply, List.flatMap_append, List.flatMap_cons, chars_ofText,
        chars_joinGlyphs, map_filterMap_members style first _ hk, chars_joined, List.map_map]
      rw [← map_zip_tupleMarks]
      simp [Function.comp_def, Segment.chars]
  · split
    · simp only [listGlyphs, chars_ofText]
      exact (List.flatMap_singleton _ _).symm
    · rename_i ht _
      simp only [listGlyphs, chars_joinGlyphs, chars_joined, List.map_map]
      refine congrArg (fun parts => (List.intersperse _ parts).flatten) ?_
      refine (map_chars_memberGlyphs style first key ht).trans ?_
      exact List.map_congr_left fun p _ => (List.flatMap_singleton _ _).symm

/-! ## What is passed over -/

theorem passes_joinGlyphs {parts : List (List Glyph)} (h : ∀ p ∈ parts, Passes p) :
    Passes (joinGlyphs parts) := by
  have hcomma : Passes (Glyph.ofText ", ") := passes_ofText (by decide) (by decide)
  induction parts with
  | nil => exact Passes.nil
  | cons p parts ih =>
    obtain ⟨hp, hparts⟩ := List.forall_mem_cons.mp h
    cases parts with
    | nil => simpa [joinGlyphs] using hp
    | cons q parts =>
      have := hp.append (hcomma.append (ih hparts))
      simpa [joinGlyphs] using this

theorem toList_mark_dollar (n : Nat) :
    (MarkerStyle.dollar.mark n).toList = '$' :: Nat.toDigits 10 n := by
  simp [MarkerStyle.mark]

theorem passes_mark (style : MarkerStyle) (n : Nat) : Passes (Glyph.ofText (style.mark n)) := by
  cases style with
  | question =>
    have hmark : Glyph.ofText (MarkerStyle.question.mark n) = [.char '?'] := by
      simp [Glyph.ofText, MarkerStyle.mark]
    rw [hmark]
    exact passes_of_ne (by simp) (by simp)
  | dollar =>
    have hdigit (c : Char) (hc : c.isDigit = false) (hne : c ≠ '$') :
        c ∉ (MarkerStyle.dollar.mark n).toList := by
      rw [toList_mark_dollar, List.mem_cons]
      rintro (h | h)
      · exact hne h
      · simp [Nat.isDigit_of_mem_toDigits (by decide) (by decide) h] at hc
    exact passes_ofText (hdigit _ (by decide) (by decide)) (hdigit _ (by decide) (by decide))
  | percent =>
    have hmark : Glyph.ofText (MarkerStyle.percent.mark n) = [.char '%', .char 's'] := by
      simp [Glyph.ofText, MarkerStyle.mark]
    have hs : Passes [.char 's'] := passes_of_ne (by simp) (by simp)
    rw [hmark]
    refine ⟨fun found rest => ?_, fun rest => ?_⟩
    · have hpercent := @readMarkers_char found '%' (.char 's' :: rest) fun _ => by simp
      exact hpercent.trans (congrArg (_ :: ·) (hs.markers found rest))
    · have hpercent := readSlots_cons (slotAt_of_ne (g := .char '%') (by simp) (.char 's' :: rest))
      exact hpercent.trans (congrArg (_ :: ·) (hs.slots rest))

theorem passes_memberGlyphs {style : MarkerStyle} {first : Nat} {members : List (String × Value)}
    {m : Mark} (h : m ∈ memberMarks style first members) : Passes (memberGlyphs style m) := by
  obtain ⟨e, -, rfl⟩ := List.mem_map.mp h
  unfold memberGlyphs
  split
  · exact passes_marker _
  · exact passes_mark style _

theorem passes_listGlyphs {d : Dialect} {style : MarkerStyle} {negated : Bool} {spelling : Spelling}
    {marks : List Mark} (h : ∀ m ∈ marks, Passes (memberGlyphs style m)) :
    Passes (listGlyphs d style negated spelling marks) := by
  have hmembers : ∀ gs ∈ marks.map (memberGlyphs style), Passes gs := by
    intro gs hgs
    obtain ⟨m, hm, rfl⟩ := List.mem_map.mp hgs
    exact h m hm
  cases spelling with
  | nothing => cases d <;> cases negated <;> exact passes_ofText (by decide) (by decide)
  | each => exact passes_joinGlyphs hmembers
  | tuples groups =>
    have hlead : Passes (Glyph.ofText (if d = .sqlite then "VALUES " else "")) := by
      cases d <;> exact passes_ofText (by decide) (by decide)
    refine hlead.append (passes_joinGlyphs fun gs hgs => ?_)
    obtain ⟨ms, -, rfl⟩ := List.mem_map.mp hgs
    have hopen : Passes (Glyph.ofText "(") := passes_ofText (by decide) (by decide)
    have hclose : Passes (Glyph.ofText ")") := passes_ofText (by decide) (by decide)
    refine (hopen.append (passes_joinGlyphs fun gs hgs => ?_)).append hclose
    obtain ⟨i, -, hi⟩ := List.mem_filterMap.mp hgs
    exact hmembers gs (Array.mem_toList_iff.mpr (Array.mem_of_getElem? hi))

theorem passes_filled {d : Dialect} {style : MarkerStyle} {n m : Nat} {key : String} {p : Piece}
    (hplain : p.IsPlain) (hword : p.IsOrdinary) : Passes (p.slot d style n m key).filled := by
  cases p with
  | word s =>
    exact passes_ofText (fun hc => hword _ hc (by decide)) (fun hc => hword _ hc (by decide))
  | name s => exact passes_quoted hplain d style
  | marker label v => exact passes_mark style n
  | members label negated vs => exact passes_listGlyphs fun m hm => passes_memberGlyphs hm

/-! ## Statements -/

section Statements

variable {d : Dialect} {style : MarkerStyle} {ps : List Piece}

theorem chars_slot {n m : Nat} {key : String} {p : Piece}
    (h : ∀ vs ∈ p.members?, CanSpell vs) :
    (p.slot d style n m key).filled.flatMap Glyph.chars =
      (p.segments d n m).flatMap (Segment.chars d style) := by
  cases p with
  | word s => exact (chars_ofText s).trans (List.flatMap_singleton _ _).symm
  | name s =>
    rw [Piece.slot, Slot.filled, chars_ofText, Quoting.quote, String.toList_ofList]
    exact (List.flatMap_singleton _ _).symm
  | marker label v => exact (chars_ofText _).trans (List.flatMap_singleton _ _).symm
  | members label negated vs => exact chars_listGlyphs (h vs rfl)

theorem chars_slotsFrom {n m : Nat} {keys : List String}
    (h : ∀ vs ∈ ps.filterMap Piece.members?, CanSpell vs) :
    ((slotsFrom d style n m keys ps).flatMap Slot.filled).flatMap Glyph.chars =
      (segmentsFrom d n m ps).flatMap (Segment.chars d style) := by
  induction ps generalizing n m keys with
  | nil => rfl
  | cons p ps ih =>
    have hp : ∀ vs ∈ p.members?, CanSpell vs := fun vs hvs =>
      h vs (List.mem_filterMap.mpr ⟨p, List.mem_cons_self, hvs⟩)
    have hps : ∀ vs ∈ ps.filterMap Piece.members?, CanSpell vs := by
      intro vs hvs
      obtain ⟨q, hq, hvs⟩ := List.mem_filterMap.mp hvs
      exact h vs (List.mem_filterMap.mpr ⟨q, List.mem_cons_of_mem p hq, hvs⟩)
    rw [slotsFrom, segmentsFrom, List.flatMap_cons, List.flatMap_append, List.flatMap_append,
      chars_slot hp, ih hps]

theorem values_slot (n m : Nat) (key : String) (p : Piece) :
    (p.slot d style n m key).values = p.singles ++ p.listed := by
  cases p with
  | members label negated vs => exact values_listing d style m key negated vs
  | _ => rfl

theorem values_slotsFrom (n m : Nat) (keys : List String) :
    (slotsFrom d style n m keys ps).flatMap Slot.values =
      ps.flatMap fun p => p.singles ++ p.listed := by
  induction ps generalizing n m keys with
  | nil => rfl
  | cons p ps ih => rw [slotsFrom, List.flatMap_cons, List.flatMap_cons, values_slot, ih]

theorem singles_slotsFrom (n m : Nat) (keys : List String) :
    ((slotsFrom d style n m keys ps).filterMap Slot.single?).flatMap Mark.values =
      ps.flatMap Piece.singles := by
  induction ps generalizing n m keys with
  | nil => rfl
  | cons p ps ih =>
    have htail := ih (n + p.singles.length) (m + p.listed.length) (p.keysAfter keys)
    cases p with
    | marker label v => exact congrArg (v :: ·) htail
    | _ => exact htail

theorem listed_slotsFrom (n m : Nat) (keys : List String) :
    ((slotsFrom d style n m keys ps).filterMap Slot.list?).flatMap Listing.values =
      ps.flatMap Piece.listed := by
  induction ps generalizing n m keys with
  | nil => rfl
  | cons p ps ih =>
    have htail := ih (n + p.singles.length) (m + p.listed.length) (p.keysAfter keys)
    cases p with
    | members label negated vs =>
      exact congrArg₂ (· ++ ·) (values_listing d style m _ negated vs) htail
    | _ => exact htail

/-- What is written for pieces: the text of their segments. -/
def written (d : Dialect) (style : MarkerStyle) (ps : List Piece) : Written where
  text := String.ofList ((segmentsOf d ps).flatMap (Segment.chars d style))
  values := valuesOf style ps

/-- The slots of a statement. -/
def slots (d : Dialect) (style : MarkerStyle) (ps : List Piece) (keys : List String) : List Slot :=
  slotsFrom d style 1 (firstListed ps) keys ps

theorem filterMap_key_slots {keys : List String}
    (h : keys.length = (ps.filterMap Piece.label?).length) :
    (slots d style ps keys).filterMap Slot.key? = keys :=
  filterMap_key_slotsFrom h

theorem isSpelled_slots {keys : List String} (hfit : KeysFit ps keys) :
    ∀ s ∈ slots d style ps keys, s.IsSpelled := by
  intro s hs
  obtain ⟨p, hp, n, m, key, hkey, rfl⟩ := mem_slotsFrom hfit hs
  exact isSpelled_slot hkey

/-! ### Statements that are read as they are written -/

/-- Whether in slots nothing but their own lists and markers is read: at first under all keys, and then,
when lists are spelled, under the keys of members. -/
structure ReadsBack (style : MarkerStyle) (slots : List Slot) : Prop where
  glyphs : readMarkers (markUnder (slots.filterMap (Slot.mark? style))) none
    (readSlots 0 (slots.flatMap Slot.glyphs)) = slots.flatMap Slot.glyphs
  filled : readMarkers (markUnder (if style = .dollar then
      (slots.filterMap Slot.list?).flatMap Listing.marks else [])) none
    (slots.flatMap Slot.filled) = slots.flatMap Slot.filled

/-- Whether a statement is read as it is written, and every list in it has a key under which it is
spelled. -/
structure IsLegible (d : Dialect) (style : MarkerStyle) (ps : List Piece) : Prop where
  fit : KeysFit ps ((slotNames d ps).map spelled)
  readsBack : ReadsBack style (slots d style ps ((slotNames d ps).map spelled))

/-- Statements with plain names are read as they are written. -/
theorem isLegible_of_plain (hplain : ∀ p ∈ ps, p.IsPlain) (hword : ∀ p ∈ ps, p.IsOrdinary) :
    IsLegible d style ps := by
  have hfit : KeysFit ps ((slotNames d ps).map spelled) :=
    (keysFit_slotNamesFrom hplain _ _ _).map_spelled
  refine ⟨hfit, ?_, ?_⟩
  · have hpass : Passes ((slots d style ps ((slotNames d ps).map spelled)).flatMap Slot.glyphs) := by
      refine Passes.flatMap fun s hs => ?_
      obtain ⟨p, hp, n, m, key, hkey, rfl⟩ := mem_slotsFrom hfit hs
      exact passes_glyphs (hplain p hp) (hword p hp) hkey
    rw [hpass.readSlots_eq, hpass.readMarkers_eq]
  · refine (Passes.flatMap fun s hs => ?_).readMarkers_eq _
    obtain ⟨p, hp, n, m, key, -, rfl⟩ := mem_slotsFrom hfit hs
    exact passes_filled (hplain p hp) (hword p hp)

/-- Under every key something is looked up, and it is lost unless the name is spelled as it is. -/
theorem spelled_of_write (hps : IsLegible d style ps) {w : Written}
    (h : write d style ps = .ok w) :
    (∀ n ∈ slotNames d ps, spelled n = n) ∧ ∀ vs ∈ ps.filterMap Piece.members?, CanSpell vs := by
  unfold write at h
  simp only [error_bind, ite_error_eq_ok, bind_eq_ok, slotsOf_eq_ok hps.fit] at h
  obtain ⟨-, _, ⟨hlists, hspell, rfl⟩, hsingles, -⟩ := h
  change ∀ l ∈ (slots d style ps _).filterMap Slot.list?, _ at hlists
  change ¬(List.any (singleMarks style (slots d style ps _) (readMarkers
    (markUnder ((slots d style ps _).filterMap (Slot.mark? style))) none
      (readSlots 0 ((slots d style ps _).flatMap Slot.glyphs)))) _) = true at hsingles
  rw [hps.readsBack.glyphs, singleMarks_glyphs (isSpelled_slots hps.fit)] at hsingles
  refine ⟨spelled_of_not_lost fun k hk hlost => ?_, hspell⟩
  have hkeys : (slots d style ps ((slotNames d ps).map spelled)).filterMap Slot.key? =
      (slotNames d ps).map spelled :=
    filterMap_key_slots (by rw [List.length_map, length_slotNames])
  rw [← hkeys] at hk
  obtain ⟨s, hs, hk⟩ := List.mem_filterMap.mp hk
  cases s with
  | text _ => contradiction
  | marker m =>
    obtain rfl := Option.some.inj hk
    refine hsingles (List.any_eq_true.mpr ⟨m, List.mem_filterMap.mpr ⟨_, hs, rfl⟩, ?_⟩)
    exact List.contains_iff_mem.mpr hlost
  | list l =>
    obtain rfl := Option.some.inj hk
    exact hlists l (List.mem_filterMap.mpr ⟨_, hs, rfl⟩) hlost

theorem write_of_spelled (hps : IsLegible d style ps) (hspelled : ∀ n ∈ slotNames d ps, spelled n = n)
    (hspell : ∀ vs ∈ ps.filterMap Piece.members?, CanSpell vs) :
    write d style ps = .ok (written d style ps) := by
  obtain ⟨hfit, hglyphs, hfilled⟩ := hps
  rw [map_spelled hspelled] at hfit hglyphs hfilled
  have hkeys : ((slots d style ps (slotNames d ps)).filterMap Slot.key?).Nodup := by
    rw [filterMap_key_slots (length_slotNames d ps)]
    exact nodup_slotNames d ps
  have hslots : ∀ s ∈ slots d style ps (slotNames d ps), s.IsSpelled := isSpelled_slots hfit
  unfold write
  simp only [error_bind, ite_error_eq_ok, bind_eq_ok, pure_eq_ok, map_spelled hspelled,
    lostSpellings_eq_nil hspelled]
  refine ⟨by simp [not_clash hspelled], slots d style ps (slotNames d ps),
    (slotsOf_eq_ok hfit).mpr ⟨fun _ _ => List.not_mem_nil, hspell, rfl⟩, by simp,
    (slots d style ps (slotNames d ps)).flatMap Slot.filled, ?_, ?_⟩
  · rw [hglyphs]
    exact fill_glyphs hslots hkeys
  · rw [hglyphs, hfilled, boundValues_glyphs hslots hkeys]
    have htext := @chars_slotsFrom d style ps 1 (firstListed ps) (slotNames d ps) hspell
    rw [written, Glyph.text, slots, htext, values_slotsFrom, singles_slotsFrom, listed_slotsFrom]
    rfl

/-- When legible pieces are written, and what is written for them. -/
theorem write_eq_ok (hps : IsLegible d style ps) {w : Written} : write d style ps = .ok w ↔
    (∀ n ∈ slotNames d ps, spelled n = n) ∧ (∀ vs ∈ ps.filterMap Piece.members?, CanSpell vs) ∧
      w = written d style ps := by
  constructor
  · intro h
    obtain ⟨hspelled, hspell⟩ := spelled_of_write hps h
    rw [write_of_spelled hps hspelled hspell] at h
    exact ⟨hspelled, hspell, (Except.ok.inj h).symm⟩
  · rintro ⟨hspelled, hspell, rfl⟩
    exact write_of_spelled hps hspelled hspell

end Statements

end SqlFragment
