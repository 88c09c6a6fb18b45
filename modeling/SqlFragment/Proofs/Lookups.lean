import SqlFragment.Proofs.Names

/-!
Names that values are bound under. A marker has its value with it. Where markers, lists and members of
lists all have names of their own, the value is also what is found under the name.
-/
namespace SqlFragment

/-! ## Values under names -/

namespace Slot

/-- The marks of its marker, or of the members of its list. -/
def marks : Slot → List Mark
  | .text _ => []
  | .marker m => [m]
  | .list l => l.marks

/-- The names that it takes; a list has a name besides those of its members. -/
def names : Slot → List String
  | .text _ => []
  | .marker m => [m.key]
  | .list l => l.key :: l.marks.map Mark.key

theorem values_eq (s : Slot) : s.values = s.marks.flatMap Mark.values := by
  cases s with
  | text => rfl
  | marker m => exact (List.flatMap_singleton _ _).symm
  | list l => rfl

theorem keys_sublist_names (s : Slot) : (s.marks.map Mark.key).Sublist s.names := by
  cases s with
  | text | marker => exact .refl _
  | list l => exact List.sublist_cons_self _ _

end Slot

/-- The marks of a statement in the order of their values. -/
def marksOf (style : MarkerStyle) (slots : List Slot) : List Mark :=
  match style with
  | .dollar => slots.filterMap Slot.single? ++ (slots.filterMap Slot.list?).flatMap Listing.marks
  | .question | .percent => slots.flatMap Slot.marks

/-- What is found under a name in a statement. -/
def valuesUnder (slots : List Slot) (key : String) : List Value :=
  ((markUnder (slots.flatMap Slot.marks) key).map Mark.values).getD []

theorem mem_marks_of_mem_marksOf {style : MarkerStyle} {slots : List Slot} {m : Mark}
    (h : m ∈ marksOf style slots) : m ∈ slots.flatMap Slot.marks := by
  cases style with
  | question | percent => exact h
  | dollar =>
    rcases List.mem_append.mp h with h | h
    · obtain ⟨s, hs, hm⟩ := List.mem_filterMap.mp h
      cases s with
      | text | list => cases hm
      | marker m' =>
        obtain rfl := Option.some.inj hm
        exact List.mem_flatMap.mpr ⟨_, hs, List.mem_singleton_self _⟩
    · obtain ⟨l, hl, hm⟩ := List.mem_flatMap.mp h
      obtain ⟨s, hs, hsl⟩ := List.mem_filterMap.mp hl
      cases s with
      | text | marker => cases hsl
      | list l' =>
        obtain rfl := Option.some.inj hsl
        exact List.mem_flatMap.mpr ⟨_, hs, hm⟩

theorem keys_sublist_flatMap_names (slots : List Slot) :
    ((slots.flatMap Slot.marks).map Mark.key).Sublist (slots.flatMap Slot.names) := by
  rw [List.map_flatMap]
  induction slots with
  | nil => exact .refl _
  | cons s slots ih => exact s.keys_sublist_names.append ih

section Statements

variable {d : Dialect} {style : MarkerStyle} {ps : List Piece}

/-- The slots of a statement, each under its name. -/
def namedSlots (d : Dialect) (style : MarkerStyle) (ps : List Piece) : List Slot :=
  slots d style ps ((slotNames d ps).map spelled)

/-- Whether no two markers, lists or members of lists have the same name in a statement. -/
def HasOwnNames (d : Dialect) (style : MarkerStyle) (ps : List Piece) : Prop :=
  ((namedSlots d style ps).flatMap Slot.names).Nodup

instance : Decidable (HasOwnNames d style ps) := inferInstanceAs (Decidable (List.Nodup _))

theorem valuesOf_eq (keys : List String) :
    valuesOf style ps = (marksOf style (slots d style ps keys)).flatMap Mark.values := by
  have hall := @values_slotsFrom d style ps 1 (firstListed ps) keys
  have hsingles := @singles_slotsFrom d style ps 1 (firstListed ps) keys
  have hlists := @listed_slotsFrom d style ps 1 (firstListed ps) keys
  cases style with
  | dollar =>
    rw [marksOf, List.flatMap_append, List.flatMap_assoc, valuesOf, slots, hsingles]
    exact congrArg _ hlists.symm
  | question | percent =>
    rw [marksOf, List.flatMap_assoc, valuesOf, ← hall]
    exact List.flatMap_congr fun s _ => s.values_eq

/-- Where names are their own, values can be looked up by them. -/
theorem valuesOf_eq_lookups (h : HasOwnNames d style ps) : valuesOf style ps =
    (marksOf style (namedSlots d style ps)).flatMap fun m =>
      valuesUnder (namedSlots d style ps) m.key := by
  rw [valuesOf_eq ((slotNames d ps).map spelled)]
  refine List.flatMap_congr fun m hm => ?_
  have hkeys := h.sublist (keys_sublist_flatMap_names (namedSlots d style ps))
  have hfound := find?_of_nodup hkeys (mem_marks_of_mem_marksOf hm)
  rw [valuesUnder, markUnder, hfound]
  rfl

/-- The first member of a list of tags has the name of a pattern for a column `tag_1`. -/
example : ¬HasOwnNames .default .question
    [.members "tag" false [.text "a", .text "b"], .marker "tag_1" (.text "x%")] := by
  decide

end Statements

/-! ## Labels that keep names apart -/

/-- Whether a text ends like a name, in an underscore and a number. -/
def isNumbered (label : String) : Bool :=
  (label.toList.reverse.dropWhile Char.isDigit).head? == some '_'

theorem isNumbered_numberedName (label : String) (n : Nat) :
    isNumbered (numberedName label n) = true := by
  have hdigits : ∀ c ∈ (Nat.toDigits 10 n).reverse, c.isDigit = true := by
    have hd : ∀ k < 10, (Nat.digitChar k).isDigit = true := by decide
    intro c hc
    obtain ⟨k, hk, rfl⟩ := exists_of_mem_toDigits (by decide) (List.mem_reverse.mp hc)
    exact hd k hk
  rw [isNumbered, toList_numberedName, List.reverse_append, List.reverse_cons, List.append_assoc,
    List.dropWhile_append_of_pos hdigits]
  rfl

/-- A name with the numbers of a member and of an element behind it. -/
def extended (name : String) (ns : List Nat) : String := ns.foldl numberedName name

/-- Names that are made from texts without numbers are equal only if made alike. -/
theorem extended_inj {a b : String} (ha : isNumbered a = false) (hb : isNumbered b = false)
    {ns ms : List Nat} (h : extended a ns = extended b ms) : a = b ∧ ns = ms := by
  have hsnoc (name : String) (ns : List Nat) (n : Nat) :
      extended name (ns ++ [n]) = numberedName (extended name ns) n := List.foldl_append
  induction ns using List.reverseRecOn generalizing ms with
  | nil =>
    cases ms using List.reverseRecOn with
    | nil => exact ⟨h, rfl⟩
    | append_singleton ms m =>
      rw [hsnoc] at h
      change a = _ at h
      rw [h, isNumbered_numberedName] at ha
      cases ha
  | append_singleton ns n ih =>
    cases ms using List.reverseRecOn with
    | nil =>
      rw [hsnoc] at h
      change _ = b at h
      rw [← h, isNumbered_numberedName] at hb
      cases hb
    | append_singleton ms m =>
      rw [hsnoc, hsnoc] at h
      obtain ⟨hname, rfl⟩ := numberedName_inj h
      obtain ⟨rfl, rfl⟩ := ih hname
      exact ⟨rfl, rfl⟩

/-- A name for a label that does not end like one. -/
def IsRoot (key : String) : Prop :=
  ∃ label n, isNumbered label = false ∧ key = numberedName label n

theorem IsRoot.extended_inj {a b : String} (ha : IsRoot a) (hb : IsRoot b) {ns ms : List Nat}
    (h : extended a ns = extended b ms) : a = b ∧ ns = ms := by
  obtain ⟨a, n, ha, rfl⟩ := ha
  obtain ⟨b, m, hb, rfl⟩ := hb
  obtain ⟨rfl, hnumbers⟩ := @SqlFragment.extended_inj _ _ ha hb (n :: ns) (m :: ms) h
  obtain ⟨rfl, rfl⟩ := List.cons.inj hnumbers
  exact ⟨rfl, rfl⟩

/-- The numbers behind the name of a piece: none for its own, and then those of its members. -/
def Piece.numbers : Piece → List (List Nat)
  | .word _ | .name _ => []
  | .marker _ _ => [[]]
  | .members _ _ vs => [] :: if holdsTuples vs then
      (groupsOf vs).zipIdx.flatMap fun p => p.1.zipIdx.map fun q => [p.2 + 1, q.2 + 1]
    else vs.zipIdx.map fun p => [p.2 + 1]

theorem nodup_map_zipIdx {α β : Type} (f : Nat → β) (hf : Function.Injective f) (xs : List α) :
    (xs.zipIdx.map fun p => f p.2).Nodup := by
  have hmap : xs.zipIdx.map (fun p => f p.2) = (List.range' 0 xs.length).map f := by
    rw [← List.zipIdx_map_snd, List.map_map]
    rfl
  rw [hmap]
  exact List.Nodup.map hf (List.nodup_range' 1)

theorem nodup_numbers (p : Piece) : p.numbers.Nodup := by
  cases p with
  | word | name => exact List.nodup_nil
  | marker => exact List.nodup_singleton _
  | members label negated vs =>
    rw [Piece.numbers]
    split
    · refine List.nodup_cons.mpr ⟨by simp, List.nodup_flatMap.mpr ⟨fun p _ => ?_, ?_⟩⟩
      · exact nodup_map_zipIdx (fun j => [p.2 + 1, j + 1]) (fun i j h => by simpa using h) p.1
      · have hplaces := nodup_map_zipIdx id Function.injective_id (groupsOf vs)
        refine (List.pairwise_map.mp hplaces).imp fun {p q} hne => List.disjoint_left.mpr ?_
        intro ns hp hq
        obtain ⟨_, -, rfl⟩ := List.mem_map.mp hp
        obtain ⟨_, -, h⟩ := List.mem_map.mp hq
        simp only [List.cons.injEq, Nat.add_right_cancel_iff] at h
        exact hne h.1.symm
    · refine List.nodup_cons.mpr ⟨by simp, ?_⟩
      exact nodup_map_zipIdx (fun i => [i + 1]) (fun i j h => by simpa using h) vs

theorem keys_listing (d : Dialect) (style : MarkerStyle) (first : Nat) (key : String)
    (negated : Bool) (vs : List Value) :
    (listing d style first key negated vs).marks.map Mark.key =
      (keyedMembers key vs).map (·.1) := by
  rw [listing, memberMarks, List.map_map]
  exact map_zipIdx_fst (fun e : String × Value => e.1) (keyedMembers key vs) 0

section Statements

variable {d : Dialect} {style : MarkerStyle} {ps : List Piece}

theorem names_slot (n m : Nat) (key : String) (p : Piece) :
    (p.slot d style n m key).names = p.numbers.map (extended key) := by
  cases p with
  | word | name | marker => rfl
  | members label negated vs =>
    refine congrArg (key :: ·) ((keys_listing d style m key negated vs).trans ?_)
    unfold keyedMembers
    split
    · simp only [keyedElements, keyed, List.map_flatMap, List.map_map]
      rfl
    · simp only [keyed, List.map_map]
      rfl

/-- The names of pieces are made from theirs, each from its own. -/
theorem nodup_names_slotsFrom {n m : Nat} {keys : List String}
    (hlength : keys.length = (ps.filterMap Piece.label?).length) (hkeys : keys.Nodup)
    (hroots : ∀ key ∈ keys, IsRoot key) :
    ((slotsFrom d style n m keys ps).flatMap Slot.names).Nodup ∧
      ∀ x ∈ (slotsFrom d style n m keys ps).flatMap Slot.names,
        ∃ key ∈ keys, ∃ ns, x = extended key ns := by
  induction ps generalizing n m keys with
  | nil => exact ⟨List.nodup_nil, List.forall_mem_nil _⟩
  | cons p ps ih =>
    cases p with
    | word | name => exact ih hlength hkeys hroots
    | marker _ _ | members _ _ _ =>
      cases keys with
      | nil => contradiction
      | cons key keys =>
        obtain ⟨hnew, hkeys⟩ := List.nodup_cons.mp hkeys
        obtain ⟨hroot, hroots⟩ := List.forall_mem_cons.mp hroots
        obtain ⟨hnodup, hmade⟩ := @ih (n + _) (m + _) keys (Nat.succ.inj hlength) hkeys hroots
        rw [slotsFrom, List.flatMap_cons, names_slot]
        refine ⟨List.nodup_append.mpr ⟨?_, hnodup, ?_⟩, List.forall_mem_append.mpr ⟨?_, ?_⟩⟩
        · exact (nodup_numbers _).map fun ns ms h => (hroot.extended_inj hroot h).2
        · rintro x hx _ hy rfl
          obtain ⟨ns, -, rfl⟩ := List.mem_map.mp hx
          obtain ⟨other, hother, ms, h⟩ := hmade _ hy
          obtain ⟨rfl, -⟩ := hroot.extended_inj (hroots _ hother) h
          exact hnew hother
        · intro x hx
          obtain ⟨ns, -, rfl⟩ := List.mem_map.mp hx
          exact ⟨key, List.mem_cons_self, ns, rfl⟩
        · intro x hx
          obtain ⟨other, hother, ns, rfl⟩ := hmade x hx
          exact ⟨other, List.mem_cons_of_mem key hother, ns, rfl⟩

/-- Names are their own if no label ends like a name, and none is cut or respelled. -/
theorem hasOwnNames_of_labels (hlabels : ∀ label ∈ ps.filterMap Piece.label?, isNumbered label = false)
    (hnames : ∀ n ∈ slotNames d ps, spelled n = n ∧ n.length + 6 ≤ d.nameLimit) :
    HasOwnNames d style ps := by
  have hroots : ∀ key ∈ slotNames d ps, IsRoot key := by
    intro key hkey
    rcases mem_slotNamesFrom hkey with ⟨label, hlabel, n, -, rfl, -⟩ | ⟨_, _, -, -, hlong⟩
    · exact ⟨label, n, hlabels label hlabel, rfl⟩
    · exact absurd (hnames key hkey).2 (Nat.not_le_of_lt hlong)
  rw [HasOwnNames, namedSlots, map_spelled fun n hn => (hnames n hn).1]
  exact (nodup_names_slotsFrom (length_slotNames d ps) (nodup_slotNames d ps) hroots).1

end Statements

/-! ## Criteria -/

/-- Whether no column has a label that ends like a name. -/
def Catalog.HasPlainLabels (catalog : Catalog) : Prop :=
  ∀ e ∈ catalog.tables, ∀ a ∈ e.2.attributes, isNumbered (columnLabel a.1) = false

instance (catalog : Catalog) : Decidable catalog.HasPlainLabels :=
  inferInstanceAs (Decidable (∀ e ∈ _, ∀ a ∈ _, _))

namespace ClauseCompiler

variable {c : ClauseCompiler} {k : Criteria}

/-- Whether the statement for criteria has no two markers, lists or members of one name. -/
def HasOwnNames (c : ClauseCompiler) (k : Criteria) : Prop :=
  ∀ r, c.clauses k = .ok r → SqlFragment.HasOwnNames c.dialect c.style (headPieces r.1 ++ r.2)

/-- Whether the statement for criteria is read as it is written, and no value is bound under the name
of another. -/
structure IsClear (c : ClauseCompiler) (k : Criteria) : Prop where
  legible : c.IsLegible k
  apart : c.HasOwnNames k

/-- In a catalog with plain names and labels every statement is clear whose own names are not too long
and are spelled as they are. -/
theorem isClear_of_catalog (hcatalog : c.catalog.IsPlain) (htable : IsPlainName c.table)
    (hlabels : c.catalog.HasPlainLabels)
    (hnames : ∀ r, c.clauses k = .ok r → ∀ n ∈ slotNames c.dialect r.2,
      spelled n = n ∧ n.length + 6 ≤ c.dialect.nameLimit) : c.IsClear k := by
  refine ⟨isLegible_of_catalog hcatalog htable, fun r hr => ?_⟩
  have hone {label : String} (h : isNumbered label = false) :
      ∀ l ∈ some label, isNumbered l = false := by
    rintro _ ⟨⟩
    exact h
  have hnone : ∀ l ∈ (none : Option String), isNumbered l = false := by
    rintro _ ⟨⟩
  have hwords : AdmitsWords fun p => ∀ label ∈ p.label?, isNumbered label = false :=
    ⟨fun _ => hnone, fun _ => hone (by decide), fun _ => hone (by decide)⟩
  refine hasOwnNames_of_labels (fun label hlabel => ?_) ?_
  · obtain ⟨p, hp, hlabel⟩ := List.mem_filterMap.mp hlabel
    rcases List.mem_append.mp hp with hp | hp
    · cases (label_headPieces hp).symm.trans hlabel
    · refine forall_clauses hwords (fun name column hcolumn => ?_) hr p hp label hlabel
      obtain ⟨t, a, ht, ha, -⟩ := Catalog.hasColumn_of_resolve hcolumn
      obtain ⟨xs, ys, hattributes, -⟩ := List.lookup_eq_some_iff.mp ha
      have hname : isNumbered (columnLabel column.name) = false :=
        hlabels _ (mem_of_lookup ht) (column.name, a) (by simp [hattributes])
      exact ⟨hnone, hnone, fun _ => hone hname, fun _ _ => hone hname⟩
  · rw [slotNames_silent fun p hp => label_headPieces hp]
    exact hnames r hr

end ClauseCompiler

end SqlFragment
