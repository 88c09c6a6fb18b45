import SqlFragment.Schema.Description
import SqlFragment.Proofs.Names

/-!
Catalogs read from descriptions. A table may be described by the mapping of its attributes alone or
under `attributes`. Both give the same table, unless one of the attributes is called `attributes`:
what describes it is then taken for the attributes of the table.
-/
namespace SqlFragment

/-! ## Attributes -/

section Lookup

variable {κ α : Type} [BEq κ] [LawfulBEq κ] {es : List (κ × α)} {name : κ} {a : α}

theorem mem_of_lookup_name (h : es.lookup name = some a) : (name, a) ∈ es := by
  obtain ⟨before, after, rfl, -⟩ := List.lookup_eq_some_iff.mp h
  simp

theorem lookup_eq_some_iff_mem (distinct : (es.map (·.1)).Nodup) :
    es.lookup name = some a ↔ (name, a) ∈ es := by
  constructor
  · exact mem_of_lookup_name
  · intro h
    obtain ⟨before, after, rfl⟩ := List.append_of_mem h
    refine List.lookup_eq_some_iff.mpr ⟨before, after, rfl, fun e he => ?_⟩
    rw [List.map_append, List.map_cons, List.nodup_append] at distinct
    have hne := distinct.2.2 e.1 (List.mem_map_of_mem he) name List.mem_cons_self
    simpa using hne.symm

end Lookup

namespace Attribute

variable {place : List Value} {v : Value} {a : Attribute}

theorem ofValue_eq_ok (h : ofValue place v = .ok a) : ∃ es, v = .map es ∧
    a.extra = es.filter (fun e => !isField es e.1) ∧ ∀ e ∈ a.extra, e.1.isText = true := by
  unfold ofValue at h
  split at h
  · rename_i es
    dsimp only at h
    split at h
    · rename_i hissues
      obtain rfl := Except.ok.inj h
      refine ⟨es, rfl, rfl, fun e he => ?_⟩
      have hkeys := (List.append_eq_nil_iff.mp hissues).2
      rw [List.map_eq_nil_iff, List.filter_eq_nil_iff] at hkeys
      simpa using hkeys e he
    · cases h
  · cases h

theorem issues_ne_nil {issues : List SchemaIssue} (h : ofValue place v = .error issues) :
    issues ≠ [] := by
  unfold ofValue at h
  split at h
  · dsimp only at h
    split at h
    · cases h
    · rename_i hissues
      obtain rfl := Except.error.inj h
      exact hissues
  · obtain rfl := Except.error.inj h
    exact List.cons_ne_nil _ _

theorem isField_attributes (es : Entries) : isField es (.text "attributes") = false := by
  unfold isField primaryKeyField
  dsimp only
  split <;> decide

/-- No description holds itself. -/
theorem notMem_extra (h : ofValue place (Catalog.fullDescription v) = .ok a) :
    (.text "attributes", v) ∉ a.extra := by
  intro hmem
  obtain ⟨es, hes, hextra, -⟩ := ofValue_eq_ok h
  have hentry : (.text "attributes", v) ∈ es := by
    rw [hextra] at hmem
    exact (List.mem_filter.mp hmem).1
  unfold Catalog.fullDescription at hes
  split at hes
  · cases hes
    simp at hentry
  · subst hes
    have := List.sizeOf_lt_of_mem hentry
    rw [Prod.mk.sizeOf_spec, Value.map.sizeOf_spec] at this
    omega

end Attribute

/-! ## Tables -/

namespace Table

variable {es : Entries} {found : List (String × Attribute)} {name : String} {a : Attribute}

theorem readAttributes_cons {key v : Value} (h : readAttributes ((key, v) :: es) = (found, [])) :
    ∃ name a rest, Attribute.readText key = .ok name ∧
      Attribute.ofValue [.text "attributes", key] v = .ok a ∧ readAttributes es = (rest, []) ∧
      withAttribute name a rest = found := by
  rw [readAttributes] at h
  dsimp only at h
  split at h
  · rename_i name a hname ha
    obtain ⟨hfound, hissues⟩ := Prod.mk.inj h
    exact ⟨name, a, (readAttributes es).1, hname, ha, Prod.ext rfl hissues, hfound⟩
  · rename_i issues _ ha
    obtain ⟨-, hissues⟩ := Prod.mk.inj h
    exact absurd (List.append_eq_nil_iff.mp hissues).1 (Attribute.issues_ne_nil ha)
  · cases (Prod.mk.inj h).2
  · cases (Prod.mk.inj h).2

/-- Every attribute that was read is that of an entry. -/
theorem exists_entry (h : readAttributes es = (found, [])) (hmem : (name, a) ∈ found) :
    ∃ e ∈ es, Attribute.readText e.1 = .ok name ∧
      ∃ place, Attribute.ofValue place e.2 = .ok a := by
  induction es generalizing found with
  | nil =>
    obtain ⟨rfl, -⟩ := Prod.mk.inj h
    cases hmem
  | cons e es ih =>
    obtain ⟨key, v⟩ := e
    obtain ⟨name', a', rest, hkey, hv, hrest, rfl⟩ := readAttributes_cons h
    have htail (hmem : (name, a) ∈ rest) : ∃ e ∈ (key, v) :: es, Attribute.readText e.1 = .ok name ∧
        ∃ place, Attribute.ofValue place e.2 = .ok a := by
      obtain ⟨e, he, hfound⟩ := ih hrest hmem
      exact ⟨e, List.mem_cons_of_mem _ he, hfound⟩
    rcases List.mem_cons.mp hmem with heq | hmem
    · obtain ⟨rfl, ha⟩ := Prod.mk.inj heq
      cases hlookup : rest.lookup name with
      | none =>
        rw [hlookup] at ha
        subst ha
        exact ⟨(key, v), List.mem_cons_self, hkey, _, hv⟩
      | some later =>
        rw [hlookup] at ha
        subst ha
        exact htail (mem_of_lookup_name hlookup)
    · exact htail (List.mem_filter.mp hmem).1

/-- Where names are different, every entry gives its attribute. -/
theorem exists_attribute (h : readAttributes es = (found, []))
    (distinct : (es.map fun e => Attribute.readText e.1).Nodup) {e : Value × Value} (he : e ∈ es) :
    ∃ name a place, Attribute.readText e.1 = .ok name ∧ Attribute.ofValue place e.2 = .ok a ∧
      (name, a) ∈ found := by
  induction es generalizing found with
  | nil => cases he
  | cons e' es ih =>
    obtain ⟨key, v⟩ := e'
    obtain ⟨name', a', rest, hkey, hv, hrest, rfl⟩ := readAttributes_cons h
    obtain ⟨hnew, distinct⟩ := List.nodup_cons.mp distinct
    have hother {name : String} {a : Attribute} (hmem : (name, a) ∈ rest) : name ≠ name' := by
      rintro rfl
      obtain ⟨e, he, hname, -⟩ := exists_entry hrest hmem
      exact hnew (List.mem_map.mpr ⟨e, he, hname.trans hkey.symm⟩)
    rcases List.mem_cons.mp he with rfl | he
    · have hlookup : rest.lookup name' = none := by
        cases hlookup : rest.lookup name' with
        | none => rfl
        | some later => exact absurd rfl (hother (mem_of_lookup_name hlookup))
      refine ⟨name', a', _, hkey, hv, ?_⟩
      rw [withAttribute, hlookup]
      exact List.mem_cons_self
    · obtain ⟨name, a, place, hname, ha, hmem⟩ := ih hrest distinct he
      refine ⟨name, a, place, hname, ha, List.mem_cons_of_mem _ (List.mem_filter.mpr ⟨hmem, ?_⟩)⟩
      simpa using hother hmem

/-- Attributes that were read have names of their own. -/
theorem nodup_readAttributes (es : Entries) : ((readAttributes es).1.map (·.1)).Nodup := by
  induction es with
  | nil => exact List.nodup_nil
  | cons e es ih =>
    obtain ⟨key, v⟩ := e
    rw [readAttributes]
    dsimp only
    split
    · rename_i name a _ _
      rw [withAttribute, List.map_cons, List.nodup_cons]
      refine ⟨by simp, ?_⟩
      exact ih.sublist (List.filter_sublist.map _)
    all_goals exact ih

theorem ofValue_eq_ok {name attributes : Value} {t : Table} (h : ofValue name attributes = .ok t) :
    ∃ es, attributes = .map es ∧ readAttributes es = (t.attributes, []) := by
  unfold ofValue at h
  cases attributes with
  | map es =>
    dsimp only at h
    split at h
    · split at h
      · rename_i hissues
        obtain rfl := Except.ok.inj h
        exact ⟨es, rfl, Prod.ext rfl (List.isEmpty_iff.mp hissues)⟩
      · cases h
    · cases h
  | _ =>
    dsimp only at h
    split at h <;> cases h

theorem nodup_of_ofValue {name attributes : Value} {t : Table}
    (h : ofValue name attributes = .ok t) : t.attributeNames.Nodup := by
  obtain ⟨es, -, hread⟩ := ofValue_eq_ok h
  have hnames := nodup_readAttributes es
  rw [hread] at hnames
  exact hnames

end Table

/-! ## Bare and wrapped descriptions -/

namespace Catalog

variable {name : Value} {m es : Entries} {t : Table} {catalog : Catalog}

/-- The table with the attributes that entries describe. -/
def tableOf (name : Value) (es : Entries) : Except Error Table :=
  match Table.ofValue name (.map (es.map fun e => (e.1, fullDescription e.2))) with
  | .ok t => .ok t
  | .error issues => .error (.attributes issues)

/-- The description of a table with its attributes under `attributes`. -/
def wrapped (m : Entries) : Value := .map [(.text "attributes", .map m)]

theorem table_wrapped (name : Value) (m : Entries) :
    (Source.described (wrapped m)).table name = tableOf name m := rfl

theorem table_bare (name : Value) (h : Value.lookup "attributes" m = none) :
    (Source.described (.map m)).table name = tableOf name m := by
  change Error.ofFault ((Value.lookup "attributes" m).getD (.map m)).asMap >>= _ = _
  rw [h]
  rfl

theorem readAttributes_of_tableOf (h : tableOf name es = .ok t) :
    Table.readAttributes (es.map fun e => (e.1, fullDescription e.2)) = (t.attributes, []) := by
  unfold tableOf at h
  split at h
  · rename_i t' ht'
    obtain rfl := Except.ok.inj h
    obtain ⟨_, hes, hread⟩ := Table.ofValue_eq_ok ht'
    obtain rfl := Value.map.inj hes
    exact hread
  · cases h

/-- Among the entries that describe an attribute, the one called `attributes` is no field. -/
theorem mem_extra {place : List Value} {a : Attribute} {key v : Value}
    (ha : Attribute.ofValue place (.map es) = .ok a) (hmem : (key, v) ∈ es)
    (hkey : Attribute.readText key = .ok "attributes") : (.text "attributes", v) ∈ a.extra := by
  obtain ⟨es', hes, hextra, htexts⟩ := Attribute.ofValue_eq_ok ha
  obtain rfl := Value.map.inj hes
  have hfield : Attribute.isField es key = false := by
    cases key with
    | text s =>
      obtain rfl := Except.ok.inj hkey
      exact Attribute.isField_attributes es
    | _ => rfl
  have hentry : (key, v) ∈ a.extra := by
    rw [hextra]
    exact List.mem_filter.mpr ⟨hmem, by simp [hfield]⟩
  cases key with
  | text s =>
    obtain rfl := Except.ok.inj hkey
    exact hentry
  | _ => cases htexts _ hentry

/-- A description with an attribute called `attributes` does not describe, by that attribute alone,
what it describes as a whole. -/
theorem table_misread (distinct : (m.map fun e => Attribute.readText e.1).Nodup) {v : Value}
    (hlookup : Value.lookup "attributes" m = some v) (ht : tableOf name m = .ok t) :
    (Source.described (.map m)).table name ≠ .ok t := by
  intro hbare
  change Error.ofFault ((Value.lookup "attributes" m).getD (.map m)).asMap >>= _ = _ at hbare
  rw [hlookup, Option.getD_some, bind_eq_ok] at hbare
  obtain ⟨es, hes, hbare⟩ := hbare
  obtain rfl : v = .map es := by
    rw [ofFault_eq_ok] at hes
    cases v with
    | map _ => rw [Except.ok.inj hes]
    | _ => cases hes
  have hentry : (Value.text "attributes", Value.map es) ∈
      m.map fun e => (e.1, fullDescription e.2) :=
    List.mem_map.mpr ⟨_, mem_of_lookup hlookup, rfl⟩
  have hnames : ((m.map fun e => (e.1, fullDescription e.2)).map
      fun e => Attribute.readText e.1).Nodup := by
    rw [List.map_map]
    exact distinct
  obtain ⟨name', a, place, hname, ha, hmem⟩ :=
    Table.exists_attribute (readAttributes_of_tableOf ht) hnames hentry
  obtain rfl := Except.ok.inj hname
  -- read by itself, the description has to give this attribute again
  obtain ⟨e, he, hkey, place', ha'⟩ := Table.exists_entry (readAttributes_of_tableOf hbare) hmem
  obtain ⟨⟨key, v⟩, hv, rfl⟩ := List.mem_map.mp he
  exact Attribute.notMem_extra ha' (mem_extra ha hv hkey)

theorem nodup_of_ofSources {sources : List (Value × Source)} (h : ofSources sources = .ok catalog)
    (ready : ∀ e ∈ sources, ∀ t, e.2 = .ready t → t.attributeNames.Nodup) :
    ∀ e ∈ catalog.tables, e.2.attributeNames.Nodup := by
  induction sources generalizing catalog with
  | nil =>
    obtain rfl := Except.ok.inj h
    exact List.forall_mem_nil _
  | cons e sources ih =>
    obtain ⟨name, source⟩ := e
    obtain ⟨hfirst, hrest⟩ := List.forall_mem_cons.mp ready
    simp only [ofSources, bind_eq_ok, pure_eq_ok] at h
    obtain ⟨t, ht, later, hlater, rfl⟩ := h
    refine List.forall_mem_cons.mpr ⟨?_, ih hlater hrest⟩
    cases source with
    | ready t' =>
      obtain rfl := Except.ok.inj ht
      exact hfirst t' rfl
    | described v =>
      simp only [Source.table, bind_eq_ok] at ht
      obtain ⟨es, -, attributes, -, ht⟩ := ht
      split at ht
      · rename_i t' ht'
        obtain rfl := Except.ok.inj ht
        exact Table.nodup_of_ofValue ht'
      · cases ht

/-- The tables of a catalog that was read name each of their attributes once. -/
theorem nodup_of_ofValue {v : Value} (h : ofValue v = .ok catalog) :
    ∀ e ∈ catalog.tables, e.2.attributeNames.Nodup := by
  simp only [ofValue, bind_eq_ok] at h
  obtain ⟨es, -, h⟩ := h
  apply nodup_of_ofSources h
  intro e he t ht
  obtain ⟨e', -, rfl⟩ := List.mem_map.mp he
  cases ht

theorem ofSources_append {before after : List (Value × Source)} {source : Source} :
    ofSources (before ++ (name, source) :: after) = (do
      let first ← ofSources before
      let t ← source.table name
      let rest ← ofSources after
      return ⟨first.tables ++ (name, t) :: rest.tables⟩) := by
  induction before with
  | nil =>
    rw [List.nil_append, ofSources, ofSources, ok_bind]
    rfl
  | cons e before ih =>
    obtain ⟨name', source'⟩ := e
    rw [List.cons_append, ofSources, ofSources, ih]
    cases source'.table name' with
    | error e => rfl
    | ok t' =>
      cases ofSources before with
      | error e => rfl
      | ok first =>
        cases source.table name with
        | error e => rfl
        | ok t => cases ofSources after <;> rfl

/-- The mapping of its attributes describes a table as well as the same mapping under `attributes`,
unless it has an attribute of that name. Then it never describes what the other describes, be it
that it describes another table or none at all. -/
theorem wrapper_is_optional_iff (before after : Entries) (name : Value) (m : Entries) :
    (Value.lookup "attributes" m = none →
      ofValue (.map (before ++ (name, .map m) :: after)) =
        ofValue (.map (before ++ (name, wrapped m) :: after))) ∧
    ((m.map fun e => Attribute.readText e.1).Nodup → ∀ catalog,
      ofValue (.map (before ++ (name, wrapped m) :: after)) = .ok catalog →
      (ofValue (.map (before ++ (name, .map m) :: after)) = .ok catalog ↔
        Value.lookup "attributes" m = none)) := by
  have hsources (v : Value) : ofValue (.map (before ++ (name, v) :: after)) = ofSources
      (before.map (fun e => (e.1, .described e.2)) ++
        (name, .described v) :: after.map fun e => (e.1, .described e.2)) := by
    change ofSources _ = _
    rw [List.map_append, List.map_cons]
  have hsame (h : Value.lookup "attributes" m = none) :
      ofValue (.map (before ++ (name, .map m) :: after)) =
        ofValue (.map (before ++ (name, wrapped m) :: after)) := by
    rw [hsources, hsources, ofSources_append, ofSources_append, table_bare name h, table_wrapped]
  refine ⟨hsame, ?_⟩
  intro distinct catalog hwrapped
  constructor
  · intro hbare
    rw [hsources, ofSources_append] at hwrapped hbare
    simp only [bind_eq_ok, pure_eq_ok] at hwrapped hbare
    obtain ⟨first, hfirst, t, ht, rest, -, hcatalog⟩ := hwrapped
    obtain ⟨first', hfirst', t', ht', rest', -, hcatalog'⟩ := hbare
    obtain rfl := Except.ok.inj (hfirst.symm.trans hfirst')
    -- the table stands behind the same tables in both catalogs
    have htables := congrArg tables (hcatalog.trans hcatalog'.symm)
    simp only [List.append_cancel_left_eq, List.cons.injEq, Prod.mk.injEq, true_and] at htables
    obtain ⟨rfl, -⟩ := htables
    rw [table_wrapped] at ht
    cases hlookup : Value.lookup "attributes" m with
    | none => rfl
    | some v => exact absurd ht' (table_misread distinct hlookup ht)
  · intro h
    rw [hsame h]
    exact hwrapped

section Sales

/-- The attributes of sales: a number, and a tag that goes by a name. -/
def salesEntries (tag : String) : Entries :=
  [(.text "id", .map [(.text "type", .text "integer"), (.text "primaryKey", .bool true)]),
    (.text tag, .map [(.text "type", .text "json")])]

/-- A tag called `tag` needs no wrapper, and one called `attributes` does. -/
theorem wrapper_is_optional_iff_sales : ∃ tagged catalog,
    ofValue (.map [(.text "sales", wrapped (salesEntries "tag"))]) = .ok tagged ∧
    ofValue (.map [(.text "sales", .map (salesEntries "tag"))]) = .ok tagged ∧
    ofValue (.map [(.text "sales", wrapped (salesEntries "attributes"))]) = .ok catalog ∧
    ofValue (.map [(.text "sales", .map (salesEntries "attributes"))]) ≠ .ok catalog := by
  have htagged : ∃ tagged, ofValue (.map [(.text "sales", wrapped (salesEntries "tag"))]) =
      .ok tagged := ⟨_, rfl⟩
  have hcatalog : ∃ catalog, ofValue (.map [(.text "sales", wrapped (salesEntries "attributes"))]) =
      .ok catalog := ⟨_, rfl⟩
  obtain ⟨tagged, htagged⟩ := htagged
  obtain ⟨catalog, hcatalog⟩ := hcatalog
  have hsame := (wrapper_is_optional_iff [] [] (.text "sales") (salesEntries "tag")).1 rfl
  have hother := (wrapper_is_optional_iff [] [] (.text "sales") (salesEntries "attributes")).2
    (by simp [salesEntries, Attribute.readText]) catalog hcatalog
  refine ⟨tagged, catalog, htagged, hsame.trans htagged, hcatalog, ?_⟩
  intro hbare
  cases hother.mp hbare

end Sales

end Catalog

end SqlFragment
