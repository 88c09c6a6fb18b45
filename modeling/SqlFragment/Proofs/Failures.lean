import SqlFragment.Proofs.Binding
import SqlFragment.Proofs.Locations

/-!
Failures of compiling. What is checked before a statement is written fails with errors about criteria.
Writing checks nothing more: a list without a spelling, a name that is not spelled as it is, and a
number that cannot be moved are faults, and not errors that say what is wrong with the criteria.
-/
namespace SqlFragment

/-! ## Errors about criteria -/

/-- Whether an error is one of those about criteria. -/
def Error.IsOwn (e : Error) : Prop := ∃ kind, e.kind? = some kind ∧ .criteria ∈ kind.ancestors

theorem Error.not_isOwn_fault (f : Fault) : ¬(Error.fault f).IsOwn := by
  rintro ⟨kind, hkind, -⟩
  cases hkind

/-- Whether an error is about criteria, or else about the names of tables, not all of which are
texts. -/
def Catalog.Tells (catalog : Catalog) (e : Error) : Prop :=
  e.IsOwn ∨ e = .fault .foreignName ∧ ∃ name ∈ catalog.names, name.isText = false

theorem Catalog.Tells.isOwn {catalog : Catalog} {e : Error} (h : catalog.Tells e)
    (names : ∀ name ∈ catalog.names, name.isText = true) : e.IsOwn := by
  rcases h with hown | ⟨-, name, mem, hforeign⟩
  · exact hown
  · cases (names name mem).symm.trans hforeign

theorem Error.isOwn_invalid (cause : Invalid) (path : Option Path) :
    (Error.invalid cause path).IsOwn := ⟨.validation, rfl, by decide⟩

theorem Error.isOwn_unknownOperator (operator : Value) (valid : List String) :
    (Error.unknownOperator operator valid).IsOwn := ⟨.operator, rfl, by decide⟩

theorem exists_mapM_text {vs : List Value} (h : ∀ v ∈ vs, v.isText = true) :
    ∃ ts, vs.mapM Value.text? = some ts := by
  induction vs with
  | nil => exact ⟨[], rfl⟩
  | cons v vs ih =>
    obtain ⟨hv, hvs⟩ := List.forall_mem_cons.mp h
    obtain ⟨t, ht⟩ := Option.isSome_iff_exists.mp hv
    obtain ⟨ts, hts⟩ := ih hvs
    exact ⟨t :: ts, by rw [List.mapM_cons, ht, hts]; rfl⟩

theorem Catalog.resolve_tells {catalog : Catalog} {table name : String} {e : Error}
    (h : catalog.resolve table name = .error e) : catalog.Tells e := by
  unfold Catalog.resolve at h
  generalize splitAtLastDot name = parts at h
  obtain ⟨before, column⟩ := parts
  simp only at h
  split at h
  · obtain rfl := Except.error.inj h
    unfold Error.noFieldTable
    split
    · exact .inl ⟨.field, rfl, by decide⟩
    · rename_i hnames
      refine .inr ⟨rfl, ?_⟩
      by_contra hall
      push Not at hall
      obtain ⟨ts, hts⟩ := exists_mapM_text fun v hv => by simpa using hall v hv
      cases hts.symm.trans hnames
  · split at h
    · obtain rfl := Except.error.inj h
      exact .inl ⟨.field, rfl, by decide⟩
    · split at h
      · obtain rfl := Except.error.inj h
        exact .inl ⟨.queryable, rfl, by decide⟩
      · cases h

namespace Filter

theorem IsPlaced.isOwn {filter : Value} {e : Error} (h : IsPlaced filter e) : e.IsOwn := by
  obtain ⟨cause, place, _, rfl, -⟩ := h
  exact Error.isOwn_invalid cause _

/-- A filter that is not brought into nodes is told why. -/
theorem toNode_isOwn {filter : Value} {e : Error}
    (keys : ∀ es, filter = .map es → Value.lookup "op" es = none → ∀ x ∈ es, HasTextKeys x)
    (h : toNode filter = .error e) : e.IsOwn := by
  by_cases hop : ∃ es, filter = .map es ∧ (Value.lookup "op" es).isSome
  · obtain ⟨es, rfl, hop⟩ := hop
    rw [toNode, if_neg (by cases es <;> simp_all [Value.isTruthy, Value.lookup])] at h
    simp [hop] at h
  · have plain : ∀ es, filter = .map es → Value.lookup "op" es = none := fun es hes =>
      Option.not_isSome_iff_eq_none.mp fun hsome => hop ⟨es, hes, hsome⟩
    have hfault := ((toNode_eq_error_iff (fun es hes => keys es hes (plain es hes)) plain).mp h).2
    rcases hfault.isPlaced .root with hkind | hplaced
    · exact ⟨.operator, hkind, by decide⟩
    · exact hplaced.isOwn

end Filter

namespace ClauseCompiler

open SqlFragment.Filter

variable {c : ClauseCompiler} {k : Criteria} {e : Error}

/-- What a registry says of an operand that it has no test for, if that can be written. -/
theorem test_fails {r : Registry} {op : Operator} {v : Value} (h : r.test op v = .error e) :
    e.IsOwn ∨ e = .fault .unreadableNumber ∧ (∃ s, r.get? op = some s ∧ Registry.Writes s v) ∧
      v.isWritable = false := by
  unfold Registry.test at h
  split at h
  · rename_i s hs
    rcases Registry.strategy_fails (fun t => t.elim) h with ⟨rfl, writes, hv⟩ | ⟨op, rfl⟩
    · exact .inr ⟨rfl, ⟨s, hs, writes⟩, hv⟩
    · exact .inl (Error.isOwn_invalid _ _)
  · obtain rfl := Except.error.inj h
    exact .inl (Error.isOwn_unknownOperator _ _)

/-- The values that are written into a pattern, or into what is told of criteria. -/
inductive IsTold (c : ClauseCompiler) (k : Criteria) : Value → Prop
  | operator {node : Value} {es : Entries} (filter : toNode k.filter = .ok node)
      (leaf : HasLeaf node es) : IsTold c k (Value.get es "op")
  | nameless {node : Value} {es : Entries} (filter : toNode k.filter = .ok node)
      (leaf : HasLeaf node es) (nameless : Tree.IsNameless es) : IsTold c k (.map es)
  | operand {node : Value} {es : Entries} {op : Operator} {s : Strategy}
      (filter : toNode k.filter = .ok node) (leaf : HasLeaf node es)
      (word : Operator.ofName? (nodeWord es) = some op) (strategy : c.registry.get? op = some s)
      (writes : Registry.Writes s (Value.get es "val")) : IsTold c k (Value.get es "val")
  | direction {es : Entries} {name direction : Value} (sort : k.sort = .map es)
      (mem : (name, direction) ∈ es) : IsTold c k direction
  | limit (refused : ∀ n : Nat, k.limit.toInt? ≠ some n) : IsTold c k k.limit
  | skip (refused : ∀ n : Nat, k.skip.toInt? ≠ some n) : IsTold c k k.skip

/-- Whether an error comes of a value that cannot be told, since it has too many digits. -/
def IsUntold (c : ClauseCompiler) (k : Criteria) (e : Error) : Prop :=
  e = .fault .unreadableNumber ∧ ∃ v, c.IsTold k v ∧ v.isWritable = false

theorem readLeaf_tells {place : Path} {node : Value} {es : Entries}
    (filter : toNode k.filter = .ok node) (leaf : HasLeaf node es)
    (h : Tree.readLeaf c.condition (place, es) = .error e) : c.catalog.Tells e ∨ c.IsUntold k e := by
  rcases bind_eq_error.mp h with h | ⟨l, hl, h⟩
  · cases Tree.leafFault_of_leafOf h with
    | unwritable op => exact .inr ⟨rfl, _, .operator filter leaf, op⟩
    | untold nameless whole => exact .inr ⟨rfl, _, .nameless filter leaf nameless, whole⟩
    | nameless => exact .inl (.inl (Error.isOwn_invalid _ _))
    | unknown => exact .inl (.inl (Error.isOwn_unknownOperator _ _))
  · obtain ⟨-, -, -, word, operand⟩ := Tree.leafOf_eq_ok_iff.mp hl
    rcases bind_eq_error.mp h with h | ⟨column, -, h⟩
    · exact .inl (Catalog.resolve_tells h)
    · rcases bind_eq_error.mp h with h | ⟨test, -, h⟩
      · rcases test_fails h with h | ⟨rfl, ⟨s, strategy, writes⟩, hv⟩
        · exact .inl (.inl h)
        · rw [← operand] at writes hv
          exact .inr ⟨rfl, _, .operand filter leaf word strategy writes, hv⟩
      · cases h

theorem predicate_tells
    (keys : ∀ es, k.filter = .map es → Value.lookup "op" es = none → ∀ x ∈ es, HasTextKeys x)
    (h : c.predicate k.filter = .error e) : c.catalog.Tells e ∨ c.IsUntold k e := by
  rcases bind_eq_error.mp h with h | ⟨node, hnode, h⟩
  · exact .inl (.inl (toNode_isOwn keys h))
  · split at h
    · cases h
    · rcases bind_eq_error.mp h with h | ⟨_, -, h⟩
      · rcases (Tree.read_fails c.condition node).1 _ _ .root e h with
          h | ⟨_, mem, place, es, leaf, -, hread⟩
        · exact .inl (.inl h.isOwn)
        · obtain rfl := List.mem_singleton.mp mem
          exact readLeaf_tells hnode leaf hread
      · cases h

/-- What is told is an error about criteria, unless it cannot be written. -/
theorem telling_fails {v : Value} {cause : Invalid} {path : Option Path}
    (told : c.IsTold k v) (h : Error.telling v (.invalid cause path) = e) :
    c.catalog.Tells e ∨ c.IsUntold k e := by
  rcases Error.telling_eq_iff.mp h with ⟨-, rfl⟩ | ⟨hv, rfl⟩
  · exact .inl (.inl (Error.isOwn_invalid _ _))
  · exact .inr ⟨rfl, v, told, hv⟩

theorem sortTerm_tells {name : String} {direction : Value} (told : c.IsTold k direction)
    (h : c.sortTerm (.text name) direction = .error e) : c.catalog.Tells e ∨ c.IsUntold k e := by
  rcases bind_eq_error.mp h with h | ⟨_, -, h⟩
  · cases h
  · rcases bind_eq_error.mp h with h | ⟨_, -, h⟩
    · exact .inl (Catalog.resolve_tells h)
    · rcases bind_eq_error.mp h with h | ⟨_, -, h⟩
      · unfold SortDirection.ofValue at h
        extract_lets found? at h
        cases hfound : found? with
        | some d =>
          rw [hfound] at h
          cases h
        | none =>
          rw [hfound] at h
          exact telling_fails told (Except.error.inj h)
      · cases h

theorem sortPieces_tells
    (sort : k.sort = .null ∨ ∃ es, k.sort = .map es ∧ ∀ x ∈ es, x.1.isText = true)
    (h : c.sortPieces k.sort = .error e) : c.catalog.Tells e ∨ c.IsUntold k e := by
  unfold sortPieces at h
  split at h
  · cases h
  · rename_i hsome
    rcases sort with hsort | ⟨es, hsort, texts⟩
    · simp [hsort, Value.isTruthy] at hsome
    · rw [hsort] at h
      rcases bind_eq_error.mp h with h | ⟨es', hes, h⟩
      · cases h
      · obtain rfl := Except.ok.inj hes
        rcases bind_eq_error.mp h with h | ⟨_, -, h⟩
        · obtain ⟨⟨key, direction⟩, hx, h⟩ := exists_of_mapM_eq_error h
          obtain ⟨name, hname⟩ := Option.isSome_iff_exists.mp (texts _ hx)
          have hkey : key = .text name := by
            cases key <;> simp_all [Value.text?]
          have told : c.IsTold k direction := .direction hsort hx
          rw [hkey] at h
          exact sortTerm_tells told h
        · cases h

theorem rowCount_tells {field : String} {v : Value}
    (told : (∀ n : Nat, v.toInt? ≠ some n) → c.IsTold k v) (h : rowCount field v = .error e) :
    c.catalog.Tells e ∨ c.IsUntold k e := by
  unfold rowCount at h
  split at h
  · cases h
  · split at h
    · rename_i n hn
      split at h
      · cases h
      · rename_i hneg
        refine telling_fails (told fun m hm => hneg ?_) (Except.error.inj h)
        obtain rfl := Option.some.inj (hn.symm.trans hm)
        exact Int.natCast_nonneg m
    · rename_i hn
      refine telling_fails (told fun m hm => ?_) (Except.error.inj h)
      cases hn.symm.trans hm

/-- All that is checked before the statement is written is told of, if it can be. -/
theorem clauses_tells
    (keys : ∀ es, k.filter = .map es → Value.lookup "op" es = none → ∀ x ∈ es, HasTextKeys x)
    (sort : k.sort = .null ∨ ∃ es, k.sort = .map es ∧ ∀ x ∈ es, x.1.isText = true)
    (h : c.clauses k = .error e) : c.catalog.Tells e ∨ c.IsUntold k e := by
  rcases bind_eq_error.mp h with h | ⟨_, -, h⟩
  · exact predicate_tells keys h
  · rcases bind_eq_error.mp h with h | ⟨_, -, h⟩
    · exact sortPieces_tells sort h
    · rcases bind_eq_error.mp h with h | ⟨_, -, h⟩
      · exact rowCount_tells .limit h
      · rcases bind_eq_error.mp h with h | ⟨_, -, h⟩
        · exact rowCount_tells .skip h
        · cases h

/-! ### What can be told -/

theorem isWritable_get {es : Entries} (h : (Value.map es).isWritable = true) (key : String) :
    (Value.get es key).isWritable = true := by
  rw [Value.get]
  cases hv : Value.lookup key es with
  | none => rfl
  | some v => exact (Value.areWritableEntries_iff.mp h _ (mem_of_lookup hv)).2

theorem isWritable_leaf {node : Value} {es : Entries} (h : HasLeaf node es)
    (hnode : node.isWritable = true) : (Value.map es).isWritable = true := by
  induction h with
  | leaf word => exact hnode
  | @group es _ _ _ node word conditions mem _ ih =>
    have hlist := isWritable_get hnode "conditions"
    rw [Value.get, conditions] at hlist
    exact ih (Value.areWritable_iff.mp hlist node mem)
  | @negation es _ _ word condition _ _ ih =>
    have hpart := isWritable_get hnode "condition"
    rw [Value.get, condition] at hpart
    exact ih hpart

/-- If all numbers of criteria can be written, so can all that is told. -/
theorem IsTold.isWritable
    (filter : ∀ node, toNode k.filter = .ok node → node.isWritable = true)
    (sort : k.sort.isWritable = true) (limit : k.limit.isWritable = true)
    (skip : k.skip.isWritable = true) {v : Value} (h : c.IsTold k v) : v.isWritable = true := by
  cases h with
  | operator hnode leaf => exact isWritable_get (isWritable_leaf leaf (filter _ hnode)) "op"
  | nameless hnode leaf => exact isWritable_leaf leaf (filter _ hnode)
  | operand hnode leaf => exact isWritable_get (isWritable_leaf leaf (filter _ hnode)) "val"
  | direction hsort mem =>
    rw [hsort] at sort
    exact (Value.areWritableEntries_iff.mp sort _ mem).2
  | limit => exact limit
  | skip => exact skip

end ClauseCompiler

/-! ## Faults of writing -/

/-- What keeps a list from being spelled. -/
inductive ListFault (vs : List Value) : Fault → Prop
  | notIterable {v : Value} (tuples : holdsTuples vs = true) (mem : v ∈ vs)
      (flat : v.elements? = none) : ListFault vs .notIterable
  | markerRange {n : Nat} (tuples : holdsTuples vs = true) (mem : n ∈ allTupleMarks (groupsOf vs))
      (beyond : (groupsOf vs).flatten.length ≤ n) : ListFault vs .markerRange

section Lists

variable {vs : List Value} {f : Fault}

theorem spellMembers_eq_error {key : String} (h : spellMembers key vs = .error f) :
    ListFault vs f := by
  unfold spellMembers at h
  split at h
  · rename_i tuples
    rcases bind_eq_error.mp h with h | ⟨groups, hgroups, h⟩
    · obtain ⟨v, mem, h⟩ := exists_of_mapM_eq_error h
      cases hv : v.elements? with
      | some es =>
        rw [hv] at h
        cases h
      | none =>
        rw [hv] at h
        obtain rfl := Except.error.inj h
        exact .notIterable tuples mem hv
    · obtain ⟨-, rfl⟩ := tupleElements_eq_ok.mp hgroups
      dsimp only at h
      split at h
      · cases h
      · rename_i hmarks
        obtain rfl := Except.error.inj h
        have hbeyond := mt marks_all_iff.mpr hmarks
        push Not at hbeyond
        obtain ⟨n, mem, beyond⟩ := hbeyond
        exact .markerRange tuples mem beyond
  · cases h

variable {d : Dialect} {style : MarkerStyle} {lost : List String}

theorem ofMembers_eq_error {first : Nat} {key : String} {negated : Bool}
    (h : Listing.ofMembers d style lost first key negated vs = .error f) :
    ListFault vs f ∨ f = .lostName ∧ lost ≠ [] := by
  unfold Listing.ofMembers at h
  split at h
  · cases h
  · split at h
    · rename_i hlost
      obtain rfl := Except.error.inj h
      exact .inr ⟨rfl, List.ne_nil_of_mem (List.contains_iff_mem.mp hlost)⟩
    · rcases bind_eq_error.mp h with h | ⟨_, -, h⟩
      · exact .inl (spellMembers_eq_error h)
      · cases h

theorem slotsOf_eq_error {ps : List Piece} {next nextListed : Nat} {keys : List String}
    (h : slotsOf d style lost next nextListed keys ps = .error f) :
    (∃ vs ∈ ps.filterMap Piece.members?, ListFault vs f) ∨ f = .lostName ∧ lost ≠ [] := by
  induction ps generalizing next nextListed keys with
  | nil => cases h
  | cons p ps ih =>
    cases p with
    | word | name | marker => exact ih (map_eq_error.mp h)
    | members label negated vs =>
      have hlater (h : (∃ vs ∈ ps.filterMap Piece.members?, ListFault vs f) ∨
          f = .lostName ∧ lost ≠ []) :
          (∃ vs' ∈ (Piece.members label negated vs :: ps).filterMap Piece.members?,
            ListFault vs' f) ∨ f = .lostName ∧ lost ≠ [] := by
        refine h.imp_left ?_
        rintro ⟨vs', mem, hfault⟩
        exact ⟨vs', List.mem_cons_of_mem vs mem, hfault⟩
      rcases bind_eq_error.mp h with h | ⟨l, -, h⟩
      · exact (ofMembers_eq_error h).imp_left fun hfault => ⟨vs, List.mem_cons_self, hfault⟩
      · rcases bind_eq_error.mp h with h | ⟨_, -, h⟩
        · exact hlater (ih h)
        · cases h

end Lists

section Statements

variable {d : Dialect} {style : MarkerStyle} {ps : List Piece} {f : Fault}

theorem fill_eq_error {lists : List Listing} {gs : List Glyph} (h : fill lists gs = .error f) :
    f = .lostName := by
  obtain ⟨g, -, h⟩ := exists_of_mapM_eq_error (map_eq_error.mp h)
  cases g with
  | char | marker => cases h
  | slot key =>
    change (listUnder lists key).elim (Except.error Fault.lostName) (fun l => .ok l.glyphs) = _ at h
    cases hlist : listUnder lists key with
    | some l =>
      rw [hlist] at h
      cases h
    | none =>
      rw [hlist] at h
      exact (Except.error.inj h).symm

/-- What keeps a statement from being written: a list, a name that is not spelled as it is, or a name
that is read as something else. -/
theorem write_eq_error (h : write d style ps = .error f) :
    (∃ vs ∈ ps.filterMap Piece.members?, ListFault vs f) ∨
      (f = .lostName ∨ f = .sharedSpelling) ∧ (∃ n ∈ slotNames d ps, spelled n ≠ n) ∨
      f = .lostName ∧ ¬IsLegible d style ps := by
  have hunspelled (h : lostSpellings (slotNames d ps) ≠ []) :
      ∃ n ∈ slotNames d ps, spelled n ≠ n := by
    by_contra hall
    push Not at hall
    exact h (lostSpellings_eq_nil hall)
  have hwhole := h
  unfold write at h
  simp only [error_bind, ite_error_eq_error, bind_eq_error] at h
  rcases h with ⟨hclash, rfl⟩ | ⟨-, h | ⟨slots, hslots, ⟨hany, rfl⟩ | ⟨-, h | ⟨_, -, h⟩⟩⟩⟩
  · refine .inr (.inl ⟨.inr rfl, ?_⟩)
    by_contra hall
    push Not at hall
    rw [not_clash hall] at hclash
    cases hclash
  · refine (slotsOf_eq_error h).imp_right ?_
    rintro ⟨rfl, hlost⟩
    exact .inl ⟨.inl rfl, hunspelled hlost⟩
  · obtain ⟨m, -, hm⟩ := List.any_eq_true.mp hany
    exact .inr (.inl ⟨.inl rfl, hunspelled (List.ne_nil_of_mem (List.contains_iff_mem.mp hm))⟩)
  · obtain rfl := fill_eq_error h
    by_cases hspelled : ∀ n ∈ slotNames d ps, spelled n = n
    · -- nothing but a name that is read as something else is left
      refine .inr (.inr ⟨rfl, fun hlegible => ?_⟩)
      have hspell := ((slotsOf_eq_ok hlegible.fit).mp hslots).2.1
      cases hwhole.symm.trans (write_of_spelled hlegible hspelled hspell)
    · push Not at hspelled
      exact .inr (.inl ⟨.inl rfl, hspelled⟩)
  · cases h

end Statements

namespace ClauseCompiler

open SqlFragment.Filter

variable {c : ClauseCompiler} {k : Criteria}

theorem settle_eq_error {w : Written} {head : Nat} {f : Fault}
    (h : w.settle c.style c.start head = .error f) :
    f = .unreadableNumber ∧ c.style = .dollar ∧ c.start ≠ 1 := by
  unfold Written.settle at h
  dsimp only at h
  split at h
  · rename_i hstyle
    have h := map_eq_error.mp h
    unfold renumber at h
    dsimp only at h
    split at h
    · cases h
    · rename_i hstart
      split at h
      · cases h
      · exact ⟨(Except.error.inj h).symm, hstyle, hstart⟩
  · cases h

/-- What stops the writing of criteria in which nothing is wrong. -/
inductive WritingFault (c : ClauseCompiler) (k : Criteria) : Fault → Prop
  | list {r : List String × List Piece} {vs : List Value} {f : Fault} (clauses : c.clauses k = .ok r)
      (mem : vs ∈ r.2.filterMap Piece.members?) (fault : ListFault vs f) : WritingFault c k f
  | name {r : List String × List Piece} {n : String} {f : Fault} (clauses : c.clauses k = .ok r)
      (mem : n ∈ slotNames c.dialect r.2) (respelled : spelled n ≠ n)
      (fault : f = .lostName ∨ f = .sharedSpelling) : WritingFault c k f
  | text (illegible : ¬c.IsLegible k) : WritingFault c k .lostName
  | number (style : c.style = .dollar) (start : c.start ≠ 1) : WritingFault c k .unreadableNumber

theorem writingFault_of_clauses {r : List String × List Piece} {e : Error}
    (hr : c.clauses k = .ok r) (h : c.compile k = .error e) :
    ∃ f, e = .fault f ∧ c.WritingFault k f := by
  rw [compile, hr, ok_bind] at h
  rcases bind_eq_error.mp h with h | ⟨w, -, h⟩
  · obtain ⟨f, hwrite, rfl⟩ := ofFault_eq_error.mp h
    refine ⟨f, rfl, ?_⟩
    have hhead := write_eq_error hwrite
    rw [members_silent fun p hp => label_headPieces hp,
      slotNames_silent fun p hp => label_headPieces hp] at hhead
    rcases hhead with ⟨vs, mem, fault⟩ | ⟨fault, n, mem, respelled⟩ | ⟨rfl, illegible⟩
    · exact .list hr mem fault
    · exact .name hr mem respelled fault
    · exact .text fun hlegible => illegible (hlegible r hr)
  · obtain ⟨f, hsettle, rfl⟩ := ofFault_eq_error.mp h
    obtain ⟨rfl, hstyle, hstart⟩ := settle_eq_error hsettle
    exact ⟨_, rfl, .number hstyle hstart⟩

/-! ## When nothing else fails -/

/-- Whether criteria, if nothing is wrong with them, can be written. -/
structure CanWrite (c : ClauseCompiler) (k : Criteria) : Prop where
  spellable : ∀ r, c.clauses k = .ok r → Spellable c.dialect r.2
  numbers : c.style = .dollar → c.HasMovableNumbers k

theorem compile_of_clauses_eq_error {e : Error} (h : c.clauses k = .error e) :
    c.compile k = .error e := by
  rw [compile, h]
  rfl

/-- Criteria in which something is wrong leave nothing to write. -/
theorem canWrite_of_clauses_eq_error {e : Error} (h : c.clauses k = .error e) : c.CanWrite k := by
  constructor
  · intro r hr
    cases h.symm.trans hr
  · intro _ p? tail hparts
    rw [clauses_eq, hparts] at h
    cases h

theorem spellable_filterPieces_iff {p? : Option Predicate} {tail : List Piece} :
    Spellable c.dialect (c.filterPieces p? ++ tail) ↔ Spellable c.dialect (body c.dialect p? tail) := by
  rw [spellable_iff, spellable_iff]
  cases p? <;> exact Iff.rfl

theorem exists_compile_iff (hlegible : c.IsLegible k) {r : List String × List Piece}
    (hr : c.clauses k = .ok r) : (∃ w, c.compile k = .ok w) ↔ c.CanWrite k := by
  have hclauses := hr
  rw [clauses_eq, map_eq_ok] at hr
  obtain ⟨⟨p?, tail⟩, hparts, rfl⟩ := hr
  have hspellable : (∃ p? tail, c.parts k = .ok (p?, tail) ∧
      Spellable c.dialect (body c.dialect p? tail)) ↔
      ∀ r, c.clauses k = .ok r → Spellable c.dialect r.2 := by
    constructor
    · rintro ⟨_, _, hparts', hspell⟩ r hr
      obtain rfl := Except.ok.inj (hclauses.symm.trans hr)
      obtain ⟨rfl, rfl⟩ := Prod.mk.inj (Except.ok.inj (hparts.symm.trans hparts'))
      exact spellable_filterPieces_iff.mpr hspell
    · intro h
      exact ⟨p?, tail, hparts, spellable_filterPieces_iff.mp (h _ hclauses)⟩
  by_cases hstyle : c.style = .dollar
  · rw [exists_compiled_dollar_iff hlegible hstyle, hspellable]
    constructor
    · rintro ⟨hspell, hnumbers⟩
      exact ⟨hspell, fun _ => hnumbers⟩
    · rintro ⟨hspell, hnumbers⟩
      exact ⟨hspell, hnumbers hstyle⟩
  · rw [exists_compiled_iff hlegible hstyle, hspellable]
    constructor
    · intro hspell
      exact ⟨hspell, fun hdollar => absurd hdollar hstyle⟩
    · exact CanWrite.spellable

/-- What is wrong with a filter, a sort or a range of rows is told with an error about criteria, unless
the value that would be told cannot be written. Other failures are faults of names of tables that are
no texts, and of writing; and where a statement is clear and all that is told can be written there are
none exactly if all lists can be spelled and all numbers be moved. -/
theorem errors_are_own_iff
    (keys : ∀ es, k.filter = .map es → Value.lookup "op" es = none → ∀ x ∈ es, HasTextKeys x)
    (sort : k.sort = .null ∨ ∃ es, k.sort = .map es ∧ ∀ x ∈ es, x.1.isText = true) :
    (∀ e, c.compile k = .error e → c.catalog.Tells e ∨ c.IsUntold k e ∨
      ∃ f, e = .fault f ∧ (c.HasOwnNames k → c.WritingFault k f)) ∧
    (c.IsClear k → (∀ name ∈ c.catalog.names, name.isText = true) →
      (∀ v, c.IsTold k v → v.isWritable = true) →
        ((∀ e, c.compile k = .error e → e.IsOwn) ↔ c.CanWrite k)) := by
  constructor
  · intro e h
    cases hr : c.clauses k with
    | error e' =>
      obtain rfl := Except.error.inj (h.symm.trans (compile_of_clauses_eq_error hr))
      exact (clauses_tells keys sort hr).imp_right .inl
    | ok r =>
      obtain ⟨f, he, hfault⟩ := writingFault_of_clauses hr h
      exact .inr (.inr ⟨f, he, fun _ => hfault⟩)
  · intro hclear names told
    cases hr : c.clauses k with
    | error e' =>
      refine iff_of_true (fun e h => ?_) (canWrite_of_clauses_eq_error hr)
      obtain rfl := Except.error.inj (h.symm.trans (compile_of_clauses_eq_error hr))
      rcases clauses_tells keys sort hr with htells | ⟨-, v, hv, hlong⟩
      · exact htells.isOwn names
      · cases (told v hv).symm.trans hlong
    | ok r =>
      rw [← exists_compile_iff hclear.legible hr]
      cases hcompile : c.compile k with
      | ok w =>
        refine iff_of_true (fun e h => ?_) ⟨w, rfl⟩
        cases h
      | error e =>
        obtain ⟨f, rfl, -⟩ := writingFault_of_clauses hr hcompile
        refine iff_of_false (fun hown => Error.not_isOwn_fault f (hown _ rfl)) ?_
        rintro ⟨w, hw⟩
        cases hw

/-- Tags of which the first is a list, and the other is none. -/
def halfListed : Criteria where
  filter := leafNode .isIn (.text "tag") (.list [.list [.int 1], .int 2])

theorem clauses_halfListed : (shopCompiler .question 1).clauses halfListed =
    .ok (["sales"], [.word " \nWHERE ", .name "sales", .word ".", .name "tag", .word " IN (",
      .members "tag" false [.list [.int 1], .int 2], .word ")"]) := by
  cbv

theorem compile_halfListed :
    (shopCompiler .question 1).compile halfListed = .error (.fault .notIterable) := by
  rw [compile, clauses_halfListed]
  rfl

/-- Nothing tells what is wrong with such tags. -/
theorem errors_are_not_own_sales :
    (shopCompiler .question 1).compile halfListed = .error (.fault .notIterable) ∧
    (shopCompiler .question 1).WritingFault halfListed .notIterable ∧
    ¬(Error.fault .notIterable).IsOwn ∧ ¬(shopCompiler .question 1).CanWrite halfListed := by
  have keys (es : Entries) (hes : halfListed.filter = .map es)
      (hop : Value.lookup "op" es = none) : ∀ x ∈ es, HasTextKeys x := by
    obtain rfl := Value.map.inj hes
    cases hop
  have hclear : (shopCompiler .question 1).IsClear halfListed :=
    isClear_shop clauses_halfListed (by decide)
  have names : ∀ name ∈ shop.names, name.isText = true := by decide
  have filter (node : Value) (hnode : toNode halfListed.filter = .ok node) :
      node.isWritable = true := by
    obtain rfl := Except.ok.inj hnode
    decide
  have told (v : Value) (h : (shopCompiler .question 1).IsTold halfListed v) :
      v.isWritable = true := h.isWritable filter rfl rfl rfl
  obtain ⟨hcauses, hiff⟩ := @errors_are_own_iff (shopCompiler .question 1) _ keys (.inl rfl)
  refine ⟨compile_halfListed, ?_, Error.not_isOwn_fault _, fun hcan => ?_⟩
  · rcases hcauses _ compile_halfListed with (hown | ⟨hname, -⟩) | ⟨hlong, -⟩ | ⟨f, hf, hfault⟩
    · exact absurd hown (Error.not_isOwn_fault _)
    · cases hname
    · cases hlong
    · obtain rfl := Error.fault.inj hf
      exact hfault hclear.apart
  · have hown := (hiff hclear names told).mpr hcan _ compile_halfListed
    exact Error.not_isOwn_fault _ hown

end ClauseCompiler

end SqlFragment
