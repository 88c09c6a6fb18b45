import SqlFragment.Proofs.Outcome
import SqlFragment.Query.Description

/-!
What describes a query. The relation says it part by part, and apart from how descriptions are read:
a description is accepted if and only if it describes a query, and then that query is built.
-/
namespace SqlFragment

namespace Value

mutual

/-- No mapping in the value has a key twice. -/
def hasOwnKeys : Value → Bool
  | .list xs | .tuple xs | .set xs => allHaveOwnKeys xs
  | .map es => entriesHaveOwnKeys es
  | _ => true

def allHaveOwnKeys : List Value → Bool
  | [] => true
  | x :: xs => hasOwnKeys x && allHaveOwnKeys xs

def entriesHaveOwnKeys : List (Value × Value) → Bool
  | [] => true
  | (k, v) :: es => !es.any (fun e => k.sameKey e.1) && hasOwnKeys v && entriesHaveOwnKeys es

end

/-- A part of a description is a mapping or was not given. -/
def isPart (v : Value) : Bool := v.isNull || v.isMap

variable {es : Entries} {key : String} {v : Value}

theorem lookup_of_get (h : (get es key).isNull = false) : lookup key es = some (get es key) := by
  unfold get at h ⊢
  cases hl : lookup key es with
  | none =>
    rw [hl] at h
    cases h
  | some v => rfl

theorem get_of_lookup (h : lookup key es = some v) : get es key = v := by
  rw [get, h]
  rfl

theorem sizeOf_get (h : (get es key).isNull = false) : sizeOf (get es key) < sizeOf (map es) := by
  have := sizeOf_lookup (lookup_of_get h)
  simp only [map.sizeOf_spec]
  omega

theorem entriesHaveOwnKeys_iff {es : Entries} : entriesHaveOwnKeys es ↔
    (es.Pairwise fun e f => e.1.sameKey f.1 = false) ∧ ∀ e ∈ es, e.2.hasOwnKeys := by
  induction es with
  | nil => simp [entriesHaveOwnKeys]
  | cons e es ih =>
    simp only [entriesHaveOwnKeys, Bool.and_eq_true, ih, List.pairwise_cons,
      List.forall_mem_cons, Bool.not_eq_true', List.any_eq_false, Bool.not_eq_true]
    tauto

theorem put_of_new {α : Type} {k : Value} {v : α} : ∀ {es : List (Value × α)},
    (∀ e ∈ es, e.1.sameKey k = false) → put k v es = es ++ [(k, v)]
  | [], _ => rfl
  | e :: es, h => by
    obtain ⟨hfirst, hothers⟩ := List.forall_mem_cons.mp h
    rw [put, if_neg (by simp [hfirst]), put_of_new hothers, List.cons_append]

/-- Entries with keys of their own are a mapping as they are. -/
theorem ofEntries_of_pairwise {α : Type} {es : List (Value × α)}
    (h : es.Pairwise fun e f => e.1.sameKey f.1 = false) : ofEntries es = es := by
  have hfold (rest : List (Value × α)) : ∀ done : List (Value × α),
      ((done ++ rest).Pairwise fun e f => e.1.sameKey f.1 = false) →
      rest.foldl (fun acc e => put e.1 e.2 acc) done = done ++ rest := by
    induction rest with
    | nil =>
      intro done _
      exact (List.append_nil done).symm
    | cons e rest ih =>
      intro done hdone
      have hnew : ∀ f ∈ done, f.1.sameKey e.1 = false := by
        intro f hf
        exact (List.pairwise_append.mp hdone).2.2 f hf e List.mem_cons_self
      rw [List.foldl_cons, put_of_new hnew, ih _ (by simpa using hdone)]
      simp
  exact hfold es [] h

theorem hasOwnKeys_of_lookup : ∀ {es : Entries}, entriesHaveOwnKeys es →
    lookup key es = some v → v.hasOwnKeys
  | [], _, h => by simp [lookup] at h
  | (k, w) :: es, own, h => by
    simp only [entriesHaveOwnKeys, Bool.and_eq_true] at own
    unfold lookup at h
    split at h
    · cases h
    · rename_i heq
      cases heq
      split at h
      · cases h
        exact own.1.2
      · exact hasOwnKeys_of_lookup own.2 h
    · rename_i heq
      cases heq
      exact hasOwnKeys_of_lookup own.2 h

theorem hasOwnKeys_get (own : (map es).hasOwnKeys) : (get es key).hasOwnKeys := by
  unfold get
  cases hl : lookup key es with
  | none => rfl
  | some v => exact hasOwnKeys_of_lookup own hl

theorem hasOwnKeys_of_items {xs : List Value} (own : v.hasOwnKeys) (h : v.items? = some xs) :
    allHaveOwnKeys xs := by
  cases v <;> cases h <;> exact own

end Value

namespace Query

/-- The descriptions of associations by their names. -/
def instructionsOf? (es : Entries) : Option Entries :=
  match Value.get es "instructions" with
  | .null => some []
  | .map named => some named
  | _ => none

end Query

/-- None of the names is empty. -/
structure Link.HasNames (l : Link) : Prop where
  parentTable : l.parentTable ≠ ""
  parentKey : l.parentKey ≠ ""
  childTable : l.childTable ≠ ""
  childKey : l.childKey ≠ ""

/-- The names that entries give to the tables and keys of a link. -/
structure Link.IsNamedBy (l : Link) (es : Entries) : Prop extends l.HasNames where
  getParent : Value.get es "parent" = .text l.parentTable
  getParentKey : Value.get es "parentKey" = .text l.parentKey
  getChild : Value.get es "child" = .text l.childTable
  getChildKey : Value.get es "childKey" = .text l.childKey

namespace Query

mutual

/-- A mapping describes a query by its parts; `instructions` name its associations. -/
inductive Describes : Value → Query → Prop
  | query {es named : Entries} {as : List Association}
      (filter : (Value.get es "where").isPart) (sort : (Value.get es "sort").isPart)
      (instructions : instructionsOf? es = some named) (each : DescribesAll named as)
      (own : repeatedName? [] as = none) :
      Describes (.map es) ⟨.ofEntries es, as⟩

/-- One association for every entry, in order. Their names can be written. -/
inductive DescribesAll : Entries → List Association → Prop
  | nil : DescribesAll [] []
  | cons {d : Value} {a : Association} {rest : Entries} {as : List Association}
      (writable : a.name.isWritable) (first : DescribesAssociation d a)
      (others : DescribesAll rest as) : DescribesAll ((a.name, d) :: rest) (a :: as)

/-- The strategy decides the kind of an association, and the steps are those in the list. -/
inductive DescribesAssociation : Value → Association → Prop
  | association {es : Entries} {steps : List Value} {a : Association}
      (strategy : JoinStrategy.ofValue (Value.get es "strategy") = .ok (some a.strategy))
      (listed : (Value.get es "instructions").items? = some steps)
      (each : DescribesSteps steps a.steps) :
      DescribesAssociation (.map es) a

inductive DescribesSteps : List Value → List JoinStep → Prop
  | nil : DescribesSteps [] []
  | cons {d : Value} {s : JoinStep} {ds : List Value} {ss : List JoinStep}
      (first : DescribesStep d s) (others : DescribesSteps ds ss) :
      DescribesSteps (d :: ds) (s :: ss)

/-- A step has criteria if and only if they were given, were they empty. -/
inductive DescribesStep : Value → JoinStep → Prop
  | alone {es : Entries} {link : Link} (keys : link.IsNamedBy es)
      (criteria : (Value.get es "criteria").isNull) :
      DescribesStep (.map es) ⟨link, none⟩
  | selecting {es : Entries} {link : Link} {q : Query} (keys : link.IsNamedBy es)
      (criteria : Describes (Value.get es "criteria") q) :
      DescribesStep (.map es) ⟨link, some q⟩

end

/-! ## Names of associations -/

theorem repeatedName?_eq_none {as : List Association} {seen : List Value} :
    repeatedName? seen as = none ↔
      (∀ a ∈ as, ∀ name ∈ seen, name.sameKey a.name = false) ∧
        as.Pairwise fun a b => a.name.sameKey b.name = false := by
  induction as generalizing seen with
  | nil => simp [repeatedName?]
  | cons a as ih =>
    unfold repeatedName?
    by_cases h : seen.any fun name => name.sameKey a.name
    · simp only [h, if_true, reduceCtorEq, false_iff, not_and]
      intro hnone
      obtain ⟨name, hmem, hname⟩ := List.any_eq_true.mp h
      have := hnone a List.mem_cons_self name hmem
      rw [this] at hname
      cases hname
    · rw [if_neg h, ih, List.pairwise_cons]
      have hfirst : ∀ name ∈ seen, name.sameKey a.name = false := by simpa using h
      constructor
      · rintro ⟨hrest, hpair⟩
        refine ⟨List.forall_mem_cons.mpr ⟨hfirst, fun b hb name hname => ?_⟩, fun b hb => ?_, hpair⟩
        · exact hrest b hb name (List.mem_cons_of_mem _ hname)
        · exact hrest b hb a.name List.mem_cons_self
      · rintro ⟨hall, hhead, hpair⟩
        refine ⟨fun b hb => List.forall_mem_cons.mpr ⟨hhead b hb, ?_⟩, hpair⟩
        exact hall b (List.mem_cons_of_mem _ hb)

theorem create_eq_ok {criteria : Criteria} {as : List Association} {q : Query} :
    create criteria as = .ok q ↔ repeatedName? [] as = none ∧ ⟨criteria, as⟩ = q := by
  unfold create
  cases repeatedName? [] as <;> simp

theorem repeatedName?_of_keys {named : Entries} {as : List Association}
    (own : Value.entriesHaveOwnKeys named) (h : as.map (·.name) = named.map (·.1)) :
    repeatedName? [] as = none := by
  rw [repeatedName?_eq_none]
  refine ⟨by simp, ?_⟩
  have hkeys : (named.map (·.1)).Pairwise fun k l => k.sameKey l = false :=
    List.pairwise_map.mpr (Value.entriesHaveOwnKeys_iff.mp own).1
  rw [← h] at hkeys
  exact List.pairwise_map.mp hkeys

/-! ## Nothing is wrong -/

variable {path : Path} {es : Entries} {d : Value}

theorem append_eq_nil {x y : Except Fault (List Finding)} :
    (do
      let a ← x
      let b ← y
      return a ++ b) = .ok [] ↔ x = .ok [] ∧ y = .ok [] := by
  cases x <;> cases y <;> simp [pure, Except.pure]

theorem fieldFindings_eq_nil {key : String} :
    fieldFindings path es key = [] ↔ (Value.get es key).isPart := by
  unfold fieldFindings Value.isPart
  cases Value.get es key <;> simp [Value.isNull, Value.isMap]

theorem keyFindings_eq_nil :
    keyFindings path es = [] ↔ ∀ key ∈ stepKeys, isName (Value.get es key) := by
  simp [keyFindings]

theorem isName_eq_true {v : Value} : isName v ↔ ∃ s, v = .text s ∧ s ≠ "" := by
  cases v <;> simp [isName]

theorem exists_link : (∀ key ∈ stepKeys, isName (Value.get es key)) ↔
    ∃ link : Link, link.IsNamedBy es := by
  simp only [stepKeys, List.forall_mem_cons, isName_eq_true]
  constructor
  · rintro ⟨⟨parent, h1, n1⟩, ⟨parentKey, h2, n2⟩, ⟨child, h3, n3⟩, ⟨childKey, h4, n4⟩, -⟩
    exact ⟨⟨parent, parentKey, child, childKey⟩, ⟨n1, n2, n3, n4⟩, h1, h2, h3, h4⟩
  · rintro ⟨link, h⟩
    exact ⟨⟨_, h.getParent, h.parentTable⟩, ⟨_, h.getParentKey, h.parentKey⟩,
      ⟨_, h.getChild, h.childTable⟩, ⟨_, h.getChildKey, h.childKey⟩, nofun⟩

/-- Nothing, null and an empty mapping name no associations. -/
theorem lookup_instructions {named : Entries} (h : instructionsOf? es = some named) :
    Value.lookup "instructions" es = some (.map named) ∨ named = [] ∧
      (Value.lookup "instructions" es = none ∨ Value.lookup "instructions" es = some .null) := by
  unfold instructionsOf? Value.get at h
  cases hl : Value.lookup "instructions" es with
  | none => simp_all
  | some v => cases v <;> simp_all

theorem sizeOf_instructions {named : Entries} (h : instructionsOf? es = some named) :
    sizeOf named < sizeOf (Value.map es) := by
  obtain hl | ⟨rfl, -⟩ := lookup_instructions h
  · have := Value.sizeOf_lookup hl
    simp only [Value.map.sizeOf_spec] at this ⊢
    omega
  · cases es <;> simp only [Value.map.sizeOf_spec, List.nil.sizeOf_spec, List.cons.sizeOf_spec] <;>
      omega

theorem hasOwnKeys_instructions {named : Entries} (h : instructionsOf? es = some named)
    (own : (Value.map es).hasOwnKeys) : Value.entriesHaveOwnKeys named := by
  obtain hl | ⟨rfl, -⟩ := lookup_instructions h
  · exact Value.hasOwnKeys_of_lookup own hl
  · rfl

theorem findings_map {named : Entries} (h : instructionsOf? es = some named) :
    findings path (.map es) = (associationsFindings (path.key "instructions") named).map
      fun more => fieldFindings path es "where" ++ fieldFindings path es "sort" ++ more := by
  unfold findings
  obtain hl | ⟨rfl, hl⟩ := lookup_instructions h
  · split <;> simp_all [bind_pure_comp]
    rfl
  · have hnil : associationsFindings (path.key "instructions") [] = .ok [] := by
      simp [associationsFindings]
    rw [hnil]
    split <;> simp_all [pure, Except.pure, Except.map]

theorem findings_map_none (h : instructionsOf? es = none) :
    findings path (.map es) ≠ .ok [] := by
  unfold findings
  unfold instructionsOf? Value.get at h
  split <;> simp_all [pure, Except.pure]

theorem findings_eq_nil : findings path d = .ok [] ↔
    ∃ es named, d = .map es ∧ (Value.get es "where").isPart ∧ (Value.get es "sort").isPart ∧
      instructionsOf? es = some named ∧
      associationsFindings (path.key "instructions") named = .ok [] := by
  constructor
  · intro h
    cases d
    case map es =>
      cases hi : instructionsOf? es with
      | none => exact absurd h (findings_map_none hi)
      | some named =>
        rw [findings_map hi, map_eq_ok] at h
        obtain ⟨more, hmore, h⟩ := h
        simp only [List.append_eq_nil_iff, fieldFindings_eq_nil] at h
        obtain ⟨⟨hfilter, hsort⟩, rfl⟩ := h
        exact ⟨es, named, rfl, hfilter, hsort, hi, hmore⟩
    all_goals simp [findings] at h
  · rintro ⟨es, named, rfl, hfilter, hsort, hi, hmore⟩
    rw [findings_map hi, hmore, fieldFindings_eq_nil.mpr hfilter, fieldFindings_eq_nil.mpr hsort]
    rfl

theorem associationsFindings_cons {name : Value} {rest : Entries} :
    associationsFindings path ((name, d) :: rest) = .ok [] ↔ name.isWritable = true ∧
      associationFindings (path.key name.display) d = .ok [] ∧
        associationsFindings path rest = .ok [] := by
  simp only [associationsFindings, bind_eq_ok (x := name.shown), Value.shown_eq_ok, append_eq_nil]
  constructor
  · rintro ⟨_, ⟨writable, rfl⟩, h⟩
    exact ⟨writable, h⟩
  · rintro ⟨writable, h⟩
    exact ⟨_, ⟨writable, rfl⟩, h⟩

theorem lookup_items {key : String} {steps : List Value}
    (h : (Value.get es key).items? = some steps) :
    Value.lookup key es = some (.list steps) ∨ Value.lookup key es = some (.tuple steps) := by
  unfold Value.get at h
  cases hl : Value.lookup key es with
  | none => simp [hl, Value.items?] at h
  | some v => cases v <;> simp_all [Value.items?]

theorem sizeOf_items {key : String} {steps : List Value}
    (h : (Value.get es key).items? = some steps) : sizeOf steps < sizeOf (Value.map es) := by
  obtain hl | hl := lookup_items h <;> have := Value.sizeOf_lookup hl <;> simp at this ⊢ <;> omega

theorem countFindings_eq_nil {strategy : JoinStrategy} {count : Nat} :
    countFindings path (some strategy) count = [] ↔ count = strategy.stepCount := by
  simp [countFindings]

theorem associationFindings_map {strategy? : Option JoinStrategy} {here : List Finding}
    {steps : List Value}
    (hstrategy : JoinStrategy.ofValue (Value.get es "strategy") = .ok strategy?)
    (hhere : strategyFindings path (Value.get es "strategy") strategy? = .ok here)
    (h : (Value.get es "instructions").items? = some steps) :
    associationFindings path (.map es) =
      (stepsFindings (path.key "instructions") 0 steps).map fun more =>
        here ++ countFindings path strategy? steps.length ++ more := by
  unfold associationFindings
  simp only [hstrategy]
  obtain hl | hl := lookup_items h
  · split <;> simp_all
    rfl
  · split <;> simp_all
    rfl

theorem associationFindings_unlisted (h : (Value.get es "instructions").items? = none) :
    associationFindings path (.map es) ≠ .ok [] := by
  unfold associationFindings
  unfold Value.get at h
  simp only [ne_eq, bind_eq_ok, not_exists, not_and]
  intro strategy? _ here _
  split <;> simp_all [Value.items?, pure, Except.pure]

theorem strategyFindings_eq_nil {found : Value} {strategy? : Option JoinStrategy} :
    strategyFindings path found strategy? = .ok [] ↔ strategy?.isSome := by
  unfold strategyFindings
  split
  · simp_all
  · split <;> simp_all

theorem associationFindings_eq_nil : associationFindings path d = .ok [] ↔
    ∃ es strategy steps, d = .map es ∧
      JoinStrategy.ofValue (Value.get es "strategy") = .ok (some strategy) ∧
      (Value.get es "instructions").items? = some steps ∧ steps.length = strategy.stepCount ∧
      stepsFindings (path.key "instructions") 0 steps = .ok [] := by
  constructor
  · intro h
    cases d
    case map es =>
      cases hs : JoinStrategy.ofValue (Value.get es "strategy") with
      | error f =>
        rw [associationFindings, hs] at h
        cases h
      | ok strategy? =>
        cases hi : (Value.get es "instructions").items? with
        | none => exact absurd h (associationFindings_unlisted hi)
        | some steps =>
          cases hhere : strategyFindings path (Value.get es "strategy") strategy? with
          | error f =>
            rw [associationFindings, hs, ok_bind, hhere] at h
            cases h
          | ok here =>
            rw [associationFindings_map hs hhere hi, map_eq_ok] at h
            obtain ⟨more, hmore, h⟩ := h
            simp only [List.append_eq_nil_iff] at h
            obtain ⟨⟨rfl, hcount⟩, rfl⟩ := h
            obtain ⟨strategy, rfl⟩ := Option.isSome_iff_exists.mp (strategyFindings_eq_nil.mp hhere)
            exact ⟨es, strategy, steps, rfl, hs, hi, countFindings_eq_nil.mp hcount, hmore⟩
    all_goals simp [associationFindings] at h
  · rintro ⟨es, strategy, steps, rfl, hs, hi, hcount, hsteps⟩
    rw [associationFindings_map hs rfl hi, hsteps, countFindings_eq_nil.mpr hcount]
    rfl

theorem stepsFindings_cons {i : Nat} {rest : List Value} :
    stepsFindings path i (d :: rest) = .ok [] ↔
      stepFindings (path.index i) d = .ok [] ∧ stepsFindings path (i + 1) rest = .ok [] := by
  rw [stepsFindings, append_eq_nil]

theorem stepFindings_map : stepFindings path (.map es) =
    if (Value.get es "criteria").isNull then .ok (keyFindings path es)
    else (findings (path.key "criteria") (Value.get es "criteria")).map
      fun more => keyFindings path es ++ more := by
  unfold stepFindings
  split <;> rename_i hl
  · simp [Value.get, hl, Value.isNull, pure, Except.pure]
  · simp [Value.get, hl, Value.isNull, pure, Except.pure]
  · rename_i criteria hnull
    have hsome : criteria.isNull = false := by
      cases criteria <;> first | rfl | exact (hnull rfl).elim
    rw [Value.get_of_lookup hl, hsome]
    rfl

theorem stepFindings_eq_nil : stepFindings path d = .ok [] ↔
    ∃ es link, d = .map es ∧ Link.IsNamedBy link es ∧
      ((Value.get es "criteria").isNull ∨
        findings (path.key "criteria") (Value.get es "criteria") = .ok []) := by
  constructor
  · intro h
    cases d
    case map es =>
      rw [stepFindings_map] at h
      split at h
      · rename_i hnull
        obtain ⟨link, hlink⟩ := exists_link.mp (keyFindings_eq_nil.mp (Except.ok.inj h))
        exact ⟨es, link, rfl, hlink, .inl hnull⟩
      · rw [map_eq_ok] at h
        obtain ⟨more, hmore, h⟩ := h
        obtain ⟨hkeys, rfl⟩ := List.append_eq_nil_iff.mp h
        obtain ⟨link, hlink⟩ := exists_link.mp (keyFindings_eq_nil.mp hkeys)
        exact ⟨es, link, rfl, hlink, .inr hmore⟩
    all_goals simp [stepFindings] at h
  · rintro ⟨es, link, rfl, hlink, hcriteria⟩
    have hkeys : keyFindings path es = [] := keyFindings_eq_nil.mpr (exists_link.mpr ⟨link, hlink⟩)
    rw [stepFindings_map, hkeys]
    split
    · rfl
    · rename_i hsome
      rw [hcriteria.resolve_left hsome]
      rfl

/-! ## What is built -/

theorem build_map {named : Entries} (h : instructionsOf? es = some named) :
    build (.map es) = buildAssociations named >>= create (.ofEntries es) := by
  unfold build
  obtain hl | ⟨rfl, hl⟩ := lookup_instructions h
  · split <;> simp_all
  · have hnil : buildAssociations [] = .ok [] := by simp [buildAssociations]
    rw [hnil]
    split <;> simp_all [Value.isTruthy]

theorem linkOf_eq_ok {link : Link} (h : link.IsNamedBy es) : linkOf es = .ok link := by
  have htext (key s : String) (hkey : Value.get es key = .text s) : textAt es key = .ok s := by
    have hsome : (Value.get es key).isNull = false := by
      rw [hkey]
      rfl
    rw [textAt, Value.lookup_of_get hsome, hkey]
  rw [linkOf, htext _ _ h.getParent, htext _ _ h.getParentKey, htext _ _ h.getChild,
    htext _ _ h.getChildKey]
  rfl

theorem buildStep_map {link : Link} (h : link.IsNamedBy es) : buildStep (.map es) =
    if (Value.get es "criteria").isNull then .ok ⟨link, none⟩
    else (build (Value.get es "criteria")).map fun q => ⟨link, some q⟩ := by
  unfold buildStep
  rw [linkOf_eq_ok h]
  split <;> rename_i hl
  · simp [Value.get, hl, Value.isNull, pure, Except.pure]
  · simp [Value.get, hl, Value.isNull, pure, Except.pure]
  · rename_i criteria hnull
    have hsome : criteria.isNull = false := by
      cases criteria <;> first | rfl | exact (hnull rfl).elim
    rw [Value.get_of_lookup hl, hsome]
    rfl

theorem buildAssociation_map {name : Value} {strategy? : Option JoinStrategy} {steps : List Value}
    (hstrategy : JoinStrategy.ofValue (Value.get es "strategy") = .ok strategy?)
    (h : (Value.get es "instructions").items? = some steps) :
    buildAssociation name (.map es) = buildSteps steps >>= associationOf name strategy? := by
  unfold buildAssociation
  simp only [hstrategy]
  obtain hl | hl := lookup_items h
  · split <;> simp_all
    rfl
  · split <;> simp_all
    rfl

theorem associationOf_self (a : Association) :
    associationOf a.name (some a.strategy) a.steps = .ok a := by
  cases a <;> rfl

theorem exists_associationOf (name : Value) {strategy : JoinStrategy} {steps : List JoinStep}
    (h : steps.length = strategy.stepCount) :
    ∃ a, associationOf name (some strategy) steps = .ok a ∧
      a.name = name ∧ a.strategy = strategy ∧ a.steps = steps := by
  cases strategy
  case parentOwnsKey =>
    obtain ⟨step, rfl⟩ := List.length_eq_one_iff.mp h
    exact ⟨_, rfl, rfl, rfl, rfl⟩
  case childOwnsKey =>
    obtain ⟨step, rfl⟩ := List.length_eq_one_iff.mp h
    exact ⟨_, rfl, rfl, rfl, rfl⟩
  case junction =>
    obtain ⟨link, target, rfl⟩ := List.length_eq_two.mp h
    exact ⟨_, rfl, rfl, rfl, rfl⟩

theorem DescribesAll.names : ∀ {named : Entries} {as : List Association}, DescribesAll named as →
    as.map (·.name) = named.map (·.1)
  | _, _, .nil => rfl
  | _, _, .cons _ _ others => congrArg _ others.names

theorem DescribesSteps.length_eq : ∀ {ds : List Value} {ss : List JoinStep}, DescribesSteps ds ss →
    ss.length = ds.length
  | _, _, .nil => rfl
  | _, _, .cons _ others => congrArg _ others.length_eq

/-- What is built is right, and it is built if no key is there twice. -/
def Yields {α : Type} (own : Prop) (x : Except Error α) (P : α → Prop) : Prop :=
  (∀ a, x = .ok a → P a) ∧ (own → ∃ a, x = .ok a)

namespace Yields

variable {α β : Type} {own own' : Prop} {x : Except Error α} {P : α → Prop} {Q : β → Prop}

theorem ok {a : α} (h : P a) : Yields own (.ok a) P := by
  constructor
  · rintro b ⟨⟩
    exact h
  · intro _
    exact ⟨a, rfl⟩

theorem bind {f : α → Except Error β} (hx : Yields own x P)
    (hf : ∀ a, P a → Yields own (f a) Q) : Yields own (x >>= f) Q := by
  constructor
  · intro b hb
    obtain ⟨a, ha, hb⟩ := bind_eq_ok.mp hb
    exact (hf a (hx.1 a ha)).1 b hb
  · intro h
    obtain ⟨a, ha⟩ := hx.2 h
    obtain ⟨b, hb⟩ := (hf a (hx.1 a ha)).2 h
    exact ⟨b, bind_eq_ok.mpr ⟨a, ha, hb⟩⟩

theorem weaken (hx : Yields own x P) (h : own' → own) : Yields own' x P :=
  ⟨hx.1, fun h' => hx.2 (h h')⟩

end Yields

mutual

theorem yields_build {path : Path} {d : Value} (h : findings path d = .ok []) :
    Yields d.hasOwnKeys (build d) (Describes d) := by
  obtain ⟨es, named, rfl, hfilter, hsort, hi, hnamed⟩ := findings_eq_nil.mp h
  rw [build_map hi]
  have hown := hasOwnKeys_instructions hi
  have := sizeOf_instructions hi
  refine ((yields_buildAssociations hnamed).weaken hown).bind fun as has => ?_
  constructor
  · intro q hq
    obtain ⟨hnone, rfl⟩ := create_eq_ok.mp hq
    exact .query hfilter hsort hi has hnone
  · intro own
    -- the names of the associations are the keys of a mapping, and those are told apart
    exact ⟨_, create_eq_ok.mpr ⟨repeatedName?_of_keys (hown own) has.names, rfl⟩⟩
termination_by sizeOf d

theorem yields_buildAssociations {path : Path} {named : Entries}
    (h : associationsFindings path named = .ok []) :
    Yields (Value.entriesHaveOwnKeys named) (buildAssociations named) (DescribesAll named) := by
  match named with
  | [] =>
    rw [buildAssociations]
    exact .ok .nil
  | (name, d) :: rest =>
    obtain ⟨writable, hfirst, hothers⟩ := associationsFindings_cons.mp h
    rw [buildAssociations]
    simp only [Value.entriesHaveOwnKeys, Bool.and_eq_true]
    refine ((yields_buildAssociation name hfirst).weaken fun own => own.1.2).bind fun a ha => ?_
    refine ((yields_buildAssociations hothers).weaken fun own => own.2).bind fun as has => ?_
    obtain ⟨rfl, ha⟩ := ha
    exact .ok (.cons writable ha has)
termination_by sizeOf named

theorem yields_buildAssociation {path : Path} {d : Value} (name : Value)
    (h : associationFindings path d = .ok []) :
    Yields d.hasOwnKeys (buildAssociation name d) fun a =>
      a.name = name ∧ DescribesAssociation d a := by
  obtain ⟨es, strategy, steps, rfl, hs, hi, hcount, hsteps⟩ := associationFindings_eq_nil.mp h
  have := sizeOf_items hi
  rw [buildAssociation_map hs hi]
  refine ((yields_buildSteps hsteps).weaken fun own => ?_).bind fun ss hss => ?_
  · exact Value.hasOwnKeys_of_items (Value.hasOwnKeys_get own) hi
  · obtain ⟨a, ha, hname, rfl, rfl⟩ := exists_associationOf name (hss.length_eq.trans hcount)
    rw [ha]
    exact .ok ⟨hname, .association hs hi hss⟩
termination_by sizeOf d

theorem yields_buildSteps {path : Path} {i : Nat} {steps : List Value}
    (h : stepsFindings path i steps = .ok []) :
    Yields (Value.allHaveOwnKeys steps) (buildSteps steps) (DescribesSteps steps) := by
  match steps with
  | [] =>
    rw [buildSteps]
    exact .ok .nil
  | d :: rest =>
    obtain ⟨hfirst, hothers⟩ := stepsFindings_cons.mp h
    rw [buildSteps]
    simp only [Value.allHaveOwnKeys, Bool.and_eq_true]
    refine ((yields_buildStep hfirst).weaken fun own => own.1).bind fun s hs => ?_
    refine ((yields_buildSteps hothers).weaken fun own => own.2).bind fun ss hss => ?_
    exact .ok (.cons hs hss)
termination_by sizeOf steps

theorem yields_buildStep {path : Path} {d : Value} (h : stepFindings path d = .ok []) :
    Yields d.hasOwnKeys (buildStep d) (DescribesStep d) := by
  obtain ⟨es, link, rfl, hlink, hcriteria⟩ := stepFindings_eq_nil.mp h
  rw [buildStep_map hlink]
  split
  · exact .ok (.alone hlink ‹_›)
  · rename_i hsome
    have := Value.sizeOf_get (eq_false_of_ne_true hsome)
    refine (yields_build (hcriteria.resolve_left hsome)).weaken Value.hasOwnKeys_get |>.bind ?_
    intro q hq
    exact .ok (.selecting hlink hq)
termination_by sizeOf d

end

/-! ## What describes a query -/

variable {q : Query}

theorem Describes.isNull_eq_false (h : Describes d q) : d.isNull = false := by
  cases h
  rfl

mutual

theorem Describes.findings_eq_nil {d : Value} {q : Query} (path : Path) :
    Describes d q → findings path d = .ok []
  | .query filter sort instructions each _ =>
    Query.findings_eq_nil.mpr
      ⟨_, _, rfl, filter, sort, instructions, each.associationsFindings_eq_nil _⟩

theorem DescribesAll.associationsFindings_eq_nil {named : Entries} {as : List Association}
    (path : Path) : DescribesAll named as → associationsFindings path named = .ok []
  | .nil => by rw [associationsFindings]
  | .cons writable first others => associationsFindings_cons.mpr
    ⟨writable, first.associationFindings_eq_nil _, others.associationsFindings_eq_nil _⟩

theorem DescribesAssociation.associationFindings_eq_nil {d : Value} {a : Association}
    (path : Path) : DescribesAssociation d a → associationFindings path d = .ok []
  | .association strategy listed each => Query.associationFindings_eq_nil.mpr
    ⟨_, _, _, rfl, strategy, listed, each.length_eq.symm.trans (by simp),
      each.stepsFindings_eq_nil _ _⟩

theorem DescribesSteps.stepsFindings_eq_nil {ds : List Value} {ss : List JoinStep} (path : Path)
    (i : Nat) : DescribesSteps ds ss → stepsFindings path i ds = .ok []
  | .nil => by rw [stepsFindings]
  | .cons first others => stepsFindings_cons.mpr
    ⟨first.stepFindings_eq_nil _, others.stepsFindings_eq_nil _ _⟩

theorem DescribesStep.stepFindings_eq_nil {d : Value} {s : JoinStep} (path : Path) :
    DescribesStep d s → stepFindings path d = .ok []
  | .alone keys criteria => Query.stepFindings_eq_nil.mpr ⟨_, _, rfl, keys, .inl criteria⟩
  | .selecting keys criteria => Query.stepFindings_eq_nil.mpr
    ⟨_, _, rfl, keys, .inr (criteria.findings_eq_nil _)⟩

end

mutual

theorem Describes.build_eq_ok {d : Value} {q : Query} : Describes d q → build d = .ok q
  | .query filter sort instructions each own => by
    rw [build_map instructions, each.build_eq_ok]
    exact create_eq_ok.mpr ⟨own, rfl⟩

theorem DescribesAll.build_eq_ok {named : Entries} {as : List Association} :
    DescribesAll named as → buildAssociations named = .ok as
  | .nil => by rw [buildAssociations]
  | .cons _ first others => by
    rw [buildAssociations, first.build_eq_ok, others.build_eq_ok]
    rfl

theorem DescribesAssociation.build_eq_ok {d : Value} {a : Association} :
    DescribesAssociation d a → buildAssociation a.name d = .ok a
  | .association strategy listed each => by
    rw [buildAssociation_map strategy listed, each.build_eq_ok]
    exact associationOf_self a

theorem DescribesSteps.build_eq_ok {ds : List Value} {ss : List JoinStep} :
    DescribesSteps ds ss → buildSteps ds = .ok ss
  | .nil => by rw [buildSteps]
  | .cons first others => by
    rw [buildSteps, first.build_eq_ok, others.build_eq_ok]
    rfl

theorem DescribesStep.build_eq_ok {d : Value} {s : JoinStep} :
    DescribesStep d s → buildStep d = .ok s
  | .alone keys criteria => by
    rw [buildStep_map keys, if_pos criteria]
  | .selecting keys criteria => by
    have hmap : (Value.get _ "criteria").isNull = false := criteria.isNull_eq_false
    rw [buildStep_map keys, hmap, criteria.build_eq_ok]
    rfl

end

/-! ## Accepted descriptions -/

theorem ofValue_eq_error (hd : d.isNull = false) {f : Finding} {more : List Finding}
    (h : findings descriptionRoot d = .ok (f :: more)) :
    ofValue d = .error (.association f.2 (some f.1)) := by
  unfold ofValue
  rw [hd, h]
  rfl

theorem ofValue_eq_build (hd : d.isNull = false) (h : findings descriptionRoot d = .ok []) :
    ofValue d = build d := by
  unfold ofValue
  rw [hd, h]
  rfl

theorem ofValue_eq_ok_iff (hd : d.isNull = false) : ofValue d = .ok q ↔ Describes d q := by
  constructor
  · intro h
    cases hf : findings descriptionRoot d with
    | error f =>
      rw [ofValue, hd, hf] at h
      cases h
    | ok fs =>
      cases fs with
      | nil =>
        rw [ofValue_eq_build hd hf] at h
        exact (yields_build hf).1 q h
      | cons f more =>
        rw [ofValue_eq_error hd hf] at h
        cases h
  · intro h
    rw [ofValue_eq_build hd (h.findings_eq_nil _), h.build_eq_ok]

/-- A description is refused if and only if validation finds something, with the first thing that
it finds. Otherwise it describes a query, which is built. -/
theorem refused_iff_invalid (hd : d.isNull = false) (own : d.hasOwnKeys) {lines : List String}
    (hlines : validate d = .ok lines) :
    (lines ≠ [] ↔ ∃ e, ofValue d = .error e ∧ e.kind? = some .association) ∧
    (∀ e, ofValue d = .error e → ∃ path, e.path? = some path ∧
      lines.head? = some (path.text ++ ": " ++ e.message)) ∧
    (lines = [] → ∃ q, ofValue d = .ok q ∧ Describes d q) := by
  obtain ⟨fs, hfs, rfl⟩ := map_eq_ok.mp hlines
  cases fs with
  | nil =>
    obtain ⟨q, hq⟩ := (yields_build hfs).2 own
    have hok : ofValue d = .ok q := (ofValue_eq_build hd hfs).trans hq
    have hnone (e : Error) : ofValue d ≠ .error e := by
      rw [hok]
      exact nofun
    refine ⟨⟨fun h => (h rfl).elim, fun ⟨e, he, _⟩ => (hnone e he).elim⟩, ?_, fun _ => ?_⟩
    · intro e he
      exact (hnone e he).elim
    · exact ⟨q, hok, (ofValue_eq_ok_iff hd).mp hok⟩
  | cons f more =>
    have herror := ofValue_eq_error hd hfs
    refine ⟨⟨fun _ => ⟨_, herror, rfl⟩, fun _ => nofun⟩, ?_, nofun⟩
    intro e he
    rw [herror] at he
    cases he
    exact ⟨f.1, rfl, rfl⟩

def nodeStep (criteria : Entries) : Value :=
  .map ([(.text "parent", .text "nodes"), (.text "parentKey", .text "id"),
    (.text "child", .text "nodes"), (.text "childKey", .text "node_id")] ++ criteria)

/-- Nodes with their children, which criteria of their own can select. -/
def nodesBy (strategy : Value) (criteria : Entries) : Value :=
  .map [(.text "instructions", .map [(.text "nodes", .map [(.text "strategy", strategy),
    (.text "instructions", .list [nodeStep criteria])])])]

theorem describes_nodesBy {criteria : Entries} {s : JoinStep}
    (h : DescribesStep (nodeStep criteria) s) :
    Describes (nodesBy (.int 2) criteria) ⟨{}, [.childOwnsKey (.text "nodes") s]⟩ := by
  have hnodes : DescribesAssociation (.map [(.text "strategy", .int 2),
      (.text "instructions", .list [nodeStep criteria])]) (.childOwnsKey (.text "nodes") s) :=
    .association rfl rfl (.cons h .nil)
  have hall := DescribesAll.cons rfl hnodes .nil
  exact .query rfl rfl rfl hall rfl

theorem exists_describes_nodes :
    ∃ q, Describes (nodesBy (.int 2) [(.text "criteria", nodesBy (.int 2) [])]) q := by
  have hnames : Link.HasNames ⟨"nodes", "id", "nodes", "node_id"⟩ := by constructor <;> decide
  have hplain : DescribesStep (nodeStep []) ⟨⟨"nodes", "id", "nodes", "node_id"⟩, none⟩ :=
    .alone ⟨hnames, rfl, rfl, rfl, rfl⟩ rfl
  exact ⟨_, describes_nodesBy (.selecting ⟨hnames, rfl, rfl, rfl, rfl⟩ (describes_nodesBy hplain))⟩

theorem validate_numbers : validate (nodesBy (.int 9) [(.text "criteria", .int 5)]) = .ok
    ["<root>.instructions.nodes.strategy: unknown strategy 9",
      "<root>.instructions.nodes.instructions[0].criteria: expected dict, got int"] := by
  have hstep (path : Path) : stepFindings path (nodeStep [(.text "criteria", .int 5)]) =
      .ok [(path.key "criteria", .notMapping "int")] := by
    rw [nodeStep, stepFindings_map, if_neg (by decide)]
    simp [Value.get, Value.lookup, findings, keyFindings, stepKeys, isName, Value.kindName,
      Except.map]
  rw [validate, nodesBy, findings_map rfl, associationsFindings, associationsFindings,
    Value.shown_text, ok_bind, associationFindings_map rfl rfl rfl, stepsFindings, stepsFindings,
    hstep]
  decide +kernel

theorem refused_iff_invalid_nodes :
    (∃ e, ofValue (nodesBy (.int 9) [(.text "criteria", .int 5)]) = .error e ∧
      e.kind? = some .association) ∧
    (∀ e, ofValue (nodesBy (.int 9) [(.text "criteria", .int 5)]) = .error e →
      ∃ path, e.path? = some path ∧
        some "<root>.instructions.nodes.strategy: unknown strategy 9" =
          some (path.text ++ ": " ++ e.message)) ∧
    ∃ q, ofValue (nodesBy (.int 2) [(.text "criteria", nodesBy (.int 2) [])]) = .ok q ∧
      Describes (nodesBy (.int 2) [(.text "criteria", nodesBy (.int 2) [])]) q := by
  have hrefused := refused_iff_invalid rfl (by decide +kernel) validate_numbers
  obtain ⟨q, hq⟩ := exists_describes_nodes
  have hvalid : validate (nodesBy (.int 2) [(.text "criteria", nodesBy (.int 2) [])]) = .ok [] := by
    rw [validate, hq.findings_eq_nil]
    rfl
  exact ⟨hrefused.1.mp nofun, hrefused.2.1,
    (refused_iff_invalid rfl (by decide +kernel) hvalid).2.2 rfl⟩

end Query

end SqlFragment
