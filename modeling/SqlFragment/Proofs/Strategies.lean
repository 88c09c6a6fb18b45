import SqlFragment.Proofs.Descriptions

/-!
Where validation of a description stops short. A strategy given as digits is read as a number, and
digits without place value, or too many of them, are no number. The name of an association is written
into the places of its findings, and a value that names no strategy into a finding, and numbers with too
many digits are not written. Nothing else keeps validation from listing what it finds.
-/
namespace SqlFragment

namespace JoinStrategy

/-- The text that a strategy is given as, also under the key `strategy` of a mapping. -/
def textOf? : Value → Option String
  | .map es => (Value.get es "strategy").text?
  | v => v.text?

/-- Whether a text that consists of digits writes a number. -/
def IsReadable (s : String) : Prop :=
  (∀ c ∈ (Text.strip s).toList, Text.isDigit c) →
    (∀ c ∈ (Text.strip s).toList, Text.isDecimal c) ∧ (Text.strip s).length ≤ Text.longestNumber

/-- Whether a strategy cannot be told: it is a text of digits that write no number, or it is none and
cannot be written. -/
inductive Stalls (v : Value) : Prop
  | digits {s : String} (text : textOf? v = some s) (unreadable : ¬IsReadable s)
  | unknown (none : ofValue v = .ok none) (unwritable : v.isWritable = false)

end JoinStrategy

namespace Query

mutual

/-- The associations of a description, at any depth, with their names. -/
inductive HasAssociation : Value → Value × Value → Prop
  | own {es named : Entries} {a : Value × Value}
      (instructions : Value.get es "instructions" = .map named) (mem : a ∈ named) :
      HasAssociation (.map es) a
  | nested {es named : Entries} {above a : Value × Value}
      (instructions : Value.get es "instructions" = .map named) (mem : above ∈ named)
      (part : AssociationHas above.2 a) : HasAssociation (.map es) a

/-- The associations that the steps of an association name. -/
inductive AssociationHas : Value → Value × Value → Prop
  | step {es : Entries} {steps : List Value} {d : Value} {a : Value × Value}
      (listed : (Value.get es "instructions").items? = some steps) (mem : d ∈ steps)
      (part : StepHas d a) : AssociationHas (.map es) a

inductive StepHas : Value → Value × Value → Prop
  | criteria {es : Entries} {a : Value × Value}
      (part : HasAssociation (Value.get es "criteria") a) : StepHas (.map es) a

end

/-- What keeps an association from being told of: a name that cannot be written, or its strategy. -/
inductive Stalls : Value × Value → Prop
  | name {a : Value × Value} (unwritable : a.1.isWritable = false) : Stalls a
  | strategy {name : Value} {es : Entries}
      (stalls : JoinStrategy.Stalls (Value.get es "strategy")) : Stalls (name, .map es)

/-- There is an outcome unless something stalls, and then it is that a number cannot be read. -/
structure StallsIff {α : Type} (x : Except Fault α) (stalled : Prop) : Prop where
  error : stalled → x = .error .unreadableNumber
  ok : ¬stalled → ∃ a, x = .ok a

namespace StallsIff

variable {α β : Type} {x : Except Fault α} {y : Except Fault β} {p q : Prop}

theorem of_ok {a : α} (h : ¬p) : StallsIff (.ok a) p := ⟨fun hp => absurd hp h, fun _ => ⟨a, rfl⟩⟩

theorem congr (h : StallsIff x p) (hpq : p ↔ q) : StallsIff x q := by
  constructor
  · intro hq
    exact h.error (hpq.mpr hq)
  · intro hq
    exact h.ok fun hp => hq (hpq.mp hp)

theorem map (h : StallsIff x p) (f : α → β) : StallsIff (x.map f) p := by
  constructor
  · intro hp
    rw [h.error hp]
    rfl
  · intro hp
    obtain ⟨a, rfl⟩ := h.ok hp
    exact ⟨f a, rfl⟩

/-- One step after another stalls where the first or the second does. -/
theorem bind {f : α → Except Fault β} (h : StallsIff x p) (hf : ∀ a, x = .ok a → StallsIff (f a) q) :
    StallsIff (x >>= f) (p ∨ q) := by
  by_cases hp : p
  · rw [h.error hp]
    exact ⟨fun _ => rfl, fun hn => absurd (Or.inl hp) hn⟩
  · obtain ⟨a, ha⟩ := h.ok hp
    rw [ha]
    exact (hf a ha).congr (by simp [hp])

theorem append {a b : Except Fault (List Finding)} (ha : StallsIff a p) (hb : StallsIff b q) :
    StallsIff (do
      let here ← a
      let more ← b
      return here ++ more) (p ∨ q) :=
  ha.bind fun here _ => hb.map fun more => here ++ more

theorem eq_error_iff (h : StallsIff x p) {f : Fault} :
    x = .error f ↔ f = .unreadableNumber ∧ p := by
  by_cases hp : p
  · rw [h.error hp]
    simp [hp, eq_comm]
  · obtain ⟨a, rfl⟩ := h.ok hp
    simp [hp]

theorem exists_ok_iff (h : StallsIff x p) : (∃ a, x = .ok a) ↔ ¬p := by
  constructor
  · rintro ⟨a, rfl⟩ hp
    cases h.error hp
  · exact h.ok

end StallsIff

/-! ## Strategies -/

theorem readNat?_eq_none_iff {s : String} (hne : s ≠ "") : Text.readNat? s = none ↔
    ¬((∀ c ∈ s.toList, Text.isDecimal c) ∧ s.length ≤ Text.longestNumber) := by
  have hempty : s.isEmpty = false := by simpa using hne
  simp [Text.readNat?, hempty]

theorem stallsIff_ofText (s : String) :
    StallsIff (JoinStrategy.ofText s) ¬JoinStrategy.IsReadable s := by
  unfold JoinStrategy.ofText JoinStrategy.IsReadable
  generalize Text.strip s = word
  by_cases hdigits : ∀ c ∈ word.toList, Text.isDigit c
  · by_cases hne : word = ""
    · subst hne
      exact .of_ok (by simp)
    · have hempty : word.isEmpty = false := by simpa using hne
      have hall : word.toList.all Text.isDigit = true := List.all_eq_true.mpr hdigits
      simp only [hempty, hall, Bool.not_false, Bool.and_self, if_true]
      cases hread : Text.readNat? word with
      | none =>
        have hstalled := (readNat?_eq_none_iff hne).mp hread
        exact ⟨fun _ => rfl, fun h => absurd (fun himp => hstalled (himp hdigits)) h⟩
      | some n =>
        have hread : ¬Text.readNat? word = none := by simp [hread]
        have hnumber := not_not.mp fun h => hread ((readNat?_eq_none_iff hne).mpr h)
        exact .of_ok fun h => h fun _ => hnumber
  · have hall : word.toList.all Text.isDigit = false := by simpa using hdigits
    simp only [hall, Bool.and_false, Bool.false_eq_true, if_false]
    exact .of_ok fun h => h fun hd => absurd hd hdigits

theorem stallsIff_ofValue (v : Value) : StallsIff (JoinStrategy.ofValue v)
    (∃ s, JoinStrategy.textOf? v = some s ∧ ¬JoinStrategy.IsReadable s) := by
  cases v with
  | text s =>
    apply (stallsIff_ofText s).congr
    simp [JoinStrategy.textOf?, Value.text?]
  | map es =>
    simp only [JoinStrategy.ofValue, JoinStrategy.textOf?]
    cases Value.get es "strategy" with
    | text s =>
      apply (stallsIff_ofText s).congr
      simp [Value.text?]
    | _ => exact .of_ok (by simp [Value.text?])
  | _ => exact .of_ok (by simp [JoinStrategy.textOf?, Value.text?])

variable {path : Path} {d : Value} {es : Entries}

/-- What is found of a strategy, once it is read. -/
theorem stallsIff_strategyFindings (path : Path) (v : Value) :
    StallsIff (JoinStrategy.ofValue v >>= strategyFindings path v) (JoinStrategy.Stalls v) := by
  have hfound : ∀ strategy?, JoinStrategy.ofValue v = .ok strategy? →
      StallsIff (strategyFindings path v strategy?)
        (JoinStrategy.ofValue v = .ok none ∧ v.isWritable = false) := by
    intro strategy? hs
    unfold strategyFindings
    cases strategy? with
    | some s => exact .of_ok (by simp [hs])
    | none =>
      cases hv : v.isWritable with
      | true => exact .of_ok (by simp)
      | false => exact ⟨fun _ => rfl, fun h => absurd ⟨hs, rfl⟩ h⟩
  apply ((stallsIff_ofValue v).bind hfound).congr
  constructor
  · rintro (⟨s, text, unreadable⟩ | ⟨unknown, unwritable⟩)
    · exact .digits text unreadable
    · exact .unknown unknown unwritable
  · rintro (⟨text, unreadable⟩ | ⟨unknown, unwritable⟩)
    · exact .inl ⟨_, text, unreadable⟩
    · exact .inr ⟨unknown, unwritable⟩

/-! ## Descriptions -/

/-- What stalls in a description is one of its associations, or stands below one. -/
theorem exists_association_iff : (∃ a, HasAssociation (.map es) a ∧ Stalls a) ↔
    ∃ named, Value.get es "instructions" = .map named ∧
      ∃ e ∈ named, Stalls e ∨ ∃ a, AssociationHas e.2 a ∧ Stalls a := by
  constructor
  · rintro ⟨a, h, ha⟩
    cases h with
    | own instructions mem => exact ⟨_, instructions, a, mem, .inl ha⟩
    | nested instructions mem part => exact ⟨_, instructions, _, mem, .inr ⟨a, part, ha⟩⟩
  · rintro ⟨named, instructions, e, mem, he | ⟨a, part, ha⟩⟩
    · exact ⟨e, .own instructions mem, he⟩
    · exact ⟨a, .nested instructions mem part, ha⟩

theorem exists_associationHas_iff : (∃ a, AssociationHas (.map es) a ∧ Stalls a) ↔
    ∃ steps, (Value.get es "instructions").items? = some steps ∧
      ∃ d ∈ steps, ∃ a, StepHas d a ∧ Stalls a := by
  constructor
  · rintro ⟨a, h, ha⟩
    cases h with
    | step listed mem part => exact ⟨_, listed, _, mem, a, part, ha⟩
  · rintro ⟨steps, listed, d, mem, a, part, ha⟩
    exact ⟨a, .step listed mem part, ha⟩

theorem exists_stepHas_iff : (∃ a, StepHas (.map es) a ∧ Stalls a) ↔
    ∃ a, HasAssociation (Value.get es "criteria") a ∧ Stalls a := by
  constructor
  · rintro ⟨a, h, ha⟩
    cases h with
    | criteria part => exact ⟨a, part, ha⟩
  · rintro ⟨a, part, ha⟩
    exact ⟨a, .criteria part, ha⟩

theorem stalls_iff {name : Value} : Stalls (name, d) ↔ name.isWritable = false ∨
    ∃ es, d = .map es ∧ JoinStrategy.Stalls (Value.get es "strategy") := by
  constructor
  · intro h
    cases h with
    | name unwritable => exact .inl unwritable
    | strategy stalls => exact .inr ⟨_, rfl, stalls⟩
  · rintro (unwritable | ⟨es, rfl, stalls⟩)
    · exact .name unwritable
    · exact .strategy stalls

theorem stallsIff_shown (v : Value) : StallsIff v.shown (v.isWritable = false) := by
  unfold Value.shown
  cases v.isWritable with
  | true => exact .of_ok (by simp)
  | false => exact ⟨fun _ => rfl, fun h => absurd rfl h⟩

/-- A description that is no mapping is found to be none. -/
theorem findings_of_not_map (h : d.isMap = false) :
    findings path d = .ok [(path, .notMapping d.kindName)] := by
  unfold findings
  cases d with
  | map es => cases h
  | _ => rfl

theorem associationFindings_of_not_map (h : d.isMap = false) :
    associationFindings path d = .ok [(path, .notMapping d.kindName)] := by
  unfold associationFindings
  cases d with
  | map es => cases h
  | _ => rfl

theorem stepFindings_of_not_map (h : d.isMap = false) :
    stepFindings path d = .ok [(path, .notMapping d.kindName)] := by
  unfold stepFindings
  cases d with
  | map es => cases h
  | _ => rfl

theorem exists_findings_of_none (h : instructionsOf? es = none) :
    ∃ fs, findings path (.map es) = .ok fs := by
  unfold findings
  unfold instructionsOf? Value.get at h
  split <;> simp_all [pure, Except.pure]

/-- Steps that are no list or tuple are not looked at. -/
theorem stallsIff_listed {strategy? : Option JoinStrategy} {here : List Finding}
    {p : List Value → Prop}
    (hsteps : ∀ steps, (Value.get es "instructions").items? = some steps →
      StallsIff (stepsFindings (path.key "instructions") 0 steps) (p steps))
    (hs : JoinStrategy.ofValue (Value.get es "strategy") = .ok strategy?)
    (hhere : strategyFindings path (Value.get es "strategy") strategy? = .ok here) :
    StallsIff (associationFindings path (.map es))
      (∃ steps, (Value.get es "instructions").items? = some steps ∧ p steps) := by
  cases hi : (Value.get es "instructions").items? with
  | some steps =>
    rw [associationFindings_map hs hhere hi]
    apply ((hsteps steps hi).map _).congr
    simp
  | none =>
    have hok : ∃ fs, associationFindings path (.map es) = .ok fs := by
      unfold associationFindings
      unfold Value.get at hi
      simp only [hs, hhere, ok_bind]
      split <;> simp_all [Value.items?, pure, Except.pure]
    obtain ⟨fs, hfs⟩ := hok
    rw [hfs]
    exact .of_ok (by simp)

mutual

/-- Validation stalls where an association does, and at nothing else. -/
theorem stallsIff_findings (path : Path) (d : Value) :
    StallsIff (findings path d) (∃ a, HasAssociation d a ∧ Stalls a) := by
  rcases d.map_or_other with ⟨es, rfl⟩ | hd
  · rw [exists_association_iff]
    cases hi : instructionsOf? es with
    | none =>
      obtain ⟨fs, hfs⟩ : ∃ fs, findings path (.map es) = .ok fs := exists_findings_of_none hi
      rw [hfs]
      apply StallsIff.of_ok
      rintro ⟨named, hmap, -⟩
      simp [instructionsOf?, hmap] at hi
    | some named =>
      have := sizeOf_instructions hi
      rw [findings_map hi]
      apply ((stallsIff_associationsFindings (path.key "instructions") named).map _).congr
      unfold instructionsOf? at hi
      split at hi <;> simp_all
  · rw [findings_of_not_map hd]
    apply StallsIff.of_ok
    rintro ⟨a, h, -⟩
    cases h <;> cases hd
termination_by sizeOf d

theorem stallsIff_associationsFindings (path : Path) (named : Entries) :
    StallsIff (associationsFindings path named)
      (∃ e ∈ named, Stalls e ∨ ∃ a, AssociationHas e.2 a ∧ Stalls a) := by
  match named with
  | [] =>
    rw [associationsFindings]
    exact .of_ok (by simp)
  | (name, d) :: rest =>
    rw [associationsFindings]
    apply ((stallsIff_shown name).bind fun shown _ =>
      (stallsIff_associationFindings (path.key shown) d).append
        (stallsIff_associationsFindings path rest)).congr
    simp only [List.exists_mem_cons_iff, stalls_iff, or_assoc]
termination_by sizeOf named

theorem stallsIff_associationFindings (path : Path) (d : Value) :
    StallsIff (associationFindings path d)
      ((∃ es, d = .map es ∧ JoinStrategy.Stalls (Value.get es "strategy")) ∨
        ∃ a, AssociationHas d a ∧ Stalls a) := by
  rcases d.map_or_other with ⟨es, rfl⟩ | hd
  · rw [exists_associationHas_iff]
    have hown := stallsIff_strategyFindings path (Value.get es "strategy")
    by_cases hstalls : JoinStrategy.Stalls (Value.get es "strategy")
    · have herror : associationFindings path (.map es) = .error .unreadableNumber := by
        rw [associationFindings]
        rcases bind_eq_error.mp (hown.error hstalls) with hs | ⟨strategy?, hs, hhere⟩
        · rw [hs, error_bind]
        · rw [hs, ok_bind, hhere, error_bind]
      exact ⟨fun _ => herror, fun h => absurd (Or.inl ⟨es, rfl, hstalls⟩) h⟩
    · obtain ⟨here, h⟩ := hown.ok hstalls
      obtain ⟨strategy?, hs, hhere⟩ := bind_eq_ok.mp h
      apply (stallsIff_listed (fun steps hi => ?_) hs hhere).congr
      · refine (or_iff_right ?_).symm
        rintro ⟨es', hes, h⟩
        cases hes
        exact hstalls h
      · have := sizeOf_items hi
        exact stallsIff_stepsFindings (path.key "instructions") 0 steps
  · rw [associationFindings_of_not_map hd]
    apply StallsIff.of_ok
    rintro (⟨es, rfl, -⟩ | ⟨a, h, -⟩)
    · cases hd
    · cases h
      cases hd
termination_by sizeOf d

theorem stallsIff_stepsFindings (path : Path) (i : Nat) (steps : List Value) :
    StallsIff (stepsFindings path i steps) (∃ d ∈ steps, ∃ a, StepHas d a ∧ Stalls a) := by
  match steps with
  | [] =>
    rw [stepsFindings]
    exact .of_ok (by simp)
  | d :: rest =>
    rw [stepsFindings]
    apply ((stallsIff_stepFindings (path.index i) d).append
      (stallsIff_stepsFindings path (i + 1) rest)).congr
    simp
termination_by sizeOf steps

theorem stallsIff_stepFindings (path : Path) (d : Value) :
    StallsIff (stepFindings path d) (∃ a, StepHas d a ∧ Stalls a) := by
  rcases d.map_or_other with ⟨es, rfl⟩ | hd
  · rw [exists_stepHas_iff, stepFindings_map]
    split
    · rename_i hnull
      apply StallsIff.of_ok
      rintro ⟨a, h, -⟩
      cases hcriteria : Value.get es "criteria" <;> simp_all [Value.isNull]
      cases h
    · rename_i hsome
      have := Value.sizeOf_get (eq_false_of_ne_true hsome)
      exact (stallsIff_findings (path.key "criteria") (Value.get es "criteria")).map _
  · rw [stepFindings_of_not_map hd]
    apply StallsIff.of_ok
    rintro ⟨a, h, -⟩
    cases h
    cases hd
termination_by sizeOf d

end

/-- Validation gives its lines unless some association, at any depth, has a strategy that is a text of
digits that write no number, or a name or an unknown strategy that cannot be written. Then it fails, and
it fails with no other fault. -/
theorem validate_fails_iff (d : Value) :
    ((∃ lines, validate d = .ok lines) ↔ ∀ a, HasAssociation d a → ¬Stalls a) ∧
    ∀ f, validate d = .error f ↔
      f = .unreadableNumber ∧ ∃ a, HasAssociation d a ∧ Stalls a := by
  have hstalls : StallsIff (validate d) (∃ a, HasAssociation d a ∧ Stalls a) :=
    (stallsIff_findings descriptionRoot d).map _
  constructor
  · rw [hstalls.exists_ok_iff]
    push Not
    rfl
  · intro f
    exact hstalls.eq_error_iff

end Query

end SqlFragment
