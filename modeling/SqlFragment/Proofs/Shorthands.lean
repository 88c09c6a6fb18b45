import SqlFragment.Error.Report
import SqlFragment.Filter.Shorthand
import SqlFragment.Proofs.Outcome

/-!
Which filters can be read, and what they are brought into. The grammar says it apart from how
filters are read: all entries that fit it are read, into nodes with exactly their conditions, and
otherwise the first thing that does not fit, depth first, is what is reported, with its place.
-/
namespace SqlFragment.Filter

/-! ## The grammar -/

/-- Whether a key is one of the words for modifiers, in any case. -/
def IsModifier (key : Value) : Prop :=
  ∃ word, key = .text word ∧ ∃ m ∈ modifiers, Text.lower m.1 = Text.lower word

/-- Whether a key is the word for `and` or for `or`, in any case. -/
def IsBlockWord (key : String) (c : Connective) : Prop := Text.lower key = c.name ∧ c ≠ .not

/-- Whether a key is a word that is no attribute. -/
def IsReserved (key : String) : Prop := Text.lower key ∈ ["and", "or", "like"]

instance (key : String) : Decidable (IsReserved key) :=
  inferInstanceAs (Decidable (Text.lower key ∈ ["and", "or", "like"]))

/-- Whether a key stands for an attribute. -/
inductive IsAttribute : Value → Prop
  | text {key : String} (word : ¬IsReserved key) : IsAttribute (.text key)
  | bytes {bs : List UInt8} : IsAttribute (.bytes bs)

/-- An entry is a block of filters, each of them a mapping that is not empty, or a mapping of
patterns, or an attribute with an operand or with modifiers. -/
inductive IsEntry : Value × Value → Prop
  | block {key : String} {c : Connective} {operand : Value} {branches : List Value}
      (word : IsBlockWord key c) (items : operand.items? = some branches) (filled : branches ≠ [])
      (full : ∀ b ∈ branches, ∃ es, b = .map es ∧ es ≠ [])
      (each : ∀ es, .map es ∈ branches → ∀ e ∈ es, IsEntry e) : IsEntry (.text key, operand)
  | patterns {key : String} {es : Entries} (word : Text.lower key = "like") (filled : es ≠ []) :
      IsEntry (.text key, .map es)
  | operand {key operand : Value} (field : IsAttribute key) (plain : operand.isMap = false) :
      IsEntry (key, operand)
  | modified {key : Value} {es : Entries} (field : IsAttribute key) (filled : es ≠ [])
      (known : ∀ e ∈ es, IsModifier e.1) : IsEntry (key, .map es)

/-- Whether the keys that are read in an entry are texts: its own, and those of its branches or
modifiers. -/
inductive HasTextKeys : Value × Value → Prop
  | block {key : String} {c : Connective} {operand : Value} (word : IsBlockWord key c)
      (each : ∀ branches es, operand.items? = some branches → .map es ∈ branches →
        ∀ e ∈ es, HasTextKeys e) : HasTextKeys (.text key, operand)
  | patterns {key : String} {operand : Value} (word : Text.lower key = "like") :
      HasTextKeys (.text key, operand)
  | other {key : String} {operand : Value} (word : ¬IsReserved key)
      (keys : ∀ es, operand = .map es → ∀ e ∈ es, e.1.isText) : HasTextKeys (.text key, operand)

/-! ## The first fault -/

mutual

/-- The first entry that does not fit, what is wrong with it, and where. -/
inductive EntriesFault : Path → Entries → Error → Prop
  | first {place : Path} {before after : Entries} {key : String} {operand : Value} {e : Error}
      (fine : ∀ e ∈ before, IsEntry e) (fault : EntryFault (place.key key) key operand e) :
      EntriesFault place (before ++ (.text key, operand) :: after) e

inductive EntryFault : Path → String → Value → Error → Prop
  | noBranches {here : Path} {key : String} {c : Connective} {operand : Value}
      (word : IsBlockWord key c) (vacant : operand.items?.getD [] = []) :
      EntryFault here key operand (.invalid (.noBranches c.name) (some here))
  | branch {here : Path} {key : String} {c : Connective} {operand b : Value}
      {before after : List Value} {e : Error} (word : IsBlockWord key c)
      (items : operand.items? = some (before ++ b :: after))
      (fine : ∀ b ∈ before, ∃ es, b = .map es ∧ es ≠ [] ∧ ∀ e ∈ es, IsEntry e)
      (fault : FilterFault (here.index before.length) b e) : EntryFault here key operand e
  | notPatterns {here : Path} {key : String} {operand : Value} (word : Text.lower key = "like")
      (other : operand.isMap = false) :
      EntryFault here key operand (.invalid .likeNotMapping (some here))
  | noPatterns {here : Path} {key : String} (word : Text.lower key = "like") :
      EntryFault here key (.map []) (.invalid .emptyCondition (some here))
  | noModifiers {here : Path} {key : String} (word : ¬IsReserved key) :
      EntryFault here key (.map []) (.invalid .emptyModifiers (some here))
  | unknownModifier {here : Path} {key modifier : String} {v : Value} {before after : Entries}
      (word : ¬IsReserved key) (fine : ∀ e ∈ before, IsModifier e.1)
      (unknown : ¬IsModifier (.text modifier)) :
      EntryFault here key (.map (before ++ (.text modifier, v) :: after))
        (.unknownOperator (.text modifier) modifierNames)

/-- What is wrong with a filter. -/
inductive FilterFault : Path → Value → Error → Prop
  | notMapping {here : Path} {filter : Value} (other : filter.isMap = false) :
      FilterFault here filter (.invalid (.notMapping filter.kindName) (some here))
  | empty {here : Path} : FilterFault here (.map []) (.invalid .emptyCondition (some here))
  | entries {here : Path} {es : Entries} {e : Error} (fault : EntriesFault here es e) :
      FilterFault here (.map es) e

end

/-- The places in a filter, and what stands there. -/
inductive Reaches (filter : Value) : Path → Value → Prop
  | root : Reaches filter (.root "where") filter
  | key {place : Path} {es : Entries} {key : String} {v : Value}
      (above : Reaches filter place (.map es)) (mem : (.text key, v) ∈ es) :
      Reaches filter (place.key key) v
  | index {place : Path} {block v : Value} {branches : List Value} {i : Nat}
      (above : Reaches filter place block) (items : block.items? = some branches)
      (mem : branches[i]? = some v) : Reaches filter (place.index i) v

/-! ## Conditions -/

/-- The condition that a modifier sets for an attribute. -/
def modifierCondition (field modifier operand : Value) : Option Value :=
  (modifier.text?.bind fun word => modifier? (Text.lower word)).map fun op =>
    leafNode (sharpen op operand) field (listed (sharpen op operand) operand)

/-- The conditions that an operand or modifiers set for an attribute. -/
def attributeConditions (field : Value) : Value → List Value
  | .map es => es.filterMap fun e => modifierCondition field e.1 e.2
  | .null => [leafNode .isNull field .null]
  | .list xs | .tuple xs => [leafNode .isIn field (.list xs)]
  | v => [leafNode .eq field v]

mutual

/-- All conditions that entries set, depth first. -/
def conditionsOf : Entries → List Value
  | [] => []
  | (key, operand) :: rest =>
    (match key.text?.map Text.lower with
      | some "and" | some "or" => blockConditions operand
      | some "like" => (operand.entries?.getD []).map fun e => leafNode .like e.1 e.2
      | _ => attributeConditions key operand) ++ conditionsOf rest

def blockConditions : Value → List Value
  | .list bs | .tuple bs => branchConditions bs
  | _ => []

def branchConditions : List Value → List Value
  | [] => []
  | .map es :: rest => conditionsOf es ++ branchConditions rest
  | _ :: rest => branchConditions rest

end

mutual

/-- A node with its leaves, depth first. There are at least two nodes under `and` and one under
`or`, and membership is asked of a list. -/
inductive IsNode : Value → List Value → Prop
  | leaf {op : Operator} {field operand : Value}
      (members : op = .isIn ∨ op = .notIn → ∃ xs, operand = .list xs) :
      IsNode (leafNode op field operand) [leafNode op field operand]
  | all {nodes leaves : List Value} (many : 2 ≤ nodes.length) (each : AreNodes nodes leaves) :
      IsNode (groupNode .and nodes) leaves
  | any {nodes leaves : List Value} (filled : nodes ≠ []) (each : AreNodes nodes leaves) :
      IsNode (groupNode .or nodes) leaves

inductive AreNodes : List Value → List Value → Prop
  | nil : AreNodes [] []
  | cons {node : Value} {nodes leaves more : List Value} (first : IsNode node leaves)
      (others : AreNodes nodes more) : AreNodes (node :: nodes) (leaves ++ more)

end

/-! ## Entries one by one -/

variable {place : Path} {key : String} {c : Connective} {operand : Value} {es : Entries}

theorem entryNodes_nil : entryNodes place [] = .ok [] := by
  rw [entryNodes]

theorem bind_nil (x : Except Error (List Value)) :
    (do
      let own ← x
      let more ← .ok []
      return own ++ more) = x := by
  cases x with
  | error e => rfl
  | ok own => simp [pure, Except.pure]

/-- Entries are read one after the other. -/
theorem entryNodes_cons (e : Value × Value) (rest : Entries) :
    entryNodes place (e :: rest) = (do
      let own ← entryNodes place [e]
      let more ← entryNodes place rest
      return own ++ more) := by
  obtain ⟨key, operand⟩ := e
  rw [entryNodes, entryNodes, entryNodes_nil]
  cases Error.ofFault key.shown with
  | error e => rfl
  | ok shown =>
    simp only [ok_bind]
    cases Error.ofFault (keyword key) with
    | error e => rfl
    | ok word =>
      simp only [ok_bind]
      split <;> simp only [List.append_nil, bind_pure]

theorem entryNodes_append (es fs : Entries) :
    entryNodes place (es ++ fs) = (do
      let own ← entryNodes place es
      let more ← entryNodes place fs
      return own ++ more) := by
  induction es with
  | nil =>
    rw [entryNodes_nil, List.nil_append, ok_bind]
    cases entryNodes place fs <;> rfl
  | cons e es ih =>
    rw [List.cons_append, entryNodes_cons, ih, entryNodes_cons e es]
    cases entryNodes place [e] with
    | error e => rfl
    | ok own =>
      cases entryNodes place es with
      | error e => rfl
      | ok more =>
        simp only [ok_bind, pure, Except.pure]
        cases entryNodes place fs with
        | error e => rfl
        | ok rest => simp

theorem entryNodes_block (word : IsBlockWord key c) :
    entryNodes place [(.text key, operand)] = blockNode (place.key key) c operand := by
  obtain ⟨word, hc⟩ := word
  rw [entryNodes, entryNodes_nil, Value.shown_text, keyword, word]
  cases c with
  | and | or => exact bind_nil _
  | not => contradiction

theorem entryNodes_like (word : Text.lower key = "like") :
    entryNodes place [(.text key, operand)] = patternNodes (place.key key) operand := by
  rw [entryNodes, entryNodes_nil, Value.shown_text, keyword, word]
  exact bind_nil _

theorem entryNodes_attribute {key : Value} (field : IsAttribute key) :
    entryNodes place [(key, operand)] = attributeNodes (place.key key.display) key operand := by
  cases field with
  | text word =>
    simp only [IsReserved, List.mem_cons, List.not_mem_nil, or_false, not_or] at word
    rw [entryNodes, entryNodes_nil, Value.shown_text, keyword]
    simp only [Error.ofFault, ok_bind]
    split <;> simp_all [Value.display]
  | bytes =>
    rw [entryNodes, entryNodes_nil, keyword]
    exact bind_nil _

theorem branchNodes_cons {here : Path} {i : Nat} {rest nodes : List Value}
    (hnodes : entryNodes (here.index i) es = .ok nodes) (filled : nodes ≠ []) :
    branchNodes here i (.map es :: rest) =
      (branchNodes here (i + 1) rest).map (allOf nodes :: ·) := by
  have hfilled : nodes.isEmpty = false := by simpa using filled
  rw [branchNodes, hnodes]
  simp only [ok_bind, hfilled, Bool.false_eq_true, if_false]
  cases branchNodes here (i + 1) rest <;> rfl

/-! ## What fits is read -/

section Fitting

variable {field : Value}

theorem isSome_modifier? {word : String} :
    (modifier? (Text.lower word)).isSome ↔ IsModifier (.text word) := by
  simp [modifier?, IsModifier]

theorem isNode_modifier (op : Operator) (field operand : Value) :
    IsNode (leafNode (sharpen op operand) field (listed (sharpen op operand) operand))
      [leafNode (sharpen op operand) field (listed (sharpen op operand) operand)] := by
  apply IsNode.leaf
  rintro (h | h) <;> exact ⟨_, by rw [h, listed]⟩

theorem AreNodes.singleton {node : Value} {leaves : List Value} (h : IsNode node leaves) :
    AreNodes [node] leaves := by
  simpa using AreNodes.cons h .nil

theorem AreNodes.append {nodes leaves nodes' leaves' : List Value} (h : AreNodes nodes leaves)
    (h' : AreNodes nodes' leaves') : AreNodes (nodes ++ nodes') (leaves ++ leaves') := by
  induction nodes generalizing leaves with
  | nil =>
    cases h
    exact h'
  | cons node nodes ih =>
    cases h with
    | cons first others =>
      rw [List.cons_append, List.append_assoc]
      exact .cons first (ih others)

theorem AreNodes.self {nodes : List Value} (h : ∀ node ∈ nodes, IsNode node [node]) :
    AreNodes nodes nodes := by
  induction nodes with
  | nil => exact .nil
  | cons node nodes ih =>
    obtain ⟨first, others⟩ := List.forall_mem_cons.mp h
    exact .cons first (ih others)

theorem allOf_of_length_ne {nodes : List Value} (h : nodes.length ≠ 1) :
    allOf nodes = groupNode .and nodes := by
  rcases nodes with - | ⟨node, - | ⟨second, others⟩⟩
  · rfl
  · exact absurd rfl h
  · rfl

/-- One node is its own group. -/
theorem AreNodes.allOf {nodes leaves : List Value} (h : AreNodes nodes leaves)
    (filled : nodes ≠ []) : IsNode (allOf nodes) leaves := by
  cases h with
  | nil => contradiction
  | cons first others =>
    cases others with
    | nil => simpa [Filter.allOf] using first
    | cons second others => exact .all (by simp) (.cons first (.cons second others))

theorem AreNodes.group {nodes leaves : List Value} (h : AreNodes nodes leaves)
    (filled : nodes ≠ []) (hc : c ≠ .not) : IsNode (group c nodes) leaves := by
  cases c with
  | and => exact h.allOf filled
  | or => exact .any filled h
  | not => contradiction

/-- Whether entries are read into nodes with just their conditions, wherever they stand. -/
def GiveNodes (es : Entries) : Prop :=
  ∃ nodes, (∀ place, entryNodes place es = .ok nodes) ∧ (es ≠ [] → nodes ≠ []) ∧
    AreNodes nodes (conditionsOf es)

theorem conditionsOf_cons (e : Value × Value) (rest : Entries) :
    conditionsOf (e :: rest) = conditionsOf [e] ++ conditionsOf rest := by
  simp [conditionsOf]

theorem GiveNodes.of_each (h : ∀ e ∈ es, GiveNodes [e]) : GiveNodes es := by
  induction es with
  | nil => exact ⟨[], fun _ => entryNodes_nil, absurd rfl, by rw [conditionsOf]; exact .nil⟩
  | cons e rest ih =>
    obtain ⟨⟨own, hown, filled, each⟩, hrest⟩ := List.forall_mem_cons.mp h
    obtain ⟨more, hmore, -, others⟩ := ih hrest
    refine ⟨own ++ more, fun place => ?_, ?_, ?_⟩
    · rw [entryNodes_cons, hown, hmore]
      rfl
    · intro _
      simp [filled]
    · rw [conditionsOf_cons]
      exact each.append others

/-- One modifier is read into the condition that it sets. -/
theorem modifierNode_of_isModifier (field operand : Value) {modifier : Value}
    (h : IsModifier modifier) :
    ∃ node, modifierNode field modifier operand = .ok node ∧
      modifierCondition field modifier operand = some node ∧ IsNode node [node] := by
  obtain ⟨word, rfl, -⟩ := id h
  obtain ⟨op, hop⟩ := Option.isSome_iff_exists.mp (isSome_modifier?.mpr h)
  refine ⟨_, ?_, ?_, isNode_modifier op field operand⟩
  · simp [modifierNode, keyword, Error.ofFault, hop, pure, Except.pure]
  · simp [modifierCondition, Value.text?, hop]

theorem modifierNodes_of_known (field : Value) (known : ∀ e ∈ es, IsModifier e.1) :
    ∃ nodes, es.mapM (fun e => modifierNode field e.1 e.2) = .ok nodes ∧
      attributeConditions field (.map es) = nodes ∧ nodes.length = es.length ∧
      ∀ node ∈ nodes, IsNode node [node] := by
  induction es with
  | nil => exact ⟨[], rfl, rfl, rfl, List.forall_mem_nil _⟩
  | cons e rest ih =>
    obtain ⟨first, others⟩ := List.forall_mem_cons.mp known
    obtain ⟨node, hnode, hcondition, leaf⟩ := modifierNode_of_isModifier field e.2 first
    obtain ⟨nodes, hnodes, hconditions, hlength, leaves⟩ := ih others
    refine ⟨node :: nodes, ?_, ?_, ?_, List.forall_mem_cons.mpr ⟨leaf, leaves⟩⟩
    · rw [List.mapM_cons, hnode, hnodes]
      rfl
    · rw [attributeConditions] at hconditions ⊢
      rw [List.filterMap_cons, hcondition, hconditions]
    · rw [List.length_cons, List.length_cons, hlength]

theorem attributeNodes_map {here : Path} (filled : es ≠ []) :
    attributeNodes here field (.map es) = es.mapM fun e => modifierNode field e.1 e.2 := by
  cases es with
  | nil => contradiction
  | cons e rest => rfl

/-- An operand sets one condition. -/
theorem attributeNodes_of_plain (field : Value) (plain : operand.isMap = false) :
    ∃ node, (∀ here, attributeNodes here field operand = .ok [node]) ∧
      attributeConditions field operand = [node] ∧ IsNode node [node] := by
  cases operand with
  | map es => cases plain
  | list xs | tuple xs => exact ⟨_, fun _ => rfl, rfl, .leaf fun _ => ⟨xs, rfl⟩⟩
  | null => exact ⟨_, fun _ => rfl, rfl, .leaf (by simp)⟩
  | bool | int | decimal | text | bytes | direction | strategy | set =>
    exact ⟨_, fun _ => rfl, rfl, .leaf (by simp)⟩

theorem conditionsOf_block {branches : List Value} (word : IsBlockWord key c)
    (items : operand.items? = some branches) :
    conditionsOf [(.text key, operand)] = branchConditions branches := by
  have hblock : blockConditions operand = branchConditions branches := by
    cases operand <;> cases items <;> rfl
  obtain ⟨word, hc⟩ := word
  cases c with
  | and | or => simp [conditionsOf, Value.text?, word, Connective.name, hblock]
  | not => contradiction

theorem conditionsOf_like (word : Text.lower key = "like") :
    conditionsOf [(.text key, .map es)] = es.map fun e => leafNode .like e.1 e.2 := by
  simp [conditionsOf, Value.text?, word, Value.entries?]

theorem conditionsOf_attribute {key : Value} (field : IsAttribute key) :
    conditionsOf [(key, operand)] = attributeConditions key operand := by
  cases field with
  | text word =>
    simp only [IsReserved, List.mem_cons, List.not_mem_nil, or_false, not_or] at word
    simp only [conditionsOf, Value.text?, Option.map_some, List.append_nil]
    split <;> simp_all
  | bytes => simp [conditionsOf, Value.text?]

theorem blockNode_of_items {here : Path} {branches : List Value}
    (items : operand.items? = some branches) (filled : branches ≠ []) :
    blockNode here c operand =
      (branchNodes here 0 branches).map fun nodes => [group c nodes] := by
  obtain ⟨b, rest, rfl⟩ := List.exists_cons_of_ne_nil filled
  cases operand with
  | list xs | tuple xs =>
    cases items
    rw [blockNode]
    cases branchNodes here 0 (b :: rest) <;> rfl
  | _ => cases items

theorem blockNode_of_vacant {here : Path} (vacant : operand.items?.getD [] = []) :
    blockNode here c operand = .error (.invalid (.noBranches c.name) (some here)) := by
  cases operand with
  | list xs | tuple xs =>
    cases vacant
    simp [blockNode]
  | _ => simp [blockNode]

/-- Whether branches are mappings that give nodes. -/
def GiveNode (b : Value) : Prop := ∃ es, b = .map es ∧ es ≠ [] ∧ GiveNodes es

theorem branchNodes_of_each {branches : List Value} (h : ∀ b ∈ branches, GiveNode b) :
    ∃ nodes, (∀ here i, branchNodes here i branches = .ok nodes) ∧
      nodes.length = branches.length ∧ AreNodes nodes (branchConditions branches) := by
  induction branches with
  | nil => exact ⟨[], fun _ _ => by rw [branchNodes], rfl, by rw [branchConditions]; exact .nil⟩
  | cons b rest ih =>
    obtain ⟨⟨es, rfl, hes, own, hown, filled, each⟩, hrest⟩ := List.forall_mem_cons.mp h
    obtain ⟨more, hmore, hlength, others⟩ := ih hrest
    refine ⟨allOf own :: more, fun here i => ?_, ?_, ?_⟩
    · rw [branchNodes_cons (hown _) (filled hes), hmore]
      rfl
    · rw [List.length_cons, List.length_cons, hlength]
    · rw [branchConditions]
      exact .cons (each.allOf (filled hes)) others

theorem IsEntry.giveNodes {e : Value × Value} (h : IsEntry e) : GiveNodes [e] := by
  induction h with
  | @block key c operand branches word items filled full each ih =>
    have hgive : ∀ b ∈ branches, GiveNode b := by
      intro b hb
      obtain ⟨es, rfl, hes⟩ := full b hb
      exact ⟨es, rfl, hes, .of_each (ih es hb)⟩
    obtain ⟨nodes, hnodes, hlength, are⟩ := branchNodes_of_each hgive
    have hne : nodes ≠ [] := by
      rw [← List.length_pos_iff, hlength]
      exact List.length_pos_iff.mpr filled
    refine ⟨[group c nodes], fun place => ?_, fun _ => List.cons_ne_nil _ _, ?_⟩
    · rw [entryNodes_block word, blockNode_of_items items filled, hnodes]
      rfl
    · rw [conditionsOf_block word items]
      exact .singleton (are.group hne word.2)
  | @patterns key es word filled =>
    refine ⟨es.map fun e => leafNode .like e.1 e.2, fun place => ?_, fun _ => by simpa, ?_⟩
    · rw [entryNodes_like word]
      cases es with
      | nil => contradiction
      | cons e rest => rfl
    · rw [conditionsOf_like word]
      apply AreNodes.self
      intro node hnode
      obtain ⟨e, -, rfl⟩ := List.mem_map.mp hnode
      exact .leaf (by simp)
  | @operand key operand field plain =>
    obtain ⟨node, hnode, hcondition, leaf⟩ := attributeNodes_of_plain key plain
    refine ⟨[node], fun place => ?_, fun _ => List.cons_ne_nil _ _, ?_⟩
    · rw [entryNodes_attribute field, hnode]
    · rw [conditionsOf_attribute field, hcondition]
      exact .singleton leaf
  | @modified key es field filled known =>
    obtain ⟨nodes, hnodes, hconditions, hlength, leaves⟩ := modifierNodes_of_known key known
    refine ⟨nodes, fun place => ?_, fun _ => ?_, ?_⟩
    · rw [entryNodes_attribute field, attributeNodes_map filled, hnodes]
    · rw [← List.length_pos_iff, hlength]
      exact List.length_pos_iff.mpr filled
    · rw [conditionsOf_attribute field, hconditions]
      exact .self leaves

end Fitting

/-! ## What is read fits -/

theorem key_cases (key : String) :
    (∃ c, IsBlockWord key c) ∨ Text.lower key = "like" ∨ ¬IsReserved key := by
  by_cases hkey : IsReserved key
  · simp only [IsReserved, List.mem_cons, List.not_mem_nil, or_false] at hkey
    rcases hkey with hkey | hkey | hkey
    · exact .inl ⟨.and, hkey, by decide⟩
    · exact .inl ⟨.or, hkey, by decide⟩
    · exact .inr (.inl hkey)
  · exact .inr (.inr hkey)

theorem exists_of_mem_entryNodes {nodes : List Value} (h : entryNodes place es = .ok nodes) :
    ∀ e ∈ es, ∃ own, entryNodes place [e] = .ok own := by
  induction es generalizing nodes with
  | nil => exact List.forall_mem_nil _
  | cons e rest ih =>
    rw [entryNodes_cons] at h
    simp only [bind_eq_ok] at h
    obtain ⟨own, hown, more, hmore, -⟩ := h
    exact List.forall_mem_cons.mpr ⟨⟨own, hown⟩, ih hmore⟩

/-- Each branch that is read is a mapping whose entries are read. -/
theorem exists_of_mem_branchNodes {here : Path} {i : Nat} {branches nodes : List Value}
    (h : branchNodes here i branches = .ok nodes) :
    ∀ b ∈ branches, ∃ es, b = .map es ∧ es ≠ [] ∧
      ∀ e ∈ es, ∃ place own, entryNodes place [e] = .ok own := by
  induction branches generalizing i nodes with
  | nil => exact List.forall_mem_nil _
  | cons b rest ih =>
    cases b with
    | map es =>
      rw [branchNodes] at h
      simp only [bind_eq_ok, ite_error_eq_ok] at h
      obtain ⟨own, hown, hne, more, hmore, -⟩ := h
      refine List.forall_mem_cons.mpr ⟨⟨es, rfl, ?_, fun e he => ?_⟩, ih hmore⟩
      · rintro rfl
        rw [entryNodes_nil] at hown
        cases hown
        exact hne rfl
      · exact ⟨_, exists_of_mem_entryNodes hown e he⟩
    | _ => simp [branchNodes] at h

theorem sizeOf_branch {branches : List Value} {e : Value × Value}
    (items : operand.items? = some branches) (hb : .map es ∈ branches) (he : e ∈ es) :
    sizeOf e.2 < sizeOf operand := by
  have hentry : sizeOf e.2 < sizeOf e := by
    rw [Prod.mk.sizeOf_spec]
    omega
  have hentries := List.sizeOf_lt_of_mem he
  have hbranch := List.sizeOf_lt_of_mem hb
  have hmap : sizeOf (Value.map es) = 1 + sizeOf es := by simp
  have hoperand : sizeOf branches < sizeOf operand := by
    cases operand with
    | list xs | tuple xs =>
      cases items
      simp
    | _ => cases items
  omega

theorem isModifier_of_modifierNode {field modifier node : Value}
    (h : modifierNode field modifier operand = .ok node) : IsModifier modifier := by
  rw [modifierNode] at h
  cases modifier with
  | text word =>
    rw [← isSome_modifier?, Option.isSome_iff_ne_none]
    intro hnone
    simp [keyword, Error.ofFault, hnone] at h
  | _ => cases h

theorem isEntry_of_attributeNodes {here : Path} {field : Value} {nodes : List Value}
    (word : IsAttribute field) (h : attributeNodes here field operand = .ok nodes) :
    IsEntry (field, operand) := by
  rcases operand.map_or_other with ⟨es, rfl⟩ | plain
  · by_cases hes : es = []
    · subst hes
      cases h
    · rw [attributeNodes_map hes] at h
      refine .modified word hes fun e he => ?_
      obtain ⟨node, hnode⟩ := mem_of_mapM_eq_ok h e he
      exact isModifier_of_modifierNode hnode
  · exact .operand word plain

theorem blockNode_eq_ok {here : Path} {own : List Value} (h : blockNode here c operand = .ok own) :
    ∃ branches nodes, operand.items? = some branches ∧ branches ≠ [] ∧
      branchNodes here 0 branches = .ok nodes := by
  have hvacant : operand.items?.getD [] ≠ [] := by
    intro hvacant
    rw [blockNode_of_vacant hvacant] at h
    cases h
  obtain ⟨branches, items⟩ : ∃ branches, operand.items? = some branches := by
    rw [← Option.isSome_iff_exists]
    by_contra hitems
    simp_all
  have filled : branches ≠ [] := by simpa [items] using hvacant
  rw [blockNode_of_items items filled, map_eq_ok] at h
  obtain ⟨nodes, hnodes, -⟩ := h
  exact ⟨branches, nodes, items, filled, hnodes⟩

theorem isEntry_of_entryNodes {place : Path} {key operand : Value} {own : List Value}
    (h : entryNodes place [(key, operand)] = .ok own) : IsEntry (key, operand) := by
  cases key with
  | text key =>
    rcases key_cases key with ⟨c, word⟩ | word | word
    · rw [entryNodes_block word] at h
      obtain ⟨branches, nodes, items, filled, hnodes⟩ := blockNode_eq_ok h
      have hbranches := exists_of_mem_branchNodes hnodes
      refine .block word items filled (fun b hb => ?_) fun es hes e he => ?_
      · obtain ⟨es, rfl, hes, -⟩ := hbranches b hb
        exact ⟨es, rfl, hes⟩
      · obtain ⟨es', hmap, -, heach⟩ := hbranches _ hes
        cases hmap
        obtain ⟨place, own, hown⟩ := heach e he
        have := sizeOf_branch items hes he
        exact isEntry_of_entryNodes hown
    · rw [entryNodes_like word] at h
      cases operand with
      | map es =>
        refine .patterns word ?_
        rintro rfl
        cases h
      | _ => cases h
    · rw [entryNodes_attribute (.text word)] at h
      exact isEntry_of_attributeNodes (.text word) h
  | bytes =>
    rw [entryNodes_attribute .bytes] at h
    exact isEntry_of_attributeNodes .bytes h
  | _ =>
    rw [entryNodes, bind_eq_ok] at h
    obtain ⟨shown, -, h⟩ := h
    cases h
termination_by sizeOf operand

theorem giveNodes_of_entryNodes {nodes : List Value}
    (h : entryNodes place es = .ok nodes) : GiveNodes es := by
  apply GiveNodes.of_each
  intro e he
  obtain ⟨own, hown⟩ := exists_of_mem_entryNodes h e he
  exact (isEntry_of_entryNodes hown).giveNodes

/-! ## What does not fit is refused -/

section Refusing

variable {here : Path} {e : Error}

theorem entryNodes_fails {before after : Entries} (fine : ∀ e ∈ before, IsEntry e)
    (h : entryNodes place [(.text key, operand)] = .error e) :
    entryNodes place (before ++ (.text key, operand) :: after) = .error e := by
  obtain ⟨nodes, hnodes, -⟩ := GiveNodes.of_each fun e he => (fine e he).giveNodes
  rw [entryNodes_append, hnodes, entryNodes_cons, h]
  rfl

theorem branchNodes_fails {b : Value} {before after : List Value} {i : Nat}
    (fine : ∀ b ∈ before, GiveNode b)
    (h : branchNodes here (i + before.length) (b :: after) = .error e) :
    branchNodes here i (before ++ b :: after) = .error e := by
  induction before generalizing i with
  | nil => exact h
  | cons first before ih =>
    obtain ⟨⟨es, rfl, hes, nodes, hnodes, filled, -⟩, others⟩ := List.forall_mem_cons.mp fine
    have h : branchNodes here (i + 1) (before ++ b :: after) = .error e := by
      apply ih others
      rw [← h, List.length_cons]
      congr 1
      omega
    rw [List.cons_append, branchNodes_cons (hnodes _) (filled hes), h]
    rfl

theorem modifierNode_unknown {field : Value} (unknown : ¬IsModifier (.text key)) :
    modifierNode field (.text key) operand = .error (.unknownOperator (.text key) modifierNames) := by
  rw [← isSome_modifier?, Bool.not_eq_true, Option.isSome_eq_false_iff, Option.isNone_iff_eq_none]
    at unknown
  simp [modifierNode, keyword, Error.ofFault, unknown]

mutual

theorem EntriesFault.refused : ∀ {place : Path} {es : Entries} {e : Error},
    EntriesFault place es e → entryNodes place es = .error e
  | _, _, _, .first fine fault => entryNodes_fails fine (fault.refused _ rfl)

theorem EntryFault.refused : ∀ {here : Path} {key : String} {operand : Value} {e : Error},
    EntryFault here key operand e → ∀ place, here = place.key key →
    entryNodes place [(.text key, operand)] = .error e
  | _, _, _, _, .noBranches word vacant, place, hhere => by
    rw [entryNodes_block word, ← hhere, blockNode_of_vacant vacant]
  | here, _, _, _, .branch word items fine fault, place, hhere => by
    rw [entryNodes_block word, ← hhere, blockNode_of_items items (by simp)]
    rw [branchNodes_fails _ (by rw [Nat.zero_add]; exact fault.refused here _ _ rfl)]
    · rfl
    · intro b hb
      obtain ⟨es, rfl, hes, each⟩ := fine b hb
      exact ⟨es, rfl, hes, .of_each fun e he => (each e he).giveNodes⟩
  | _, _, operand, _, .notPatterns word other, place, hhere => by
    rw [entryNodes_like word, ← hhere]
    cases operand with
    | map es => cases other
    | _ => rfl
  | _, _, _, _, .noPatterns word, place, hhere => by
    rw [entryNodes_like word, ← hhere]
    rfl
  | _, _, _, _, .noModifiers word, place, hhere => by
    rw [entryNodes_attribute (.text word), Value.display, ← hhere]
    rfl
  | _, _, _, _, .unknownModifier word fine unknown, place, hhere => by
    rw [entryNodes_attribute (.text word), attributeNodes_map (by simp)]
    refine mapM_eq_error ?_ _ fun e he => ?_
    · exact modifierNode_unknown unknown
    obtain ⟨node, hnode, -⟩ := modifierNode_of_isModifier (.text _) e.2 (fine e he)
    exact ⟨node, hnode⟩

theorem FilterFault.refused : ∀ {place : Path} {b : Value} {e : Error}, FilterFault place b e →
    ∀ here i rest, place = here.index i → branchNodes here i (b :: rest) = .error e
  | _, b, _, .notMapping other, here, i, rest, hplace => by
    cases b with
    | map es => cases other
    | _ => simp [branchNodes, ← hplace]
  | _, _, _, .empty, here, i, rest, hplace => by
    rw [branchNodes, entryNodes_nil, ← hplace]
    rfl
  | _, _, _, .entries fault, here, i, rest, hplace => by
    rw [branchNodes, ← hplace, fault.refused]
    rfl

end

/-! ## Places of faults -/

/-- Whether an error is an unknown operator, or has a place in the filter. -/
def IsLocated (filter : Value) (e : Error) : Prop :=
  e.kind? = some .operator ∨
    e.kind? = some .validation ∧ ∃ place v, e.path? = some place ∧ Reaches filter place v

theorem Reaches.isLocated {filter : Value} {cause : Invalid} {v : Value}
    (h : Reaches filter place v) : IsLocated filter (.invalid cause (some place)) :=
  .inr ⟨rfl, place, v, rfl, h⟩

mutual

theorem EntriesFault.isLocated {filter : Value} : ∀ {place : Path} {es : Entries} {e : Error},
    EntriesFault place es e → Reaches filter place (.map es) → IsLocated filter e
  | _, _, _, .first _ fault, above => fault.isLocated (.key above (by simp))

theorem EntryFault.isLocated {filter : Value} :
    ∀ {here : Path} {key : String} {operand : Value} {e : Error},
    EntryFault here key operand e → Reaches filter here operand → IsLocated filter e
  | _, _, _, _, .branch _ items _ fault, above =>
    fault.isLocated (.index above items (by simp))
  | _, _, _, _, .noBranches _ _, above | _, _, _, _, .notPatterns _ _, above
  | _, _, _, _, .noPatterns _, above | _, _, _, _, .noModifiers _, above => above.isLocated
  | _, _, _, _, .unknownModifier _ _ _, _ => .inl rfl

theorem FilterFault.isLocated {filter : Value} : ∀ {place : Path} {b : Value} {e : Error},
    FilterFault place b e → Reaches filter place b → IsLocated filter e
  | _, _, _, .notMapping _, above | _, _, _, .empty, above => above.isLocated
  | _, _, _, .entries fault, above => fault.isLocated above

end

/-! ## What is not refused fits -/

/-- Where each one has one of two properties, all have the first, or there is a first one that has
the second. -/
theorem all_or_first {α : Type} {P Q : α → Prop} {xs : List α} (h : ∀ x ∈ xs, P x ∨ Q x) :
    (∀ x ∈ xs, P x) ∨ ∃ before x after, xs = before ++ x :: after ∧ (∀ y ∈ before, P y) ∧ Q x := by
  induction xs with
  | nil => exact .inl (List.forall_mem_nil _)
  | cons x xs ih =>
    obtain ⟨hx, hxs⟩ := List.forall_mem_cons.mp h
    rcases hx with hx | hx
    · rcases ih hxs with hall | ⟨before, y, after, rfl, hbefore, hy⟩
      · exact .inl (List.forall_mem_cons.mpr ⟨hx, hall⟩)
      · exact .inr ⟨x :: before, y, after, rfl, List.forall_mem_cons.mpr ⟨hx, hbefore⟩, hy⟩
    · exact .inr ⟨[], x, xs, rfl, List.forall_mem_nil _, hx⟩

/-- Whether an entry has a fault, wherever it stands. -/
def IsFaulty (e : Value × Value) : Prop :=
  ∃ key operand, e = (.text key, operand) ∧ ∀ here, ∃ err, EntryFault here key operand err

theorem all_fit_or_fault (h : ∀ e ∈ es, IsEntry e ∨ IsFaulty e) :
    (∀ e ∈ es, IsEntry e) ∨ ∀ place, ∃ err, EntriesFault place es err := by
  rcases all_or_first h with hall | ⟨before, e, after, rfl, fine, key, operand, rfl, hfault⟩
  · exact .inl hall
  · refine .inr fun place => ?_
    obtain ⟨err, fault⟩ := hfault (place.key key)
    exact ⟨err, .first fine fault⟩

theorem branch_fits_or_faults {b : Value}
    (h : ∀ es, b = .map es → ∀ e ∈ es, IsEntry e ∨ IsFaulty e) :
    (∃ es, b = .map es ∧ es ≠ [] ∧ ∀ e ∈ es, IsEntry e) ∨
      ∀ here, ∃ err, FilterFault here b err := by
  rcases b.map_or_other with ⟨es, rfl⟩ | other
  · by_cases hes : es = []
    · subst hes
      exact .inr fun here => ⟨_, .empty⟩
    · rcases all_fit_or_fault (h es rfl) with hall | hfault
      · exact .inl ⟨es, rfl, hes, hall⟩
      · refine .inr fun here => ?_
        obtain ⟨err, fault⟩ := hfault here
        exact ⟨err, .entries fault⟩
  · exact .inr fun here => ⟨_, .notMapping other⟩

theorem HasTextKeys.fits_or_faults {e : Value × Value} (h : HasTextKeys e) :
    IsEntry e ∨ IsFaulty e := by
  induction h with
  | @block key c operand word each ih =>
    by_cases hvacant : operand.items?.getD [] = []
    · exact .inr ⟨key, operand, rfl, fun here => ⟨_, .noBranches word hvacant⟩⟩
    obtain ⟨branches, items⟩ : ∃ branches, operand.items? = some branches := by
      rw [← Option.isSome_iff_exists]
      by_contra hitems
      simp_all
    have hbranches := all_or_first fun b (hb : b ∈ branches) =>
      branch_fits_or_faults fun es hes => ih branches es items (hes ▸ hb)
    rcases hbranches with hall | ⟨before, b, after, hsplit, fine, hfault⟩
    · refine .inl (.block word items (by simpa [items] using hvacant) (fun b hb => ?_) ?_)
      · obtain ⟨es, rfl, hes, -⟩ := hall b hb
        exact ⟨es, rfl, hes⟩
      · intro es hes
        obtain ⟨es', hmap, -, each⟩ := hall _ hes
        cases hmap
        exact each
    · refine .inr ⟨key, operand, rfl, fun here => ?_⟩
      obtain ⟨err, fault⟩ := hfault (here.index before.length)
      exact ⟨err, .branch word (hsplit ▸ items) fine fault⟩
  | @patterns key operand word =>
    rcases operand.map_or_other with ⟨es, rfl⟩ | other
    · by_cases hes : es = []
      · subst hes
        exact .inr ⟨key, _, rfl, fun here => ⟨_, .noPatterns word⟩⟩
      · exact .inl (.patterns word hes)
    · exact .inr ⟨key, operand, rfl, fun here => ⟨_, .notPatterns word other⟩⟩
  | @other key operand word keys =>
    rcases operand.map_or_other with ⟨es, rfl⟩ | plain
    · by_cases hes : es = []
      · subst hes
        exact .inr ⟨key, _, rfl, fun here => ⟨_, .noModifiers word⟩⟩
      have hmodifiers := all_or_first fun e (_ : e ∈ es) => Classical.em (IsModifier e.1)
      rcases hmodifiers with hall | ⟨before, e, after, rfl, fine, hunknown⟩
      · exact .inl (.modified (.text word) hes hall)
      · obtain ⟨modifier, v⟩ := e
        have htext : modifier.isText := keys _ rfl (modifier, v) (by simp)
        cases modifier with
        | text modifier =>
          exact .inr ⟨key, _, rfl, fun here => ⟨_, .unknownModifier word fine hunknown⟩⟩
        | _ => cases htext
    · exact .inl (.operand (.text word) plain)

end Refusing

/-! ## Whole filters -/

/-- Whether there is nothing in a filter, or entries that fit. -/
def Fits (filter : Value) : Prop :=
  filter.isTruthy = false ∨ ∃ es, filter = .map es ∧ ∀ e ∈ es, IsEntry e

theorem toNode_map (filled : es ≠ []) (plain : Value.lookup "op" es = none) :
    toNode (.map es) = (entryNodes (.root "where") es).map allOf := by
  have htruthy : (Value.map es).isTruthy = true := by simpa [Value.isTruthy] using filled
  rw [toNode, htruthy]
  simp only [Bool.not_true, Bool.false_eq_true, if_false, plain, Option.isSome_none]
  cases entryNodes (.root "where") es <;> rfl

theorem toNode_of_entries (filled : es ≠ []) (plain : Value.lookup "op" es = none)
    (each : ∀ e ∈ es, IsEntry e) :
    ∃ node, toNode (.map es) = .ok node ∧ IsNode node (conditionsOf es) := by
  obtain ⟨nodes, hnodes, hne, are⟩ := GiveNodes.of_each fun e he => (each e he).giveNodes
  refine ⟨allOf nodes, ?_, are.allOf (hne filled)⟩
  rw [toNode_map filled plain, hnodes]
  rfl

theorem toNode_of_falsy {filter : Value} (falsy : filter.isTruthy = false) :
    toNode filter = .ok (.map []) := by
  simp [toNode, falsy]

theorem FilterFault.refused_whole {filter : Value} {e : Error}
    (h : FilterFault (.root "where") filter e) (truthy : filter.isTruthy = true)
    (plain : ∀ es, filter = .map es → Value.lookup "op" es = none) :
    toNode filter = .error e := by
  cases h with
  | notMapping other =>
    cases filter with
    | map es => cases other
    | _ => simp [toNode, truthy]
  | empty => cases truthy
  | @entries _ es _ fault =>
    have filled : es ≠ [] := by simpa [Value.isTruthy] using truthy
    rw [toNode_map filled (plain es rfl), fault.refused]
    rfl

section Whole

variable {filter : Value} (keys : ∀ es, filter = .map es → ∀ e ∈ es, HasTextKeys e)
  (plain : ∀ es, filter = .map es → Value.lookup "op" es = none)

include plain

theorem exists_toNode_of_fits (h : Fits filter) : ∃ node, toNode filter = .ok node := by
  rcases h with falsy | ⟨es, rfl, each⟩
  · exact ⟨_, toNode_of_falsy falsy⟩
  · by_cases filled : es = []
    · subst filled
      exact ⟨_, toNode_of_falsy rfl⟩
    · obtain ⟨node, hnode, -⟩ := toNode_of_entries filled (plain es rfl) each
      exact ⟨node, hnode⟩

theorem toNode_eq_ok {node : Value} (h : toNode filter = .ok node) :
    (filter.isTruthy = false ∧ node = .map []) ∨
      ∃ es, filter = .map es ∧ (∀ e ∈ es, IsEntry e) ∧ IsNode node (conditionsOf es) := by
  by_cases truthy : filter.isTruthy = true
  · cases filter with
    | map es =>
      have filled : es ≠ [] := by simpa [Value.isTruthy] using truthy
      have hnodes := h
      rw [toNode_map filled (plain es rfl), map_eq_ok] at hnodes
      obtain ⟨nodes, hnodes, -⟩ := hnodes
      have each : ∀ e ∈ es, IsEntry e := by
        intro e he
        obtain ⟨own, hown⟩ := exists_of_mem_entryNodes hnodes e he
        exact isEntry_of_entryNodes hown
      obtain ⟨node', hnode', is⟩ := toNode_of_entries filled (plain es rfl) each
      cases h.symm.trans hnode'
      exact .inr ⟨es, rfl, each, is⟩
    | _ => simp [toNode, truthy] at h
  · have falsy : filter.isTruthy = false := by simpa using truthy
    cases h.symm.trans (toNode_of_falsy falsy)
    exact .inl ⟨falsy, rfl⟩

include keys

theorem toNode_eq_error_iff {e : Error} :
    toNode filter = .error e ↔ filter.isTruthy = true ∧ FilterFault (.root "where") filter e := by
  constructor
  · intro h
    have hfits : ¬Fits filter := by
      intro hfits
      obtain ⟨node, hnode⟩ := exists_toNode_of_fits plain hfits
      cases h.symm.trans hnode
    have truthy : filter.isTruthy = true := by
      rw [← Bool.not_eq_false]
      exact fun falsy => hfits (.inl falsy)
    have hfilter := branch_fits_or_faults fun es hes e he => (keys es hes e he).fits_or_faults
    rcases hfilter with ⟨es, rfl, -, each⟩ | hfault
    · exact absurd (.inr ⟨es, rfl, each⟩) hfits
    · obtain ⟨e', fault⟩ := hfault (.root "where")
      cases h.symm.trans (fault.refused_whole truthy plain)
      exact ⟨truthy, fault⟩
  · rintro ⟨truthy, fault⟩
    exact fault.refused_whole truthy plain

/-- Filters are read that fit, into nodes with exactly their conditions. Of any other filter the
first fault is reported, and its place is in the filter. -/
theorem toNode_iff_fits :
    ((∃ node, toNode filter = .ok node) ↔ Fits filter) ∧
    (∀ e, toNode filter = .error e ↔
      filter.isTruthy = true ∧ FilterFault (.root "where") filter e) ∧
    (∀ e, toNode filter = .error e → IsLocated filter e) ∧
    ∀ node, toNode filter = .ok node →
      (filter.isTruthy = false ∧ node = .map []) ∨
        ∃ es, filter = .map es ∧ IsNode node (conditionsOf es) := by
  refine ⟨⟨?_, exists_toNode_of_fits plain⟩, fun e => toNode_eq_error_iff keys plain, ?_, ?_⟩
  · rintro ⟨node, hnode⟩
    rcases toNode_eq_ok plain hnode with ⟨falsy, -⟩ | ⟨es, rfl, each, -⟩
    · exact .inl falsy
    · exact .inr ⟨es, rfl, each⟩
  · intro e h
    exact ((toNode_eq_error_iff keys plain).mp h).2.isLocated .root
  · intro node hnode
    rcases toNode_eq_ok plain hnode with hempty | ⟨es, rfl, -, is⟩
    · exact .inl hempty
    · exact .inr ⟨es, rfl, is⟩

end Whole

/-- A filter for what has a name, or a certain number. -/
def namedOrFirst : Entries :=
  [(.text "OR", .list [.map [(.text "name", .map [(.text "!", .null)])],
    .map [(.text "id", .tuple [.int 1])]])]

theorem hasTextKeys_namedOrFirst : ∀ e ∈ namedOrFirst, HasTextKeys e := by
  intro e he
  obtain rfl := List.mem_singleton.mp he
  refine .block (c := .or) ⟨by decide, by decide⟩ fun branches es items hes e he => ?_
  cases items
  rcases List.mem_pair.mp hes with hes | hes
  · cases hes
    obtain rfl := List.mem_singleton.mp he
    refine .other (by decide) fun es hes e he => ?_
    cases hes
    obtain rfl := List.mem_singleton.mp he
    rfl
  · cases hes
    obtain rfl := List.mem_singleton.mp he
    refine .other (by decide) fun es hes => ?_
    cases hes

theorem toNode_namedOrFirst :
    (∀ es, Value.map namedOrFirst = .map es → ∀ e ∈ es, HasTextKeys e) ∧
      (∀ es, Value.map namedOrFirst = .map es → Value.lookup "op" es = none) ∧
      Fits (.map namedOrFirst) := by
  have keys : ∀ es, Value.map namedOrFirst = .map es → ∀ e ∈ es, HasTextKeys e := by
    intro es hes
    cases hes
    exact hasTextKeys_namedOrFirst
  have plain : ∀ es, Value.map namedOrFirst = .map es → Value.lookup "op" es = none := by
    intro es hes
    cases hes
    rfl
  exact ⟨keys, plain, (toNode_iff_fits keys plain).1.mp ⟨_, rfl⟩⟩

end SqlFragment.Filter
