import Mathlib.Data.List.Forall2
import SqlFragment.Proofs.Shorthands

/-!
What a filter means inside a block. A filter of entries means there what it means on its own, and a
node does not: below a block it is read as entries for the attributes `op` and `conditions`.
-/
namespace SqlFragment.Filter

variable {key : String} {c : Connective} {operand node : Value} {es : Entries}
  {nodes : List Value}

/-- Whether entries are read as a node, wherever they stand. -/
def ReadsAs (es : Entries) (node : Value) : Prop :=
  es ≠ [] ∧ ∃ nodes, (∀ place, entryNodes place es = .ok nodes) ∧ allOf nodes = node

theorem readsAs_of_entryNodes {place : Path} (h : entryNodes place es = .ok nodes)
    (filled : es ≠ []) : ReadsAs es (allOf nodes) := by
  obtain ⟨nodes', hnodes', -⟩ := giveNodes_of_entryNodes h
  cases h.symm.trans (hnodes' place)
  exact ⟨filled, nodes, hnodes', rfl⟩

theorem toNode_of_op (h : Value.lookup "op" es ≠ none) : toNode (.map es) = .ok (.map es) := by
  have filled : es ≠ [] := by
    rintro rfl
    exact h rfl
  have truthy : (Value.map es).isTruthy = true := by simpa [Value.isTruthy] using filled
  have hop : (Value.lookup "op" es).isSome := by rwa [Option.isSome_iff_ne_none]
  simp [toNode, truthy, hop]

/-! ## A node is not read as itself -/

theorem length_le_of_entryNodes {place : Path} (h : entryNodes place es = .ok nodes) :
    es.length ≤ nodes.length := by
  induction es generalizing nodes with
  | nil => exact Nat.zero_le _
  | cons e rest ih =>
    rw [entryNodes_cons] at h
    simp only [bind_eq_ok, pure_eq_ok] at h
    obtain ⟨own, hown, more, hmore, rfl⟩ := h
    obtain ⟨own', hown', filled, -⟩ := (isEntry_of_entryNodes hown).giveNodes
    cases hown.symm.trans (hown' place)
    have hpos : 0 < own.length := List.length_pos_iff.mpr (filled (List.cons_ne_nil _ _))
    have := ih hmore
    rw [List.length_append, List.length_cons]
    omega

theorem IsNode.length_entries {leaves : List Value} (h : IsNode (.map es) leaves) :
    2 ≤ es.length := by
  generalize hnode : Value.map es = node at h
  cases h with
  | leaf | all | any =>
    cases hnode
    simp

/-- A group of several nodes, read as entries, would be among its own members. -/
theorem entryNodes_group_ne {place : Path} :
    entryNodes place [(.text "op", .text "and"), (.text "conditions", .list nodes)] ≠ .ok nodes := by
  intro h
  have hnodes : entryNodes place [(.text "op", .text "and"), (.text "conditions", .list nodes)] =
      .ok [leafNode .eq (.text "op") (.text "and"),
        leafNode .isIn (.text "conditions") (.list nodes)] := by
    rw [entryNodes_cons, entryNodes_attribute (.text (by decide)),
      entryNodes_attribute (.text (by decide))]
    rfl
  have hself := congrArg sizeOf (Except.ok.inj (h.symm.trans hnodes))
  simp [leafNode] at hself
  omega

theorem AreNodes.exists_leaves {leaves : List Value} (h : AreNodes nodes leaves) :
    ∀ node ∈ nodes, ∃ own, IsNode node own := by
  induction nodes generalizing leaves with
  | nil => exact List.forall_mem_nil _
  | cons node nodes ih =>
    cases h with
    | cons first others => exact List.forall_mem_cons.mpr ⟨⟨_, first⟩, ih others⟩

theorem not_readsAs_self : ¬ReadsAs es (.map es) := by
  rintro ⟨filled, nodes, hnodes, hself⟩
  have hlength := length_le_of_entryNodes (hnodes (.root "where"))
  rcases nodes with - | ⟨first, - | ⟨second, others⟩⟩
  · exact filled (List.length_eq_zero_iff.mp (Nat.le_zero.mp hlength))
  · -- One node comes from one entry, and has two entries or more.
    obtain ⟨nodes, hnodes', -, are⟩ := giveNodes_of_entryNodes (hnodes (.root "where"))
    cases (hnodes (.root "where")).symm.trans (hnodes' (.root "where"))
    obtain ⟨leaves, is⟩ := are.exists_leaves first List.mem_cons_self
    cases hself
    have := is.length_entries
    rw [List.length_singleton] at hlength
    omega
  · cases hself
    exact entryNodes_group_ne (hnodes (.root "where"))

theorem readsAs_iff (h : toNode (.map es) = .ok node) (truthy : node.isTruthy = true) :
    ReadsAs es node ↔ Value.lookup "op" es = none := by
  constructor
  · intro hreads
    by_contra hop
    cases h.symm.trans (toNode_of_op hop)
    exact not_readsAs_self hreads
  · intro plain
    have filled : es ≠ [] := by
      rintro rfl
      cases h
      cases truthy
    rw [toNode_map filled plain, map_eq_ok] at h
    obtain ⟨nodes, hnodes, rfl⟩ := h
    exact readsAs_of_entryNodes hnodes filled

/-! ## Branches -/

theorem branchNodes_eq_ok_iff {here : Path} {i : Nat} {branches : List Entries} :
    branchNodes here i (branches.map .map) = .ok nodes ↔ List.Forall₂ ReadsAs branches nodes := by
  induction branches generalizing i nodes with
  | nil =>
    rw [List.map_nil, branchNodes]
    simp [eq_comm]
  | cons es rest ih =>
    rw [List.map_cons]
    constructor
    · intro h
      rw [branchNodes] at h
      simp only [bind_eq_ok, ite_error_eq_ok, pure_eq_ok] at h
      obtain ⟨own, hown, hne, more, hmore, rfl⟩ := h
      refine .cons (readsAs_of_entryNodes hown ?_) (ih.mp hmore)
      rintro rfl
      rw [entryNodes_nil] at hown
      cases hown
      exact hne rfl
    · intro h
      cases h with
      | cons first others =>
        obtain ⟨filled, own, hown, rfl⟩ := first
        have hne : own ≠ [] := by
          have := length_le_of_entryNodes (hown here)
          rintro rfl
          exact filled (List.length_eq_zero_iff.mp (Nat.le_zero.mp this))
        rw [branchNodes_cons (hown _) hne, ih.mpr others]
        rfl

theorem group_inj {others : List Value} (h : group c nodes = group c others)
    (hlength : nodes.length = others.length) : nodes = others := by
  cases c with
  | or | not =>
    cases h
    rfl
  | and =>
    change allOf nodes = allOf others at h
    by_cases hone : nodes.length = 1
    · obtain ⟨node, rfl⟩ := List.length_eq_one_iff.mp hone
      obtain ⟨other, rfl⟩ := List.length_eq_one_iff.mp (hlength.symm.trans hone)
      exact congrArg (fun v => [v]) h
    · rw [allOf_of_length_ne hone, allOf_of_length_ne (hlength ▸ hone)] at h
      cases h
      rfl

section Branches

variable {branches : List Entries}

theorem toNode_block (word : IsBlockWord key c)
    (items : operand.items? = some (branches.map .map)) (filled : branches ≠ []) :
    toNode (.map [(.text key, operand)]) =
      (branchNodes ((Path.root "where").key key) 0 (branches.map .map)).map (group c) := by
  have hkey : key ≠ "op" := by
    rintro rfl
    cases c with
    | and | or | not => exact absurd word.1 (by decide)
  have plain : Value.lookup "op" [(Value.text key, operand)] = none := by
    simp [Value.lookup, hkey]
  rw [toNode_map (List.cons_ne_nil _ _) plain, entryNodes_block word,
    blockNode_of_items items (by simpa using filled)]
  cases branchNodes ((Path.root "where").key key) 0 (branches.map .map) <;> rfl

theorem toNode_block_iff (word : IsBlockWord key c)
    (items : operand.items? = some (branches.map .map)) (filled : branches ≠ [])
    (hlength : branches.length = nodes.length) :
    toNode (.map [(.text key, operand)]) = .ok (group c nodes) ↔
      List.Forall₂ ReadsAs branches nodes := by
  rw [toNode_block word items filled, map_eq_ok]
  constructor
  · rintro ⟨own, hown, hgroup⟩
    rw [branchNodes_eq_ok_iff] at hown
    rwa [← group_inj hgroup (hown.length_eq.symm.trans hlength)]
  · intro h
    exact ⟨nodes, branchNodes_eq_ok_iff.mpr h, rfl⟩

/-- Filters that are read into nodes on their own are read so as branches if none is a node. -/
theorem forall₂_readsAs_iff
    (each : List.Forall₂ (fun es node => toNode (.map es) = .ok node ∧ node.isTruthy = true)
      branches nodes) :
    List.Forall₂ ReadsAs branches nodes ↔ ∀ es ∈ branches, Value.lookup "op" es = none := by
  induction each with
  | nil => simp
  | cons first others ih =>
    rw [List.forall₂_cons, readsAs_iff first.1 first.2, ih, List.forall_mem_cons]

/-- A block holds what its branches are on their own exactly if no branch is a node. -/
theorem blocks_compose_iff (filled : branches ≠ [])
    (each : List.Forall₂ (fun es node => toNode (.map es) = .ok node ∧ node.isTruthy = true)
      branches nodes) :
    (toNode (.map [(.text "or", .list (branches.map .map))]) = .ok (groupNode .or nodes) ↔
      ∀ es ∈ branches, Value.lookup "op" es = none) ∧
    (2 ≤ branches.length →
      (toNode (.map [(.text "and", .list (branches.map .map))]) = .ok (groupNode .and nodes) ↔
        ∀ es ∈ branches, Value.lookup "op" es = none)) ∧
    ∀ node, nodes = [node] →
      (toNode (.map [(.text "and", .list (branches.map .map))]) = .ok node ↔
        ∀ es ∈ branches, Value.lookup "op" es = none) := by
  have hlength := each.length_eq
  have hplain := forall₂_readsAs_iff each
  have hor : IsBlockWord "or" .or := ⟨by decide, by decide⟩
  have hand : IsBlockWord "and" .and := ⟨by decide, by decide⟩
  refine ⟨?_, fun many => ?_, ?_⟩
  · rw [← hplain]
    exact toNode_block_iff hor rfl filled hlength
  · have hall : allOf nodes = groupNode .and nodes := allOf_of_length_ne (by omega)
    rw [← hplain, ← hall]
    exact toNode_block_iff hand rfl filled hlength
  · rintro node rfl
    rw [← hplain]
    exact toNode_block_iff hand rfl filled hlength

/-- A name, as entries and as a node. -/
def namedTwice : List Entries :=
  [[(.text "name", .text "x")],
   [(.text "op", .text "="), (.text "attr", .text "name"), (.text "val", .text "x")]]

theorem blocks_compose_named :
    namedTwice ≠ [] ∧
      List.Forall₂ (fun es node => toNode (.map es) = .ok node ∧ node.isTruthy = true) namedTwice
        [leafNode .eq (.text "name") (.text "x"), leafNode .eq (.text "name") (.text "x")] ∧
      toNode (.map [(.text "or", .list (namedTwice.map .map))]) ≠
        .ok (groupNode .or
          [leafNode .eq (.text "name") (.text "x"), leafNode .eq (.text "name") (.text "x")]) := by
  have filled : namedTwice ≠ [] := List.cons_ne_nil _ _
  have each : List.Forall₂ (fun es node => toNode (.map es) = .ok node ∧ node.isTruthy = true)
      namedTwice
      [leafNode .eq (.text "name") (.text "x"), leafNode .eq (.text "name") (.text "x")] :=
    .cons ⟨rfl, rfl⟩ (.cons ⟨rfl, rfl⟩ .nil)
  refine ⟨filled, each, fun h => ?_⟩
  have hplain := (blocks_compose_iff filled each).1.mp h
  exact absurd (hplain _ (List.mem_cons_of_mem _ List.mem_cons_self)) (by decide)

end Branches

end SqlFragment.Filter
