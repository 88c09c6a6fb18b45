import SqlFragment.Proofs.Binding

/-!
Compiled texts from one start to another. Numbers behind dollar signs are moved wherever they stand,
so that a text with another start differs in its markers only when its names hold no such numbers.
-/
namespace SqlFragment

/-! ## Numbers in a text -/

/-- A number stands behind a dollar sign. -/
def HoldsNumber (cs : List Char) : Prop := ∃ n digits, Token.number n digits ∈ tokensFrom .other cs

section Moving

variable {d : Dialect} {k : Int}

theorem tokensFrom_cons_of_none {r : Reading} {c : Char} (h : Text.digitValue? c = none)
    (cs : List Char) :
    tokensFrom r (c :: cs) = r.tokens ++ .char c :: tokensFrom (readingAfter c) cs := by
  cases r <;> simp [tokensFrom, readingAfter, h]

theorem tokens_readingAfter (c : Char) : (readingAfter c).tokens = [] := by
  unfold readingAfter
  split <;> rfl

/-- A number ends where no digit follows. -/
theorem tokensFrom_number_of_end {rest : List Char}
    (h : ∀ c ∈ rest.head?, Text.digitValue? c = none) (n digits : Nat) :
    tokensFrom (.number n digits) rest = .number n digits :: tokensFrom .other rest := by
  cases rest with
  | nil => rfl
  | cons c cs =>
    have hc := h c rfl
    rw [tokensFrom_cons_of_none hc, tokensFrom_cons_of_none hc]
    rfl

/-- A number that is being read is a token in the end. -/
theorem exists_number_eq (n digits : Nat) (cs : List Char) :
    ∃ m e rest, tokensFrom (.number n digits) cs = .number m e :: tokensFrom .other rest ∧
      ∀ c ∈ rest.head?, Text.digitValue? c = none := by
  induction cs generalizing n digits with
  | nil => exact ⟨n, digits, [], rfl, by simp⟩
  | cons c cs ih =>
    cases hc : Text.digitValue? c with
    | none =>
      have hend : ∀ c' ∈ (c :: cs).head?, Text.digitValue? c' = none := by simpa using hc
      exact ⟨n, digits, c :: cs, tokensFrom_number_of_end hend n digits, hend⟩
    | some v =>
      have hdigit : tokensFrom (.number n digits) (c :: cs) =
          tokensFrom (.number (10 * n + v) (digits + 1)) cs := by
        simp [tokensFrom, hc]
      rw [hdigit]
      exact ih (10 * n + v) (digits + 1)

theorem head?_movedChars (cs : List Char) : (movedChars k cs).head? = cs.head? := by
  cases cs with
  | nil => rfl
  | cons c cs => simp [movedChars, tokensFrom, Reading.tokens, Token.moved]

theorem flatMap_moved_of_no_number {r : Reading} {cs : List Char} (hr : r.tokens = [])
    (h : ∀ n digits, Token.number n digits ∉ tokensFrom r cs) (j : Int) :
    (tokensFrom r cs).flatMap (Token.moved j) = cs := by
  induction cs generalizing r with
  | nil => simp [tokensFrom, hr]
  | cons c cs ih =>
    rcases tokensFrom_cons r c with ⟨-, -, n, digits, htail⟩ | htail
    · obtain ⟨m, e, rest, hnumber, -⟩ := exists_number_eq n digits cs
      rw [htail, hnumber] at h
      exact absurd List.mem_cons_self (h m e)
    · rw [htail, hr, List.nil_append] at h ⊢
      rw [List.flatMap_cons, Token.moved, List.singleton_append,
        ih (tokens_readingAfter c) fun n digits hmem => h n digits (List.mem_cons_of_mem _ hmem)]

/-- The first number that is moved is another number where it stands. -/
theorem flatMap_moved_ne (hk : k ≠ 0) {r : Reading} (hr : r.tokens = []) {cs : List Char}
    {n digits : Nat} (hmem : Token.number n digits ∈ tokensFrom r cs) :
    (tokensFrom r cs).flatMap (Token.moved k) ≠ cs := by
  induction cs generalizing r with
  | nil =>
    rw [tokensFrom, hr] at hmem
    contradiction
  | cons c cs ih =>
    intro h
    rcases tokensFrom_cons r c with ⟨hother, hdigit, n, digits, htail⟩ | htail
    · obtain ⟨m, e, rest, hnumber, hrest⟩ := exists_number_eq n digits cs
      have hread : tokensFrom r (c :: cs) = .number m e :: tokensFrom .other rest :=
        (htail cs).trans hnumber
      rw [hread, List.flatMap_cons, Token.moved, toList_toString_int] at h
      split at h
      · -- the text is read again, with the moved number in its place
        have hend : ∀ c ∈ (movedChars k rest).head?, Text.digitValue? c = none := by
          rwa [head?_movedChars]
        have hagain := tokensFrom_dollar ((m : Int) + k).toNat (movedChars k rest)
        obtain rfl : r = .dollar := by
          cases r with
          | other => exact absurd rfl hother
          | dollar => rfl
          | number => cases hr
        rw [tokensFrom_number_of_end hend, movedChars, h, hread] at hagain
        obtain ⟨hsame, -⟩ := Token.number.inj (List.cons.inj hagain).1
        omega
      · obtain ⟨rfl, -⟩ := List.cons.inj h
        exact absurd hdigit (by decide)
    · rw [htail, hr, List.nil_append] at h hmem
      rw [List.flatMap_cons, Token.moved, List.singleton_append] at h
      have hmem := (List.mem_cons.mp hmem).resolve_left Token.noConfusion
      exact ih (tokens_readingAfter c) hmem (List.cons.inj h).2

/-- Moving changes every number. -/
theorem movedChars_eq_iff (hk : k ≠ 0) (cs : List Char) :
    movedChars k cs = cs ↔ ¬HoldsNumber cs := by
  constructor
  · rintro h ⟨n, digits, hmem⟩
    exact flatMap_moved_ne hk rfl hmem h
  · intro h
    exact flatMap_moved_of_no_number rfl (fun n digits hmem => h ⟨n, digits, hmem⟩) k

theorem not_holdsNumber {cs : List Char} (h : '$' ∉ cs) : ¬HoldsNumber cs :=
  (movedChars_eq_iff Int.one_ne_zero cs).mp (movedChars_eq_self _ h)

theorem tokensFrom_append_mark (r : Reading) (cs rest : List Char) :
    tokensFrom r (cs ++ d.mark :: rest) =
      tokensFrom r cs ++ .char d.mark :: tokensFrom .other rest := by
  have hmark : Text.digitValue? d.mark = none := digitValue?_eq_none (.inr d.mark_eq)
  induction cs generalizing r with
  | nil =>
    rw [List.nil_append, tokensFrom_cons_of_none hmark, readingAfter_mark]
    rfl
  | cons c cs ih =>
    rw [List.cons_append]
    rcases tokensFrom_cons r c with ⟨-, -, n, digits, htail⟩ | htail
    · rw [htail, htail, ih]
    · rw [htail, htail, ih, List.append_assoc, List.cons_append]

/-- No number goes across a quote. -/
theorem movedChars_append_mark (j : Int) (cs rest : List Char) :
    movedChars j (cs ++ d.mark :: rest) = movedChars j cs ++ d.mark :: movedChars j rest := by
  simp [movedChars, tokensFrom_append_mark, Token.moved]

theorem movedChars_intercalate (j : Int) (ps : List (List Char)) :
    movedChars j ([d.mark].intercalate ps) = [d.mark].intercalate (ps.map (movedChars j)) := by
  induction ps with
  | nil => rfl
  | cons p ps ih =>
    cases ps with
    | nil => simp
    | cons q rest =>
      rw [List.map_cons] at ih ⊢
      rw [List.map_cons, List.intercalate_cons_cons, List.intercalate_cons_cons, ← ih,
        List.append_assoc, List.append_assoc]
      exact movedChars_append_mark j p _

theorem mark_notMem_movedChars (j : Int) {cs : List Char} (h : d.mark ∉ cs) :
    d.mark ∉ movedChars j cs := by
  rw [← List.count_eq_zero] at h ⊢
  rw [movedChars, count_moved, h]

end Moving

/-! ## Numbers outside names -/

section Outside

variable {α : Type}

/-- Every second part. Where a text is split at its quotes, these are its names; a doubled quote
splits a name in two. -/
def insides : List α → List α
  | _ :: q :: rest => q :: insides rest
  | _ => []

/-- Parts of which all but every second are changed. -/
def mapOutsides (f : α → α) : List α → List α
  | p :: q :: rest => f p :: q :: mapOutsides f rest
  | [p] => [f p]
  | [] => []

theorem map_eq_mapOutsides {f : α → α} (ps : List α) :
    ps.map f = mapOutsides f ps ↔ ∀ q ∈ insides ps, f q = q := by
  induction ps using mapOutsides.induct with
  | case1 p q rest ih => simp [mapOutsides, insides, ih]
  | case2 p => simp [mapOutsides, insides]
  | case3 => simp [mapOutsides, insides]

theorem forall_mem_mapOutsides {f : α → α} {P : α → Prop} {ps : List α} (h : ∀ p ∈ ps, P p)
    (hf : ∀ p, P p → P (f p)) : ∀ p ∈ mapOutsides f ps, P p := by
  induction ps using mapOutsides.induct with
  | case1 p q rest ih =>
    obtain ⟨hp, hrest⟩ := List.forall_mem_cons.mp h
    obtain ⟨hq, hrest⟩ := List.forall_mem_cons.mp hrest
    exact List.forall_mem_cons.mpr ⟨hf p hp, List.forall_mem_cons.mpr ⟨hq, ih hrest⟩⟩
  | case2 p => exact List.forall_mem_singleton.mpr (hf p (List.forall_mem_singleton.mp h))
  | case3 => exact h

theorem mapOutsides_ne_nil {f : α → α} {ps : List α} (h : ps ≠ []) : mapOutsides f ps ≠ [] := by
  unfold mapOutsides
  split <;> first | exact List.cons_ne_nil _ _ | exact h

end Outside

/-- What stands between the quotes of a text. -/
def quotedParts (mark : Char) (cs : List Char) : List (List Char) := insides (cs.splitOn mark)

/-- The text with its numbers moved, but not those that stand between quotes. -/
def movedOutside (mark : Char) (k : Int) (cs : List Char) : List Char :=
  if k = 0 then cs else [mark].intercalate (mapOutsides (movedChars k) (cs.splitOn mark))

theorem mark_notMem_splitOn (mark : Char) (cs : List Char) : ∀ p ∈ cs.splitOn mark, mark ∉ p := by
  induction cs with
  | nil => simp
  | cons c cs ih =>
    rw [List.splitOn_cons_eq_if_modifyHead]
    split
    · exact List.forall_mem_cons.mpr ⟨List.not_mem_nil, ih⟩
    · rename_i hc
      cases hs : cs.splitOn mark with
      | nil => exact absurd hs (List.splitOn_ne_nil mark cs)
      | cons p ps =>
        rw [hs] at ih
        obtain ⟨hp, hps⟩ := List.forall_mem_cons.mp ih
        refine List.forall_mem_cons.mpr ⟨?_, hps⟩
        rintro (_ | ⟨_, hmem⟩)
        · simp at hc
        · exact hp hmem

theorem movedChars_eq_movedOutside {d : Dialect} {k : Nat} (hk : k ≠ 0) (cs : List Char) :
    movedChars k cs = movedOutside d.mark k cs ↔ ∀ q ∈ quotedParts d.mark cs, ¬HoldsNumber q := by
  have hparts := mark_notMem_splitOn d.mark cs
  have hne := List.splitOn_ne_nil d.mark cs
  have hmoved : movedChars k cs = [d.mark].intercalate ((cs.splitOn d.mark).map (movedChars k)) := by
    rw [← movedChars_intercalate, List.intercalate_splitOn]
  have hparts' : ∀ p ∈ mapOutsides (movedChars k) (cs.splitOn d.mark), d.mark ∉ p :=
    forall_mem_mapOutsides hparts fun p => mark_notMem_movedChars k
  have hall : ∀ p ∈ (cs.splitOn d.mark).map (movedChars k), d.mark ∉ p := by
    intro p hp
    obtain ⟨q, hq, rfl⟩ := List.mem_map.mp hp
    exact mark_notMem_movedChars k (hparts q hq)
  have hk' : (k : Int) ≠ 0 := by omega
  rw [movedOutside, if_neg hk', hmoved, quotedParts]
  constructor
  · intro h
    -- no part holds a quote, so that both texts are split into what they were joined from
    have hlists := congrArg (List.splitOn d.mark) h
    rw [List.splitOn_intercalate _ hall (List.map_eq_nil_iff.not.mpr hne),
      List.splitOn_intercalate _ hparts' (mapOutsides_ne_nil hne)] at hlists
    intro q hq
    exact (movedChars_eq_iff hk' q).mp ((map_eq_mapOutsides _).mp hlists q hq)
  · intro h
    have hlists := (map_eq_mapOutsides (f := movedChars k) (cs.splitOn d.mark)).mpr
      fun q hq => (movedChars_eq_iff hk' q).mpr (h q hq)
    rw [hlists]

namespace ClauseCompiler

variable {c : ClauseCompiler} {k : Criteria}

/-- Only the last step of compiling looks at the start. -/
theorem compile_start {w w' : Written} (h : (c.inStyle .dollar 1).compile k = .ok w) (s : Int) :
    (c.inStyle .dollar s).compile k = .ok w' ↔
      renumber s w.text = .ok w'.text ∧ w'.values = w.values := by
  simp only [compile, bind_eq_ok, ofFault_eq_ok] at h ⊢
  obtain ⟨⟨tables, pieces⟩, hclauses, w₀, hwrite, hsettle⟩ := h
  obtain ⟨hline, hvalues⟩ := settle_eq_ok.mp hsettle
  have hline := Except.ok.inj hline
  rw [← hline, hvalues]
  constructor
  · rintro ⟨⟨tables', pieces'⟩, hclauses', w₁, hwrite', hsettle'⟩
    obtain ⟨rfl, rfl⟩ := Prod.mk.inj (Except.ok.inj (hclauses.symm.trans hclauses'))
    obtain rfl := Except.ok.inj (hwrite.symm.trans hwrite')
    exact settle_eq_ok.mp hsettle'
  · rintro hw
    exact ⟨⟨tables, pieces⟩, hclauses, w₀, hwrite, settle_eq_ok.mpr hw⟩

theorem renumber_eq_ok {s : Int} {text text' : String} : renumber s text = .ok text' ↔
    s = 1 ∧ text' = text ∨ s ≠ 1 ∧
      (tokensFrom .other text.toList).all (Token.isMovable (s - 1)) ∧
        text'.toList = movedChars (s - 1) text.toList := by
  by_cases hs : s = 1
  · rw [renumber, if_pos hs, Except.ok.injEq]
    constructor
    · rintro rfl
      exact .inl ⟨hs, rfl⟩
    · rintro (⟨-, rfl⟩ | ⟨hs', -⟩)
      · rfl
      · exact absurd hs hs'
  · by_cases hall : (tokensFrom .other text.toList).all (Token.isMovable (s - 1))
    · have hmoved : renumber s text = .ok (String.ofList (movedChars (s - 1) text.toList)) := by
        rw [renumber, if_neg hs, if_pos hall]
        rfl
      rw [hmoved, Except.ok.injEq]
      constructor
      · rintro rfl
        exact .inr ⟨hs, hall, String.toList_ofList⟩
      · rintro (⟨hs', -⟩ | ⟨-, -, htext⟩)
        · exact absurd hs' hs
        · rw [← htext, String.ofList_toList]
    · rw [renumber, if_neg hs, if_neg hall]
      constructor
      · exact nofun
      · rintro (⟨hs', -⟩ | ⟨-, hall', -⟩)
        · exact absurd hs' hs
        · exact absurd hall' hall

/-- Another start changes no value. It moves all numbers, if they can be moved, and these are the
markers alone if and only if no name holds a number. -/
theorem start_moves_markers {w : Written} (h : (c.inStyle .dollar 1).compile k = .ok w) {s : Int}
    (hs : 1 ≤ s) :
    ((∃ w', (c.inStyle .dollar s).compile k = .ok w') ↔
      s = 1 ∨ (tokensFrom .other w.text.toList).all (Token.isMovable (s - 1))) ∧
    ∀ w', (c.inStyle .dollar s).compile k = .ok w' →
      w'.values = w.values ∧
      (w'.text.toList = movedOutside c.dialect.mark (s - 1) w.text.toList ↔
        s = 1 ∨ ∀ name ∈ quotedParts c.dialect.mark w.text.toList, ¬HoldsNumber name) := by
  have hcompile {w' : Written} := @compile_start c k w w' h s
  constructor
  · constructor
    · rintro ⟨w', hw'⟩
      obtain ⟨hs, -⟩ | ⟨-, hall, -⟩ := renumber_eq_ok.mp (hcompile.mp hw').1
      · exact .inl hs
      · exact .inr hall
    · intro hmovable
      by_cases hs : s = 1
      · exact ⟨w, hcompile.mpr ⟨renumber_eq_ok.mpr (.inl ⟨hs, rfl⟩), rfl⟩⟩
      · have hall := hmovable.resolve_left hs
        refine ⟨⟨String.ofList (movedChars (s - 1) w.text.toList), w.values⟩, hcompile.mpr ⟨?_, rfl⟩⟩
        exact renumber_eq_ok.mpr (.inr ⟨hs, hall, String.toList_ofList⟩)
  · intro w' hw'
    obtain ⟨htext, hvalues⟩ := hcompile.mp hw'
    refine ⟨hvalues, ?_⟩
    obtain ⟨rfl, hsame⟩ | ⟨hne, -, htext⟩ := renumber_eq_ok.mp htext
    · simp [hsame, movedOutside]
    · obtain ⟨n, hn⟩ : ∃ n : Nat, s - 1 = n := ⟨(s - 1).toNat, by omega⟩
      have hn0 : n ≠ 0 := by omega
      rw [htext, hn, movedChars_eq_movedOutside hn0]
      simp [hne]

/-- Sales with a cost, whose name holds a number behind a dollar sign. -/
def costs : ClauseCompiler :=
  ⟨⟨[(.text "sales", ⟨"sales", [("id", { primaryKey := true }), ("cost$1", {})]⟩)]⟩, "sales",
    .default, .dollar, 1, .usual⟩

def costing : Criteria := { filter := .map [(.text "cost$1", .int 5)] }

theorem clauses_costing (start : Int) : (costs.inStyle .dollar start).clauses costing =
    .ok (["sales"], [.word " \nWHERE ", .name "sales", .word ".", .name "cost$1", .word " = ",
      .marker valueLabel (.int 5)]) := by
  cbv

theorem compile_costing :
    (∃ w, (costs.inStyle .dollar 1).compile costing = .ok w ∧
      w.text = "\x22sales\x22.\x22cost$1\x22 = $1") ∧
    ∃ w, (costs.inStyle .dollar 2).compile costing = .ok w ∧
      w.text = "\x22sales\x22.\x22cost$2\x22 = $2" := by
  constructor <;> apply exists_of_toOption <;> rw [compile, clauses_costing] <;> decide +kernel

theorem compile_tagged :
    ∃ w, (shopCompiler .dollar 1).compile tagged = .ok w ∧ w.text =
      "\x22sales\x22.\x22tag\x22 IN ($2, $3) ORDER BY \x22sales\x22.\x22id\x22 ASC LIMIT $1" := by
  apply exists_of_toOption
  rw [compile, clauses_tagged]
  decide +kernel

/-- The marker of a cost is moved, and so is its name; those of tags are moved alone. -/
theorem start_moves_markers_costs :
    (∃ w w', (costs.inStyle .dollar 1).compile costing = .ok w ∧
      (costs.inStyle .dollar 2).compile costing = .ok w' ∧ w'.values = w.values ∧
      w.text = "\x22sales\x22.\x22cost$1\x22 = $1" ∧ w'.text = "\x22sales\x22.\x22cost$2\x22 = $2" ∧
      w'.text.toList ≠ movedOutside '\x22' 1 w.text.toList) ∧
    ∃ w w', (shopCompiler .dollar 1).compile tagged = .ok w ∧
      (shopCompiler .dollar 4).compile tagged = .ok w' ∧ w'.values = w.values ∧
      w'.text.toList = movedOutside '\x22' 3 w.text.toList := by
  constructor
  · obtain ⟨⟨w, hw, htext⟩, w', hw', htext'⟩ := compile_costing
    obtain ⟨hvalues, hiff⟩ := (start_moves_markers hw (by decide : (1 : Int) ≤ 2)).2 w' hw'
    refine ⟨w, w', hw, hw', hvalues, htext, htext', fun h => ?_⟩
    have hnames := (hiff.mp h).resolve_left (by decide) "cost$1".toList
    refine hnames ?_ ⟨1, 1, by decide⟩
    rw [htext]
    decide +kernel
  · obtain ⟨w, hw, htext⟩ := compile_tagged
    obtain ⟨w', hw', -⟩ := exists_compile_tagged .dollar (.inr rfl)
    have hplain : ∀ name ∈ quotedParts '\x22' w.text.toList, '$' ∉ name := by
      rw [htext]
      decide +kernel
    have hstart := @start_moves_markers (shopCompiler .dollar 1) tagged w hw 4 (by decide)
    obtain ⟨hvalues, hiff⟩ := hstart.2 w' hw'
    exact ⟨w, w', hw, hw', hvalues,
      hiff.mpr (.inr fun name hname => not_holdsNumber (hplain name hname))⟩

end ClauseCompiler

end SqlFragment
