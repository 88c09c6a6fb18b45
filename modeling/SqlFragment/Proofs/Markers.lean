import SqlFragment.Proofs.Clauses

/-!
Markers among the lexemes of a compiled text, and the numbers they have there.
-/
namespace SqlFragment

/-! ## Numbers -/

def readDigits? (cs : List Char) : Option Nat :=
  if !cs.isEmpty && cs.all Char.isDigit then some (Nat.ofDigitChars 10 cs 0) else none

def readNumber? : List Char → Option Int
  | '-' :: cs => (readDigits? cs).map fun n => -(n : Int)
  | cs => (readDigits? cs).map Int.ofNat

/-- The number of a marker; where markers have no numbers, nought. -/
def MarkerStyle.number? (style : MarkerStyle) (w : String) : Option Int :=
  match style with
  | .question => if w = "?" then some 0 else none
  | .percent => if w = "%s" then some 0 else none
  | .dollar =>
    match w.toList with
    | '$' :: cs => readNumber? cs
    | _ => none

theorem readDigits?_toDigits (n : Nat) : readDigits? (Nat.toDigits 10 n) = some n := by
  have hall : (Nat.toDigits 10 n).all Char.isDigit = true :=
    List.all_eq_true.mpr fun c hc => Nat.isDigit_of_mem_toDigits (by decide) (by decide) hc
  have hne : (Nat.toDigits 10 n).isEmpty = false := by simp
  rw [readDigits?, hall, hne, Nat.ofDigitChars_ten_toDigits]
  rfl

theorem toList_toString_int (i : Int) : (toString i).toList =
    if 0 ≤ i then Nat.toDigits 10 i.toNat else '-' :: Nat.toDigits 10 (-i).toNat := by
  cases i with
  | ofNat m =>
    rw [if_pos (show 0 ≤ Int.ofNat m from Int.natCast_nonneg m)]
    exact Nat.toList_repr
  | negSucc m =>
    rw [if_neg (by omega)]
    simp [toString, Int.repr]

theorem readNumber?_toString (i : Int) : readNumber? (toString i).toList = some i := by
  rw [toList_toString_int]
  split
  · have hdigit : '-' ∉ Nat.toDigits 10 i.toNat := fun h =>
      absurd (Nat.isDigit_of_mem_toDigits (by decide) (by decide) h) (by decide)
    unfold readNumber?
    split
    · rename_i cs hcs
      exact absurd (hcs ▸ List.mem_cons_self) hdigit
    · rw [readDigits?_toDigits]
      simp
      omega
  · rw [readNumber?, readDigits?_toDigits]
    simp
    omega

/-! ## Settled lexemes -/

/-- The marker that a number has in a compiled text. -/
def markAt (style : MarkerStyle) (start : Int) (n : Nat) : String :=
  match style with
  | .dollar => "$" ++ toString ((n : Int) + (start - 1))
  | .question | .percent => style.mark n

theorem number?_markAt (style : MarkerStyle) (start : Int) (n : Nat) :
    style.number? (markAt style start n) =
      some (if style = .dollar then (n : Int) + (start - 1) else 0) := by
  cases style with
  | dollar =>
    have hlist : (markAt .dollar start n).toList =
        '$' :: (toString ((n : Int) + (start - 1))).toList := by
      simp [markAt]
    simp only [MarkerStyle.number?, hlist, readNumber?_toString, if_true]
  | question => rfl
  | percent => rfl

/-- What settling makes of a lexeme. -/
def Lexeme.settled (style : MarkerStyle) (start : Int) (l : Lexeme) : Lexeme :=
  if style = .dollar ∧ start ≠ 1 then l.squeezed.moved (start - 1) else l.squeezed

/-- A name as it stands in a compiled text. -/
def settledName (d : Dialect) (style : MarkerStyle) (start : Int) (s : String) : Lexeme :=
  (Lexeme.name (String.ofList ((d.quoting style).shown s.toList))).settled style start

/-- The lexemes of a segment in a compiled text. -/
def Segment.settled (d : Dialect) (style : MarkerStyle) (start : Int) : Segment → List Lexeme
  | .word s => lex d.mark s.toList
  | .name s => [settledName d style start s]
  | .marker n _ => [.word (markAt style start n)]

theorem digitValue?_digitChar : ∀ k < 10, Text.digitValue? (Nat.digitChar k) = some k := by
  decide

theorem tokensFrom_number {cs : List Char} (h : ∀ c ∈ cs, ∃ k < 10, c = Nat.digitChar k)
    (n digits : Nat) (rest : List Char) : tokensFrom (.number n digits) (cs ++ rest) =
      tokensFrom (.number (Nat.ofDigitChars 10 cs n) (digits + cs.length)) rest := by
  induction cs generalizing n digits with
  | nil => rfl
  | cons c cs ih =>
    obtain ⟨⟨k, hk, rfl⟩, hcs⟩ := List.forall_mem_cons.mp h
    have hstep : tokensFrom (.number n digits) (Nat.digitChar k :: (cs ++ rest)) =
        tokensFrom (.number (10 * n + k) (digits + 1)) (cs ++ rest) := by
      simp [tokensFrom, digitValue?_digitChar k hk]
    rw [List.cons_append, hstep, ih hcs, Nat.ofDigitChars_cons_digitChar_of_lt_ten hk,
      List.length_cons, Nat.add_right_comm, Nat.add_assoc]

theorem tokensFrom_dollar (n : Nat) (rest : List Char) :
    tokensFrom .dollar (Nat.toDigits 10 n ++ rest) =
      tokensFrom (.number n (Nat.toDigits 10 n).length) rest := by
  have hdigits : ∀ c ∈ Nat.toDigits 10 n, ∃ k < 10, c = Nat.digitChar k := fun c hc =>
    exists_of_mem_toDigits (by decide) hc
  have hvalue := Nat.ofDigitChars_ten_toDigits (n := n)
  have hne : Nat.toDigits 10 n ≠ [] := Nat.toDigits_ne_nil
  cases hcs : Nat.toDigits 10 n with
  | nil => exact absurd hcs hne
  | cons c cs =>
    rw [hcs] at hdigits hvalue
    obtain ⟨⟨k, hk, rfl⟩, htail⟩ := List.forall_mem_cons.mp hdigits
    have hstep : tokensFrom .dollar (Nat.digitChar k :: (cs ++ rest)) =
        tokensFrom (.number k 1) (cs ++ rest) := by
      simp [tokensFrom, digitValue?_digitChar k hk]
    rw [List.cons_append, hstep, tokensFrom_number htail]
    rw [Nat.ofDigitChars_cons_digitChar_of_lt_ten hk] at hvalue
    simp_all [Nat.add_comm]

theorem movedChars_mark (k : Int) (n : Nat) :
    movedChars k (MarkerStyle.dollar.mark n).toList = '$' :: (toString ((n : Int) + k)).toList := by
  rw [toList_mark_dollar, movedChars]
  have htokens : tokensFrom .other ('$' :: Nat.toDigits 10 n) =
      .char '$' :: tokensFrom .dollar (Nat.toDigits 10 n ++ []) := by
    simp [tokensFrom, Reading.tokens]
  rw [htokens, tokensFrom_dollar]
  simp [tokensFrom, Reading.tokens, Token.moved]

theorem movedChars_eq_self {cs : List Char} (k : Int) (h : '$' ∉ cs) : movedChars k cs = cs := by
  induction cs with
  | nil => rfl
  | cons c cs ih =>
    rw [List.mem_cons, not_or] at h
    have hc : readingAfter c = .other := if_neg (Ne.symm h.1)
    have htail := (moves_singleton (k := k) c) cs
    rw [hc] at htail
    exact htail.trans (congrArg (c :: ·) (ih h.2))

/-- Punctuation, or a word of characters that have a property. -/
def Lexeme.IsBare (q : Char → Prop) (l : Lexeme) : Prop :=
  (∃ w, l = .word (String.ofList w) ∧ ∀ c ∈ w, q c) ∨ ∃ c, l = .symbol c

/-- Whether reading is between lexemes, or in a word of characters that have a property. -/
def Place.IsBare (q : Char → Prop) (p : Place) : Prop :=
  p = .between ∨ ∃ b, p = .word b ∧ ∀ c ∈ b, q c

section Bare

variable {mark : Char} {q : Char → Prop} {p : Place} {c : Char}

theorem isBare_start (hmark : c ≠ mark) (hc : q c) :
    (Place.start mark c).2.IsBare q ∧ ∀ l ∈ (Place.start mark c).1, l.IsBare q := by
  unfold Place.start
  rw [if_neg hmark]
  split
  · exact ⟨.inl rfl, List.forall_mem_nil _⟩
  · split
    · exact ⟨.inl rfl, List.forall_mem_singleton.mpr (.inr ⟨c, rfl⟩)⟩
    · exact ⟨.inr ⟨[c], rfl, List.forall_mem_singleton.mpr hc⟩, List.forall_mem_nil _⟩

theorem Place.IsBare.step (hp : p.IsBare q) (hmark : c ≠ mark) (hc : q c) :
    (p.step mark c).2.IsBare q ∧ ∀ l ∈ (p.step mark c).1, l.IsBare q := by
  obtain ⟨hplace, hlexemes⟩ := isBare_start hmark hc
  rcases hp with rfl | ⟨b, rfl, hb⟩
  · exact ⟨hplace, hlexemes⟩
  · simp only [Place.step]
    split
    · exact ⟨hplace, List.forall_mem_cons.mpr ⟨.inl ⟨b, rfl, hb⟩, hlexemes⟩⟩
    · have hword := List.forall_mem_append.mpr ⟨hb, List.forall_mem_singleton.mpr hc⟩
      exact ⟨.inr ⟨b ++ [c], rfl, hword⟩, List.forall_mem_nil _⟩

/-- Where no mark stands, there are no names, and words have the characters of the text. -/
theorem mem_lexFrom {cs : List Char} (hp : p.IsBare q) (h : ∀ c ∈ cs, c ≠ mark ∧ q c) {l : Lexeme}
    (hl : l ∈ lexFrom mark p cs) : l.IsBare q := by
  induction cs generalizing p with
  | nil =>
    rcases hp with rfl | ⟨b, rfl, hb⟩
    · contradiction
    · exact .inl ⟨b, List.mem_singleton.mp hl, hb⟩
  | cons c cs ih =>
    obtain ⟨⟨hmark, hc⟩, hcs⟩ := List.forall_mem_cons.mp h
    obtain ⟨hplace, hlexemes⟩ := hp.step hmark hc
    rw [lexFrom] at hl
    rcases List.mem_append.mp hl with hl | hl
    · exact hlexemes l hl
    · exact ih hplace hcs hl

end Bare

theorem settled_symbol (style : MarkerStyle) (start : Int) (c : Char) :
    (Lexeme.symbol c).settled style start = .symbol c := by
  unfold Lexeme.settled
  split <;> rfl

/-- Words without dollar signs are settled. -/
theorem settled_word (style : MarkerStyle) (start : Int) {w : String} (h : '$' ∉ w.toList) :
    (Lexeme.word w).settled style start = .word w := by
  unfold Lexeme.settled
  split
  · simp [Lexeme.squeezed, Lexeme.moved, movedChars_eq_self _ h]
  · rfl

theorem settled_mark (style : MarkerStyle) (start : Int) (n : Nat) :
    (Lexeme.word (style.mark n)).settled style start = .word (markAt style start n) := by
  unfold Lexeme.settled
  cases style with
  | dollar =>
    simp only [true_and, ne_eq, Lexeme.squeezed, Lexeme.moved, movedChars_mark, markAt]
    split
    · refine congrArg Lexeme.word (String.toList_inj.mp ?_)
      simp
    · rename_i hstart
      obtain rfl : start = 1 := by simpa using hstart
      simp only [MarkerStyle.mark, Int.sub_self, Int.add_zero]
      rfl
  | question => rfl
  | percent => rfl

theorem map_settled_lexemes {d : Dialect} {style : MarkerStyle} {start : Int} {s : Segment}
    (h : s.IsOrdinary) :
    (s.lexemes d style).map (Lexeme.settled style start) = s.settled d style start := by
  cases s with
  | word w =>
    have hplain : ∀ c ∈ w.toList, c ≠ d.mark ∧ c ≠ '$' := by
      intro c hc
      refine ⟨?_, ?_⟩
      · rintro rfl
        exact mark_notMem_keyword d h hc
      · rintro rfl
        exact h _ hc (by decide)
    refine (List.map_congr_left fun l hl => ?_).trans (List.map_id _)
    rcases mem_lexFrom (.inl rfl) hplain hl with ⟨w, rfl, hw⟩ | ⟨c, rfl⟩
    · exact settled_word style start fun hd => hw '$' (by simpa using hd) rfl
    · exact settled_symbol style start c
  | name w => rfl
  | marker n v => exact congrArg (fun l => [l]) (settled_mark style start n)

/-! ## Markers -/

/-- The number of a lexeme that is a marker. -/
def Lexeme.marker? (style : MarkerStyle) : Lexeme → Option Int
  | .word w => style.number? w
  | .name _ | .symbol _ => none

/-- The number that a marker has in a compiled text. -/
def numberAt (style : MarkerStyle) (start : Int) (n : Nat) : Int :=
  if style = .dollar then (n : Int) + (start - 1) else 0

theorem marker?_markAt (style : MarkerStyle) (start : Int) (n : Nat) :
    (Lexeme.word (markAt style start n)).marker? style = some (numberAt style start n) :=
  number?_markAt style start n

theorem exists_settledName (d : Dialect) (style : MarkerStyle) (start : Int) (s : String) :
    ∃ t, settledName d style start s = .name t := by
  unfold settledName Lexeme.settled
  split <;> exact ⟨_, rfl⟩

theorem marker?_settledName (d : Dialect) (style : MarkerStyle) (start : Int) (s : String) :
    (settledName d style start s).marker? style = none := by
  obtain ⟨t, ht⟩ := exists_settledName d style start s
  rw [ht]
  rfl

/-- What starts a marker is in no keyword. -/
theorem marker?_keyword {d : Dialect} {style : MarkerStyle} {s : String} (h : IsKeyword s)
    {l : Lexeme} (hl : l ∈ lex d.mark s.toList) : l.marker? style = none := by
  have hplain : ∀ c ∈ s.toList, c ≠ d.mark ∧ c ∉ ['?', '%', '$'] := by
    intro c hc
    refine ⟨?_, fun hm => h c hc ?_⟩
    · rintro rfl
      exact mark_notMem_keyword d h hc
    · simp only [List.mem_cons] at hm ⊢
      tauto
  rcases mem_lexFrom (.inl rfl) hplain hl with ⟨w, rfl, hw⟩ | ⟨c, rfl⟩
  · cases style with
    | question =>
      refine if_neg fun hq => ?_
      have := congrArg String.toList hq
      rw [String.toList_ofList] at this
      exact hw '?' (by rw [this]; decide) (by decide)
    | percent =>
      refine if_neg fun hq => ?_
      have := congrArg String.toList hq
      rw [String.toList_ofList] at this
      exact hw '%' (by rw [this]; decide) (by decide)
    | dollar =>
      simp only [Lexeme.marker?, MarkerStyle.number?, String.toList_ofList]
      split
      · exact absurd (by decide) (hw '$' List.mem_cons_self)
      · rfl
  · rfl

namespace ClauseCompiler

variable {c : ClauseCompiler} {k : Criteria}

/-- The lexemes of a compiled text. -/
def lexemes (c : ClauseCompiler) (text : String) : List Lexeme := lex c.dialect.mark text.toList

/-- The lexemes of pieces where they are compiled. -/
def settledPieces (c : ClauseCompiler) (ps : List Piece) : List Lexeme :=
  (segmentsOf c.dialect ps).flatMap (Segment.settled c.dialect c.style c.start)

theorem toList_restyled {s text : String} (h : c.restyled s = .ok text) :
    text.toList = if c.style = .dollar ∧ c.start ≠ 1 then movedChars (c.start - 1) s.toList
      else s.toList := by
  unfold restyled renumber at h
  by_cases hstyle : c.style = .dollar
  · by_cases hstart : c.start = 1
    · rw [if_pos hstyle, if_pos hstart] at h
      obtain rfl := Except.ok.inj h
      simp [hstart]
    · rw [if_pos hstyle, if_neg hstart] at h
      rw [if_pos ⟨hstyle, hstart⟩]
      split at h
      · obtain rfl := Except.ok.inj h
        exact String.toList_ofList
      · contradiction
  · rw [if_neg hstyle] at h
    obtain rfl := Except.ok.inj h
    simp [hstyle]

theorem lexemes_restyled {s text : String} (h : c.restyled s = .ok text) :
    c.lexemes text = (lex c.dialect.mark s.toList).map fun l =>
      if c.style = .dollar ∧ c.start ≠ 1 then l.moved (c.start - 1) else l := by
  rw [lexemes, toList_restyled h]
  split
  · exact lex_moved s.toList
  · exact (List.map_id _).symm

theorem paired_restyled {s text : String} (h : c.restyled s = .ok text)
    (hs : Paired c.dialect.mark s.toList) : Paired c.dialect.mark text.toList := by
  rw [toList_restyled h]
  split
  · exact paired_moved hs
  · exact hs

theorem isBlank_getLast_restyled {s text : String} (h : c.restyled s = .ok text)
    (hs : ∀ b ∈ s.toList.getLast?, Text.isBlank b = false) :
    ∀ b ∈ text.toList.getLast?, Text.isBlank b = false := by
  rw [toList_restyled h]
  split
  · cases hlast : s.toList.getLast? with
    | none =>
      rw [List.getLast?_eq_none_iff.mp hlast]
      exact nofun
    | some a =>
      obtain ⟨b, hb, hblank⟩ := exists_getLast_moved (k := c.start - 1) .other ⟨a, hlast, hs a hlast⟩
      intro b' hb'
      obtain rfl := Option.some.inj (hb.symm.trans hb')
      exact hblank
  · exact hs

theorem isOrdinary_segments {d : Dialect} {ps : List Piece} (h : Tidy d ps) :
    ∀ s ∈ segmentsOf d ps, s.IsOrdinary :=
  (h.segments _ _).words

/-- What is known of the text and the values of criteria with a predicate and clauses behind it. -/
structure Compiled (c : ClauseCompiler) (k : Criteria) (w : Written) (p? : Option Predicate)
    (tail : List Piece) : Prop where
  parts : c.parts k = .ok (p?, tail)
  spellable : Spellable c.dialect (body c.dialect p? tail)
  values : w.values = valuesOf c.style (body c.dialect p? tail)
  lexemes : c.lexemes w.text = c.settledPieces (body c.dialect p? tail)
  paired : Paired c.dialect.mark w.text.toList
  notBlank : ∀ b ∈ w.text.toList.getLast?, Text.isBlank b = false

/-- Whether `P` holds of every list in a statement for criteria. -/
def EachList (c : ClauseCompiler) (k : Criteria) (P : List Value → Prop) : Prop :=
  ∀ r, c.clauses k = .ok r → ∀ vs ∈ r.2.filterMap Piece.members?, P vs

theorem eachList_iff {P : List Value → Prop} {p? : Option Predicate} {tail : List Piece}
    (hparts : c.parts k = .ok (p?, tail)) :
    c.EachList k P ↔ ∀ vs ∈ (body c.dialect p? tail).filterMap Piece.members?, P vs := by
  have hlists : (c.filterPieces p? ++ tail).filterMap Piece.members? =
      (body c.dialect p? tail).filterMap Piece.members? := by
    cases p? <;> rfl
  unfold EachList
  rw [clauses_eq, hparts]
  constructor
  · intro h vs hvs
    exact h _ rfl vs (hlists ▸ hvs)
  · rintro h _ ⟨⟩ vs hvs
    exact h vs (hlists ▸ hvs)

/-- What is compiled is read off its pieces. -/
theorem exists_compiled (hlegible : c.IsLegible k) {w : Written} (hw : c.compile k = .ok w) :
    ∃ p? tail, Compiled c k w p? tail := by
  obtain ⟨p?, tail, hparts, hspell, htext, hvalues⟩ := (compile_eq_ok hlegible).mp hw
  have htidy := tidy_body hparts
  have hwords := isOrdinary_segments htidy
  refine ⟨p?, tail, hparts, hspell, hvalues, ?_, ?_, ?_⟩
  · rw [lexemes_restyled htext, line, String.toList_ofList, lex_collapse c.dialect.isBreak_mark,
      lex_segments c.dialect c.style hwords (htidy.segments _ _).apart, settledPieces, List.map_map,
      List.map_flatMap]
    refine List.flatMap_congr fun s hs => ?_
    rw [← map_settled_lexemes (hwords s hs)]
    refine List.map_congr_left fun l _ => ?_
    unfold Lexeme.settled
    rfl
  · refine paired_restyled htext ?_
    rw [line, String.toList_ofList]
    refine paired_collapse c.dialect.isBreak_mark (.flatMap fun s hs => ?_)
    exact s.paired_chars c.dialect c.style (hwords s hs)
  · refine isBlank_getLast_restyled htext ?_
    rw [line, String.toList_ofList]
    exact isBlank_getLast_collapse

end ClauseCompiler

end SqlFragment
