import SqlFragment.Proofs.Lexing

/-!
What is left of the lexemes of a statement when its text is put on one line and its markers are
renumbered.
-/
namespace SqlFragment

/-! ## One line -/

/-- Characters with one more, of which a run of white space keeps one space. -/
def squeezeStep (out : List Char) (c : Char) : List Char :=
  if Text.isBlank c then if out.getLast? = some ' ' then out else out ++ [' '] else out ++ [c]

/-- Characters with every run of white space as one space. -/
def squeezeChars (cs : List Char) : List Char := cs.foldl squeezeStep []

theorem squeezeChars_snoc (cs : List Char) (c : Char) :
    squeezeChars (cs ++ [c]) = squeezeStep (squeezeChars cs) c := by
  simp [squeezeChars]

/-- A lexeme of a text that is put on one line. -/
def Lexeme.squeezed : Lexeme → Lexeme
  | .name s => .name (String.ofList (squeezeChars s.toList))
  | l => l

/-- Where reading is in a text on one line and in the text before; `gap` tells of white space that
the line has not had yet. -/
inductive Follows : (gap : Bool) → Place → Place → Prop
  | between : Follows false .between .between
  | word (b : List Char) : Follows false (.word b) (.word b)
  | closing (b : List Char) : Follows false (.closing (squeezeChars b)) (.closing b)
  | quoted (b : List Char) (h : (squeezeChars b).getLast? ≠ some ' ') :
    Follows false (.quoted (squeezeChars b)) (.quoted b)
  | gap {p : Place} (h : p.isOpen = false) : Follows true p .between
  | quotedGap {b b' : List Char} (h : squeezeChars b = b' ++ [' ']) :
    Follows true (.quoted b') (.quoted b)

section Collapsing

variable {mark c : Char}

theorem ne_space (h : Text.isBlank c = false) : c ≠ ' ' := by
  rintro rfl
  exact absurd h (by decide)

theorem follows_start : Follows false (Place.start mark c).2 (Place.start mark c).2 := by
  unfold Place.start
  split
  · exact .quoted [] (by simp [squeezeChars])
  · split
    · exact .between
    · split
      · exact .between
      · exact .word [c]

theorem map_squeezed_start :
    (Place.start mark c).1.map Lexeme.squeezed = (Place.start mark c).1 := by
  unfold Place.start
  split
  · rfl
  · split
    · rfl
    · split <;> rfl

theorem squeezeChars_snoc_other (hc : Text.isBlank c = false) (b : List Char) :
    squeezeChars (b ++ [c]) = squeezeChars b ++ [c] := by
  rw [squeezeChars_snoc, squeezeStep, if_neg (by simp [hc])]

theorem follows_quoted_snoc (hc : Text.isBlank c = false) (b : List Char) :
    Follows false (.quoted (squeezeChars b ++ [c])) (.quoted (b ++ [c])) := by
  rw [← squeezeChars_snoc_other hc]
  refine .quoted _ ?_
  rw [squeezeChars_snoc_other hc, List.getLast?_concat]
  simpa using ne_space hc

theorem follows_step_quoted (hc : Text.isBlank c = false) (b : List Char) :
    Follows false ((Place.quoted (squeezeChars b)).step mark c).2 ((Place.quoted b).step mark c).2 ∧
      ((Place.quoted (squeezeChars b)).step mark c).1 =
        ((Place.quoted b).step mark c).1.map Lexeme.squeezed := by
  simp only [Place.step]
  split
  · exact ⟨.closing b, rfl⟩
  · exact ⟨follows_quoted_snoc hc b, rfl⟩

/-- A character that is no white space is read alike. -/
theorem follows_step (hc : Text.isBlank c = false) {p p' : Place} (h : Follows false p' p) :
    Follows false (p'.step mark c).2 (p.step mark c).2 ∧
      (p'.step mark c).1 = (p.step mark c).1.map Lexeme.squeezed := by
  cases h with
  | between => exact ⟨follows_start, map_squeezed_start.symm⟩
  | word b =>
    simp only [Place.step]
    split
    · exact ⟨follows_start, by simp [map_squeezed_start, Lexeme.squeezed]⟩
    · exact ⟨.word _, rfl⟩
  | closing b =>
    simp only [Place.step]
    split
    · exact ⟨follows_quoted_snoc hc b, rfl⟩
    · exact ⟨follows_start, by simp [map_squeezed_start, Lexeme.squeezed]⟩
  | quoted b => exact follows_step_quoted hc b

/-- The line has white space only when it goes on, and so it does what ends there. -/
theorem follows_step_blank (hne : c ≠ mark) (hc : Text.isBlank c = true) {gap : Bool}
    {p p' : Place} (h : Follows gap p' p) :
    Follows true p' (p.step mark c).2 ∧
      (if gap then p'.ended else []) ++ (p.step mark c).1.map Lexeme.squeezed = p'.ended := by
  have hquoted (b : List Char) : (Place.quoted b).step mark c = ([], .quoted (b ++ [c])) := by
    simp [Place.step, hne]
  cases h with
  | between | word b | closing b =>
    rw [step_of_isBlank rfl hne hc]
    exact ⟨.gap rfl, by simp [Place.ended, Lexeme.squeezed]⟩
  | quoted b hb =>
    rw [hquoted]
    refine ⟨.quotedGap ?_, rfl⟩
    rw [squeezeChars_snoc, squeezeStep, if_pos hc, if_neg hb]
  | gap hp =>
    rw [step_of_isBlank rfl hne hc]
    exact ⟨.gap hp, List.append_nil _⟩
  | quotedGap hb =>
    rw [hquoted]
    refine ⟨.quotedGap ?_, rfl⟩
    rw [squeezeChars_snoc, squeezeStep, if_pos hc, hb, if_pos List.getLast?_concat]

/-- Before the next character the line has its space. -/
theorem follows_step_gap (hmark : isBreak mark = false) (hc : Text.isBlank c = false)
    {p p' : Place} (h : Follows true p' p) :
    ∃ q, p'.step mark ' ' = (p'.ended, q) ∧ Follows false (q.step mark c).2 (p.step mark c).2 ∧
      (q.step mark c).1 = (p.step mark c).1.map Lexeme.squeezed := by
  have hspace : ' ' ≠ mark := ne_mark_of_isBreak hmark (by decide)
  cases h with
  | gap hp => exact ⟨.between, step_of_isBlank hp hspace (by decide), follows_step hc .between⟩
  | @quotedGap b b' hb =>
    refine ⟨.quoted (squeezeChars b), ?_, follows_step_quoted hc b⟩
    simp [Place.step, hspace, hb, Place.ended]

theorem lexFrom_collapse (hmark : isBreak mark = false) {gap : Bool} {p p' : Place}
    (h : Follows gap p' p) (cs : List Char) :
    lexFrom mark p' (Text.collapseFrom gap cs) =
      (if gap then p'.ended else []) ++ (lexFrom mark p cs).map Lexeme.squeezed := by
  induction cs generalizing gap p p' with
  | nil =>
    cases h <;> simp [Text.collapseFrom, lexFrom, Place.ended, Lexeme.squeezed]
  | cons c cs ih =>
    rw [Text.collapseFrom, lexFrom.eq_2 mark p, List.map_append]
    by_cases hc : Text.isBlank c = true
    · -- what ends at white space is owed until the line has its space
      obtain ⟨hfollows, hended⟩ :=
        follows_step_blank (ne_mark_of_isBreak hmark (isBreak_of_isBlank hc)) hc h
      rw [if_pos hc, ih hfollows, if_pos rfl, ← List.append_assoc, hended]
    · have hblank : Text.isBlank c = false := by simpa using hc
      rw [if_neg hc]
      cases gap with
      | false =>
        obtain ⟨hfollows, hlexemes⟩ := @follows_step mark c hblank _ _ h
        rw [if_neg (by simp), lexFrom, ih hfollows, hlexemes]
        rfl
      | true =>
        obtain ⟨q, hspace, hfollows, hlexemes⟩ := follows_step_gap hmark hblank h
        rw [if_pos rfl, lexFrom, hspace, lexFrom, ih hfollows, hlexemes]
        rfl

/-- A text on one line has the same lexemes. -/
theorem lex_collapse (hmark : isBreak mark = false) (cs : List Char) :
    lex mark (Text.collapseChars cs) = (lex mark cs).map Lexeme.squeezed := by
  have hdrop : lex mark (cs.dropWhile Text.isBlank) = lex mark cs := by
    induction cs with
    | nil => rfl
    | cons c cs ih =>
      rw [List.dropWhile_cons]
      split
      · rename_i hc
        rw [ih, lex, lex, step_blank (ne_mark_of_isBreak hmark (isBreak_of_isBlank hc)) hc]
      · rfl
  rw [← hdrop, lex, Text.collapseChars, lexFrom_collapse hmark .between]
  rfl

theorem count_collapseFrom (hmark : isBreak mark = false) (gap : Bool) (cs : List Char) :
    (Text.collapseFrom gap cs).count mark = cs.count mark := by
  have hspace : ' ' ≠ mark := ne_mark_of_isBreak hmark (by decide)
  induction cs generalizing gap with
  | nil => rfl
  | cons c cs ih =>
    rw [Text.collapseFrom]
    split
    · rename_i hc
      rw [ih, List.count_cons_of_ne (ne_mark_of_isBreak hmark (isBreak_of_isBlank hc))]
    · split
      · rw [List.count_cons_of_ne hspace, List.count_cons, List.count_cons, ih]
      · rw [List.count_cons, List.count_cons, ih]

theorem paired_collapse (hmark : isBreak mark = false) {cs : List Char} (h : Paired mark cs) :
    Paired mark (Text.collapseChars cs) := by
  have hdrop : (cs.dropWhile Text.isBlank).count mark = cs.count mark := by
    clear h
    induction cs with
    | nil => rfl
    | cons c cs ih =>
      rw [List.dropWhile_cons]
      split
      · rename_i hc
        rw [ih, List.count_cons_of_ne (ne_mark_of_isBreak hmark (isBreak_of_isBlank hc))]
      · rfl
  rw [Paired, Text.collapseChars, count_collapseFrom hmark, hdrop]
  exact h

/-- No line ends in white space. -/
theorem isBlank_getLast_collapse {cs : List Char} :
    ∀ b ∈ (Text.collapseChars cs).getLast?, Text.isBlank b = false := by
  have hfrom (gap : Bool) (cs : List Char) :
      ∀ b ∈ (Text.collapseFrom gap cs).getLast?, Text.isBlank b = false := by
    induction cs generalizing gap with
    | nil => exact nofun
    | cons c cs ih =>
      have hcons (hc : Text.isBlank c = false) :
          ∀ b ∈ (c :: Text.collapseFrom false cs).getLast?, Text.isBlank b = false := by
        intro b hb
        rw [List.getLast?_cons, Option.mem_some_iff] at hb
        cases hlast : (Text.collapseFrom false cs).getLast? with
        | none =>
          obtain rfl : c = b := by simpa [hlast] using hb
          exact hc
        | some a =>
          obtain rfl : a = b := by simpa [hlast] using hb
          exact ih false a hlast
      rw [Text.collapseFrom]
      split
      · exact ih true
      · rename_i hc
        have hc : Text.isBlank c = false := by simpa using hc
        split
        · rw [List.getLast?_cons_cons]
          exact hcons hc
        · exact hcons hc
  exact hfrom false _

end Collapsing

/-! ## Renumbering -/

/-- Characters with the numbers behind dollar signs moved. -/
def movedChars (k : Int) (cs : List Char) : List Char :=
  (tokensFrom .other cs).flatMap (Token.moved k)

/-- A lexeme of a text whose numbers are moved. -/
def Lexeme.moved (k : Int) : Lexeme → Lexeme
  | .word s => .word (String.ofList (movedChars k s.toList))
  | .name s => .name (String.ofList (movedChars k s.toList))
  | .symbol c => .symbol c

/-- After some characters a number is being read, and what is written for them so far. -/
def Moves (k : Int) (b : List Char) (r : Reading) (b' : List Char) : Prop :=
  ∀ cs, movedChars k (b ++ cs) = b' ++ (tokensFrom r cs).flatMap (Token.moved k)

theorem Moves.movedChars_eq {k : Int} {b b' : List Char} {r : Reading} (h : Moves k b r b') :
    movedChars k b = b' ++ r.tokens.flatMap (Token.moved k) := by
  simpa [tokensFrom] using h []

/-- What is being read behind a character that is no digit of a number. -/
def readingAfter (c : Char) : Reading := if c = '$' then .dollar else .other

/-- Either a character is a digit of the number behind a dollar sign, or it ends the number. -/
theorem tokensFrom_cons (r : Reading) (c : Char) :
    (r ≠ .other ∧ (Text.digitValue? c).isSome ∧
      ∃ n digits, ∀ cs, tokensFrom r (c :: cs) = tokensFrom (.number n digits) cs) ∨
    ∀ cs, tokensFrom r (c :: cs) = r.tokens ++ .char c :: tokensFrom (readingAfter c) cs := by
  cases r with
  | other => exact .inr fun cs => by simp [tokensFrom, readingAfter]
  | dollar =>
    cases hd : Text.digitValue? c with
    | none => exact .inr fun cs => by simp [tokensFrom, readingAfter, hd]
    | some d => exact .inl ⟨nofun, rfl, d, 1, fun cs => by simp [tokensFrom, hd]⟩
  | number n digits =>
    cases hd : Text.digitValue? c with
    | none => exact .inr fun cs => by simp [tokensFrom, readingAfter, hd]
    | some d =>
      exact .inl ⟨nofun, rfl, 10 * n + d, digits + 1, fun cs => by simp [tokensFrom, hd]⟩

/-- Where reading is in a text with moved numbers and in the text before. -/
inductive Keeps (mark : Char) (k : Int) : Reading → Place → Place → Prop
  | between : Keeps mark k .other .between .between
  | word {r : Reading} {b b' : List Char} (h : Moves k b r b') : Keeps mark k r (.word b') (.word b)
  | quoted {r : Reading} {b b' : List Char} (h : Moves k b r b') :
    Keeps mark k r (.quoted b') (.quoted b)
  | closing {b : List Char} (h : Moves k (b ++ [mark]) .other (movedChars k b ++ [mark])) :
    Keeps mark k .other (.closing (movedChars k b)) (.closing b)

/-- A place in a text whose numbers are moved. -/
def Place.moved (k : Int) : Place → Place
  | .between => .between
  | .word b => .word (movedChars k b)
  | .quoted b => .quoted (movedChars k b)
  | .closing b => .closing (movedChars k b)

section Moving

variable {k : Int}

theorem ended_moved (p : Place) : (p.moved k).ended = p.ended.map (Lexeme.moved k) := by
  cases p with
  | between | quoted b => rfl
  | word b | closing b => simp [Place.moved, Place.ended, Lexeme.moved]

theorem moves_singleton (c : Char) : Moves k [c] (readingAfter c) [c] := by
  intro cs
  simp [movedChars, tokensFrom, readingAfter, Reading.tokens, Token.moved]

theorem Moves.digit {b b' : List Char} {r r' : Reading} {c : Char} (h : Moves k b r b')
    (hr : ∀ cs, tokensFrom r (c :: cs) = tokensFrom r' cs) : Moves k (b ++ [c]) r' b' := by
  intro cs
  rw [List.append_assoc, List.singleton_append, h, hr]

theorem Moves.other {b b' : List Char} {r : Reading} {c : Char} (h : Moves k b r b')
    (hr : ∀ cs, tokensFrom r (c :: cs) = r.tokens ++ .char c :: tokensFrom (readingAfter c) cs) :
    Moves k (b ++ [c]) (readingAfter c) (movedChars k b ++ [c]) := by
  intro cs
  rw [List.append_assoc, List.singleton_append, h, hr, h.movedChars_eq]
  simp [Token.moved]

variable {d : Dialect}

theorem mem_of_isBlank {c : Char} (h : Text.isBlank c = true) :
    c.toNat ∈ [9, 10, 11, 12, 13, 28, 29, 30, 31, 32, 0x85, 0xa0, 0x1680, 0x2000, 0x2001, 0x2002,
      0x2003, 0x2004, 0x2005, 0x2006, 0x2007, 0x2008, 0x2009, 0x200a, 0x2028, 0x2029, 0x202f,
      0x205f, 0x3000] := by
  simp only [Text.isBlank, Bool.or_eq_true, Bool.and_eq_true, decide_eq_true_eq, beq_iff_eq] at h
  simp only [List.mem_cons, List.not_mem_nil, or_false]
  omega

theorem digitValue?_eq_none {c : Char} (h : isBreak c = true ∨ c = '\x22' ∨ c = '\x60') :
    Text.digitValue? c = none := by
  have hblank : ∀ n ∈ [9, 10, 11, 12, 13, 28, 29, 30, 31, 32, 0x85, 0xa0, 0x1680, 0x2000, 0x2001,
      0x2002, 0x2003, 0x2004, 0x2005, 0x2006, 0x2007, 0x2008, 0x2009, 0x200a, 0x2028, 0x2029,
      0x202f, 0x205f, 0x3000],
      (Text.decimalRanges.find? fun r => r.1 ≤ n && n ≤ r.2) = none := by decide
  rcases h with h | rfl | rfl
  · rcases Bool.or_eq_true _ _ ▸ h with h | h
    · rw [Text.digitValue?, hblank _ (mem_of_isBlank h)]
      rfl
    · simp only [isPunctuation, Bool.or_eq_true, decide_eq_true_eq] at h
      rcases h with ((rfl | rfl) | rfl) | rfl <;> decide
  · decide
  · decide

/-- Digits of any script are read as parts of words and names. -/
theorem plain_digit {c : Char} (h : (Text.digitValue? c).isSome) :
    c ≠ d.mark ∧ isBreak c = false := by
  constructor
  · rintro rfl
    rw [digitValue?_eq_none (.inr d.mark_eq)] at h
    contradiction
  · by_contra hb
    rw [digitValue?_eq_none (.inl (by simpa using hb))] at h
    contradiction

/-- A moved number is written with digits, and with a sign if it is negative. -/
theorem mem_moved (r : Reading) :
    ∀ x ∈ r.tokens.flatMap (Token.moved k), x = '-' ∨ ∃ j < 10, x = Nat.digitChar j := by
  intro x hx
  cases r with
  | other | dollar => contradiction
  | number n digits =>
    rw [Reading.tokens, List.flatMap_singleton, Token.moved] at hx
    have hdigit {m : Nat} (hm : x ∈ (toString m).toList) : ∃ j < 10, x = Nat.digitChar j :=
      @exists_of_mem_toDigits 10 m (by decide) x (by simpa using hm)
    generalize (n : Int) + k = i at hx
    cases i with
    | ofNat m => exact .inr (hdigit hx)
    | negSucc m =>
      have hneg : (toString (Int.negSucc m)).toList = '-' :: (toString (m + 1)).toList := by
        simp [toString, Int.repr]
      rcases List.mem_cons.mp (hneg ▸ hx) with rfl | hx
      · exact .inl rfl
      · exact .inr (hdigit hx)

theorem plain_moved (r : Reading) :
    ∀ x ∈ r.tokens.flatMap (Token.moved k), x ≠ d.mark ∧ isBreak x = false := by
  intro x hx
  rcases mem_moved r x hx with rfl | ⟨j, hj, rfl⟩
  · cases d <;> decide
  · exact plain_digitChar d j hj

/-- Where no number is read, what ends a lexeme is written as it is. -/
theorem keeps_start {c : Char} : Keeps d.mark k (readingAfter c) (Place.start d.mark c).2
    (Place.start d.mark c).2 := by
  have hother (h : c ≠ '$') : readingAfter c = .other := if_neg h
  unfold Place.start
  split
  · rename_i hc
    rw [hother (by rintro rfl; cases d <;> exact absurd hc (by decide))]
    exact .quoted fun cs => rfl
  · split
    · rename_i hc
      rw [hother (by rintro rfl; exact absurd hc (by decide))]
      exact .between
    · split
      · rename_i hc
        rw [hother (by rintro rfl; exact absurd hc (by decide))]
        exact .between
      · exact .word (moves_singleton c)

theorem map_moved_start (c : Char) :
    (Place.start d.mark c).1.map (Lexeme.moved k) = (Place.start d.mark c).1 := by
  unfold Place.start
  split
  · rfl
  · split
    · rfl
    · split <;> rfl

theorem readingAfter_mark (d : Dialect) : readingAfter d.mark = .other := by
  cases d <;> rfl

/-- The number that is being read is written as a part of the word or name that it stands in. -/
theorem Keeps.reads {r : Reading} {p p' : Place} (h : Keeps d.mark k r p' p) :
    Reads d.mark p' (r.tokens.flatMap (Token.moved k)) [] (p.moved k) := by
  have hplain := plain_moved (k := k) (d := d) r
  cases h with
  | between | closing h => exact fun ys => rfl
  | word h =>
    rw [Place.moved, h.movedChars_eq]
    exact reads_in_word _ hplain
  | quoted h =>
    rw [Place.moved, h.movedChars_eq]
    exact reads_in_name _ fun x hx => (hplain x hx).1

/-- A digit of a number ends no lexeme, and is not written yet. -/
theorem Keeps.digit {r r' : Reading} {p p' : Place} {c : Char} (h : Keeps d.mark k r p' p)
    (hr : r ≠ .other) (hdigit : (Text.digitValue? c).isSome)
    (htail : ∀ cs, tokensFrom r (c :: cs) = tokensFrom r' cs) :
    ∃ q, p.step d.mark c = ([], q) ∧ Keeps d.mark k r' p' q := by
  obtain ⟨hmark, hbreak⟩ := plain_digit (d := d) hdigit
  cases h with
  | between | closing h => exact absurd rfl hr
  | word h => exact ⟨_, by simp [Place.step, hmark, hbreak], .word (h.digit htail)⟩
  | quoted h => exact ⟨_, by simp [Place.step, hmark], .quoted (h.digit htail)⟩

/-- Any other character is read alike in both texts. -/
theorem Keeps.step {r : Reading} {p p' : Place} {c : Char} (h : Keeps d.mark k r p' p)
    (htail : ∀ cs, tokensFrom r (c :: cs) = r.tokens ++ .char c :: tokensFrom (readingAfter c) cs) :
    Keeps d.mark k (readingAfter c) ((p.moved k).step d.mark c).2 (p.step d.mark c).2 ∧
      ((p.moved k).step d.mark c).1 = (p.step d.mark c).1.map (Lexeme.moved k) := by
  cases h with
  | between => exact ⟨keeps_start, (map_moved_start c).symm⟩
  | word h =>
    simp only [Place.moved, Place.step]
    split
    · exact ⟨keeps_start, by simp [map_moved_start, Lexeme.moved]⟩
    · exact ⟨.word (h.other htail), rfl⟩
  | quoted h =>
    have hother := h.other htail
    simp only [Place.moved, Place.step]
    split
    · rename_i hc
      subst hc
      rw [readingAfter_mark] at hother ⊢
      exact ⟨.closing hother, rfl⟩
    · exact ⟨.quoted hother, rfl⟩
  | closing h =>
    simp only [Place.moved, Place.step]
    split
    · rename_i hc
      subst hc
      rw [readingAfter_mark]
      exact ⟨.quoted h, rfl⟩
    · exact ⟨keeps_start, by simp [map_moved_start, Lexeme.moved]⟩

theorem lexFrom_moved {r : Reading} {p p' : Place} (h : Keeps d.mark k r p' p) (cs : List Char) :
    lexFrom d.mark p' ((tokensFrom r cs).flatMap (Token.moved k)) =
      (lexFrom d.mark p cs).map (Lexeme.moved k) := by
  induction cs generalizing r p p' with
  | nil =>
    have hread := h.reads []
    rw [List.append_nil] at hread
    rw [tokensFrom, hread, lexFrom, lexFrom, ended_moved]
    rfl
  | cons c cs ih =>
    rw [lexFrom.eq_2 d.mark p, List.map_append]
    rcases tokensFrom_cons r c with ⟨hr, hdigit, n, digits, htail⟩ | htail
    · obtain ⟨q, hq, hkeeps⟩ := h.digit hr hdigit htail
      rw [htail, ih hkeeps, hq]
      rfl
    · obtain ⟨hkeeps, hlexemes⟩ := h.step htail
      rw [htail, List.flatMap_append, List.flatMap_cons, Token.moved, h.reads,
        List.singleton_append, List.nil_append, lexFrom, ih hkeeps, hlexemes]

/-- Moving the numbers of a text moves those of its lexemes. -/
theorem lex_moved (cs : List Char) :
    lex d.mark (movedChars k cs) = (lex d.mark cs).map (Lexeme.moved k) :=
  lexFrom_moved .between cs

theorem count_moved (r : Reading) (cs : List Char) :
    ((tokensFrom r cs).flatMap (Token.moved k)).count d.mark = cs.count d.mark := by
  have hnumber (r : Reading) : (r.tokens.flatMap (Token.moved k)).count d.mark = 0 :=
    List.count_eq_zero.mpr fun h => (plain_moved r _ h).1 rfl
  induction cs generalizing r with
  | nil => exact hnumber r
  | cons c cs ih =>
    rcases tokensFrom_cons r c with ⟨-, hdigit, n, digits, htail⟩ | htail
    · rw [htail, ih, List.count_cons_of_ne (plain_digit hdigit).1]
    · rw [htail, List.flatMap_append, List.flatMap_cons, List.count_append, hnumber, Nat.zero_add,
        Token.moved, List.singleton_append, List.count_cons, List.count_cons, ih]

theorem paired_moved {cs : List Char} (h : Paired d.mark cs) : Paired d.mark (movedChars k cs) := by
  rw [Paired, movedChars, count_moved]
  exact h

theorem exists_getLast_number (n digits : Nat) :
    ∃ b ∈ ((Reading.number n digits).tokens.flatMap (Token.moved k)).getLast?,
      Text.isBlank b = false := by
  have hne : (toString ((n : Int) + k)).toList ≠ [] := by
    cases (n : Int) + k <;> simp [toString, Int.repr]
  have hnumber : (Reading.number n digits).tokens.flatMap (Token.moved k) =
      (toString ((n : Int) + k)).toList := by
    simp [Reading.tokens, Token.moved]
  obtain ⟨b, hb⟩ := Option.isSome_iff_exists.mp (List.getLast?_isSome.mpr hne)
  rw [← hnumber] at hb
  have hplain := (plain_moved (d := .default) _ b (List.mem_of_getLast? hb)).2
  exact ⟨b, hb, by simp_all [isBreak]⟩

/-- A text with moved numbers ends in white space only if the text does. -/
theorem exists_getLast_moved (r : Reading) {cs : List Char}
    (h : ∃ b ∈ cs.getLast?, Text.isBlank b = false) :
    ∃ b ∈ ((tokensFrom r cs).flatMap (Token.moved k)).getLast?, Text.isBlank b = false := by
  induction cs generalizing r with
  | nil =>
    obtain ⟨b, hb, -⟩ := h
    contradiction
  | cons c cs ih =>
    have hlast {r : Reading} {xs : List Char} (hcs : cs ≠ []) :
        ∃ b ∈ (xs ++ (tokensFrom r cs).flatMap (Token.moved k)).getLast?,
          Text.isBlank b = false := by
      obtain ⟨b, hb, hblank⟩ := h
      rw [List.getLast?_cons_of_ne_nil hcs] at hb
      obtain ⟨a, ha, hblank⟩ := ih r ⟨b, hb, hblank⟩
      exact ⟨a, by simp_all [List.getLast?_append], hblank⟩
    rcases tokensFrom_cons r c with ⟨-, -, n, digits, htail⟩ | htail
    · rw [htail]
      by_cases hcs : cs = []
      · subst hcs
        exact exists_getLast_number n digits
      · exact @hlast _ [] hcs
    · rw [htail, List.flatMap_append, List.flatMap_cons, ← List.append_assoc]
      by_cases hcs : cs = []
      · subst hcs
        obtain ⟨b, hb, hblank⟩ := h
        have hend : tokensFrom (readingAfter c) [] = [] := by
          unfold readingAfter
          split <;> rfl
        exact ⟨b, by simpa [hend, Token.moved] using hb, hblank⟩
      · exact hlast hcs

end Moving

end SqlFragment
