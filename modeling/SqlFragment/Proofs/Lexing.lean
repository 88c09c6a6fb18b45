import SqlFragment.Proofs.Writing

/-!
Statements read back: words, quoted names and punctuation. Inside a name its mark stands doubled.
-/
namespace SqlFragment

/-- A part of a statement. Markers and numbers are words, too. -/
inductive Lexeme
  | word (text : String)
  | name (text : String)
  | symbol (c : Char)
deriving DecidableEq, Repr

/-- Punctuation that is a lexeme of its own wherever it stands outside names. -/
def isPunctuation (c : Char) : Bool := c = '(' || c = ')' || c = ',' || c = '.'

/-- What ends a word. -/
def isBreak (c : Char) : Bool := Text.isBlank c || isPunctuation c

/-- Where reading is: between lexemes, in a word, in a name, or behind what may be its end. -/
inductive Place
  | between
  | word (cs : List Char)
  | quoted (cs : List Char)
  | closing (cs : List Char)

namespace Place

/-- The lexeme that ends here; a name that is not closed is none. -/
def ended : Place → List Lexeme
  | .between | .quoted _ => []
  | .word cs => [.word (String.ofList cs)]
  | .closing cs => [.name (String.ofList cs)]

/-- A character between two lexemes. -/
def start (mark c : Char) : List Lexeme × Place :=
  if c = mark then ([], .quoted [])
  else if Text.isBlank c then ([], .between)
  else if isPunctuation c then ([.symbol c], .between)
  else ([], .word [c])

/-- The lexemes that end at a character, and where reading is behind it. -/
def step (mark : Char) : Place → Char → List Lexeme × Place
  | .between, c => start mark c
  | .word cs, c =>
    if c = mark || isBreak c then (.word (String.ofList cs) :: (start mark c).1, (start mark c).2)
    else ([], .word (cs ++ [c]))
  | .quoted cs, c => if c = mark then ([], .closing cs) else ([], .quoted (cs ++ [c]))
  | .closing cs, c =>
    if c = mark then ([], .quoted (cs ++ [c]))
    else (.name (String.ofList cs) :: (start mark c).1, (start mark c).2)

end Place

def lexFrom (mark : Char) : Place → List Char → List Lexeme
  | p, [] => p.ended
  | p, c :: cs => (p.step mark c).1 ++ lexFrom mark (p.step mark c).2 cs

/-- The lexemes of a text whose names stand between marks. -/
def lex (mark : Char) (cs : List Char) : List Lexeme := lexFrom mark .between cs

/-- Whether a name is being read. -/
def Place.isOpen : Place → Bool
  | .quoted _ => true
  | _ => false

/-- Whether every name of a text is closed. -/
def Paired (mark : Char) (cs : List Char) : Prop := cs.count mark % 2 = 0

instance (mark : Char) (cs : List Char) : Decidable (Paired mark cs) :=
  inferInstanceAs (Decidable (_ = _))

section Steps

variable {mark : Char} {c : Char}

theorem isBreak_of_isBlank (h : Text.isBlank c = true) : isBreak c = true := by
  simp [isBreak, h]

theorem ne_mark_of_isBreak (hmark : isBreak mark = false) (h : isBreak c = true) : c ≠ mark := by
  rintro rfl
  simp [hmark] at h

theorem step_quoted (h : c ≠ mark) (b cs : List Char) :
    lexFrom mark (.quoted b) (c :: cs) = lexFrom mark (.quoted (b ++ [c])) cs := by
  simp [lexFrom, Place.step, h]

theorem step_quoted_mark (b cs : List Char) :
    lexFrom mark (.quoted b) (mark :: cs) = lexFrom mark (.closing b) cs := by
  simp [lexFrom, Place.step]

theorem step_closing_mark (b cs : List Char) :
    lexFrom mark (.closing b) (mark :: cs) = lexFrom mark (.quoted (b ++ [mark])) cs := by
  simp [lexFrom, Place.step]

theorem step_word (h : c ≠ mark) (hb : isBreak c = false) (b cs : List Char) :
    lexFrom mark (.word b) (c :: cs) = lexFrom mark (.word (b ++ [c])) cs := by
  simp [lexFrom, Place.step, h, hb]

theorem step_between (h : c ≠ mark) (hb : isBreak c = false) (cs : List Char) :
    lexFrom mark .between (c :: cs) = lexFrom mark (.word [c]) cs := by
  simp_all [lexFrom, Place.step, Place.start, isBreak]

theorem step_blank (h : c ≠ mark) (hb : Text.isBlank c = true) (cs : List Char) :
    lexFrom mark .between (c :: cs) = lexFrom mark .between cs := by
  simp [lexFrom, Place.step, Place.start, h, hb]

/-- White space ends what is read outside names. -/
theorem step_of_isBlank {p : Place} (hp : p.isOpen = false) (h : c ≠ mark)
    (hb : Text.isBlank c = true) : p.step mark c = (p.ended, .between) := by
  have hstart : Place.start mark c = ([], .between) := by
    rw [Place.start, if_neg h, if_pos hb]
  cases p with
  | between => exact hstart
  | word b => simp [Place.step, hstart, isBreak_of_isBlank hb, Place.ended]
  | quoted b => contradiction
  | closing b => simp [Place.step, hstart, h, Place.ended]

/-- Behind a lexeme, and before what cannot be part of it, reading starts anew. -/
theorem lexFrom_ended {p : Place} (hp : p.isOpen = false) (h : c ≠ mark) (hb : isBreak c = true)
    (cs : List Char) : lexFrom mark p (c :: cs) = p.ended ++ lex mark (c :: cs) := by
  cases p with
  | between => rfl
  | word b => simp [lexFrom, lex, Place.step, hb, Place.ended]
  | quoted b => contradiction
  | closing b => simp [lexFrom, lex, Place.step, h, Place.ended]

end Steps

/-! ## Texts one after the other -/

/-- Where reading is behind a text. -/
def placeAfter (mark : Char) (p : Place) (cs : List Char) : Place :=
  cs.foldl (fun p c => (p.step mark c).2) p

/-- Reading a text from a place on gives lexemes and ends at a place, whatever follows it. -/
def Reads (mark : Char) (p : Place) (xs : List Char) (ls : List Lexeme) (p' : Place) : Prop :=
  ∀ ys, lexFrom mark p (xs ++ ys) = ls ++ lexFrom mark p' ys

/-- Whether no lexeme reaches over the end of a text. -/
def Closes (cs : List Char) : Prop := ∃ c ∈ cs.getLast?, isBreak c = true

/-- Whether no lexeme reaches over the start of a text. -/
def Opens (cs : List Char) : Prop := ∃ c ∈ cs.head?, isBreak c = true

instance (cs : List Char) : Decidable (Closes cs) := Option.decidableExistsMem _

instance (cs : List Char) : Decidable (Opens cs) := Option.decidableExistsMem _

section Texts

variable {mark : Char}

theorem reads_placeAfter (p : Place) (xs : List Char) :
    ∃ ls, Reads mark p xs ls (placeAfter mark p xs) := by
  induction xs generalizing p with
  | nil => exact ⟨[], fun _ => rfl⟩
  | cons c xs ih =>
    obtain ⟨ls, hls⟩ := ih (p.step mark c).2
    refine ⟨(p.step mark c).1 ++ ls, fun ys => ?_⟩
    rw [List.cons_append, lexFrom, hls, List.append_assoc]
    rfl

theorem start_isOpen (c : Char) : (Place.start mark c).2.isOpen = decide (c = mark) := by
  unfold Place.start
  split
  · simp_all [Place.isOpen]
  · split
    · simp_all [Place.isOpen]
    · split <;> simp_all [Place.isOpen]

/-- A mark opens a name or may be its end, and nothing else does. -/
theorem step_isOpen (p : Place) (c : Char) :
    (p.step mark c).2.isOpen = if c = mark then !p.isOpen else p.isOpen := by
  have hstart : (Place.start mark c).2.isOpen = decide (c = mark) := start_isOpen c
  cases p with
  | between =>
    rw [Place.step, hstart]
    simp [Place.isOpen]
  | word cs =>
    simp only [Place.step]
    split
    · rw [hstart]
      simp [Place.isOpen]
    · simp_all [Place.isOpen]
  | quoted cs =>
    simp only [Place.step]
    split <;> simp [Place.isOpen]
  | closing cs =>
    simp only [Place.step]
    split
    · simp [Place.isOpen]
    · rw [hstart]
      simp_all [Place.isOpen]

theorem placeAfter_isOpen (p : Place) (xs : List Char) :
    (placeAfter mark p xs).isOpen = if Paired mark xs then p.isOpen else !p.isOpen := by
  induction xs generalizing p with
  | nil => simp [placeAfter, Paired]
  | cons c xs ih =>
    have htail : (placeAfter mark p (c :: xs)).isOpen = _ := ih (p.step mark c).2
    rw [htail, step_isOpen]
    by_cases hc : c = mark
    · subst hc
      have hpaired : Paired c (c :: xs) ↔ ¬Paired c xs := by
        simp only [Paired, List.count_cons_self]
        omega
      by_cases hxs : Paired c xs <;> simp [hpaired, hxs]
    · have hpaired : Paired mark (c :: xs) ↔ Paired mark xs := by
        simp [Paired, List.count_cons_of_ne hc]
      simp [hpaired, hc]

/-- Behind a text whose names are closed no name is open. -/
theorem Paired.isOpen_placeAfter {xs : List Char} (h : Paired mark xs) {p : Place}
    (hp : p.isOpen = false) : (placeAfter mark p xs).isOpen = false := by
  rw [placeAfter_isOpen, if_pos h, hp]

theorem Paired.placeAfter_eq {xs : List Char} (h : Paired mark xs) (hmark : isBreak mark = false)
    (hc : Closes xs) {p : Place} (hp : p.isOpen = false) : placeAfter mark p xs = .between := by
  obtain ⟨c, hlast, hb⟩ := hc
  obtain ⟨xs, rfl⟩ := List.getLast?_eq_some_iff.mp hlast
  have hc := ne_mark_of_isBreak hmark hb
  have hxs : Paired mark xs := by
    simpa [Paired, List.count_append, List.count_singleton, hc] using h
  have hstart : (Place.start mark c).2 = .between := by
    unfold Place.start
    rw [if_neg hc]
    split
    · rfl
    · rw [if_pos (by simp_all [isBreak])]
  have hbefore := hxs.isOpen_placeAfter hp
  rw [placeAfter, List.foldl_append, List.foldl_cons, List.foldl_nil]
  change ((placeAfter mark p xs).step mark c).2 = _
  cases hq : placeAfter mark p xs with
  | between => exact hstart
  | word cs => simp only [Place.step, hb, Bool.or_true, if_true, hstart]
  | quoted cs => simp [hq, Place.isOpen] at hbefore
  | closing cs => simp only [Place.step, if_neg hc, hstart]

/-- Reading goes on behind a lexeme with what starts a new one. -/
theorem lexFrom_opens {p : Place} {ys : List Char} (hp : p.isOpen = false)
    (hmark : isBreak mark = false) (h : ys = [] ∨ Opens ys) :
    lexFrom mark p ys = p.ended ++ lex mark ys := by
  rcases h with rfl | ⟨c, hhead, hb⟩
  · simp [lex, lexFrom, Place.ended]
  · obtain ⟨ys, rfl⟩ := List.head?_eq_some_iff.mp hhead
    exact lexFrom_ended hp (ne_mark_of_isBreak hmark hb) hb ys

theorem Reads.lex_eq {xs : List Char} {ls : List Lexeme} {p : Place}
    (h : Reads mark .between xs ls p) : lex mark xs = ls ++ p.ended := by
  simpa [lexFrom, lex] using h []

/-- Texts that no lexeme reaches across are read one after the other. -/
theorem Paired.lex_append {xs ys : List Char} (h : Paired mark xs) (hmark : isBreak mark = false)
    (hborder : Closes xs ∨ ys = [] ∨ Opens ys) :
    lex mark (xs ++ ys) = lex mark xs ++ lex mark ys := by
  obtain ⟨ls, hls⟩ : ∃ ls, Reads mark .between xs ls (placeAfter mark .between xs) :=
    reads_placeAfter .between xs
  have hall : lex mark (xs ++ ys) = ls ++ lexFrom mark (placeAfter mark .between xs) ys := hls ys
  rcases hborder with hclosed | hborder
  · rw [hall, hls.lex_eq, h.placeAfter_eq hmark hclosed rfl, Place.ended, List.append_nil]
    rfl
  · rw [hall, hls.lex_eq, lexFrom_opens (h.isOpen_placeAfter rfl) hmark hborder, List.append_assoc]

theorem reads_in_word (b : List Char) {xs : List Char}
    (h : ∀ x ∈ xs, x ≠ mark ∧ isBreak x = false) :
    Reads mark (.word b) xs [] (.word (b ++ xs)) := by
  induction xs generalizing b with
  | nil => simp [Reads]
  | cons x xs ih =>
    obtain ⟨⟨hx, hbreak⟩, hxs⟩ := List.forall_mem_cons.mp h
    intro ys
    have := ih (b ++ [x]) hxs ys
    rw [List.cons_append, step_word hx hbreak, this, List.append_assoc]
    rfl

theorem reads_in_name (b : List Char) {xs : List Char} (h : ∀ x ∈ xs, x ≠ mark) :
    Reads mark (.quoted b) xs [] (.quoted (b ++ xs)) := by
  induction xs generalizing b with
  | nil => simp [Reads]
  | cons x xs ih =>
    obtain ⟨hx, hxs⟩ := List.forall_mem_cons.mp h
    intro ys
    have := ih (b ++ [x]) hxs ys
    rw [List.cons_append, step_quoted hx, this, List.append_assoc]
    rfl

/-- A word that stands alone. -/
theorem reads_word {c : Char} {cs : List Char} (h : ∀ b ∈ c :: cs, b ≠ mark ∧ isBreak b = false) :
    Reads mark .between (c :: cs) [] (.word (c :: cs)) := by
  obtain ⟨⟨hc, hbreak⟩, hcs⟩ := List.forall_mem_cons.mp h
  intro ys
  rw [List.cons_append, step_between hc hbreak]
  exact reads_in_word [c] hcs ys

end Texts

/-! ## Names -/

/-- What a name looks like between its marks, which read as one where they are doubled. -/
def Quoting.shown (q : Quoting) (cs : List Char) : List Char :=
  cs.flatMap fun c => if q.doublesPercent && c = '%' then [c, c] else [c]

theorem Quoting.shown_cons (q : Quoting) (c : Char) (cs : List Char) :
    q.shown (c :: cs) = (if q.doublesPercent && c = '%' then [c, c] else [c]) ++ q.shown cs := rfl

theorem shown_eq_self {q : Quoting} (h : q.doublesPercent = false) (cs : List Char) :
    q.shown cs = cs := by
  simp [Quoting.shown, h]

theorem reads_escaped {q : Quoting} (hq : q.mark ≠ '%') (cs b : List Char) :
    Reads q.mark (.quoted b) (cs.flatMap q.escapeChar) [] (.quoted (b ++ q.shown cs)) := by
  induction cs generalizing b with
  | nil => simp [Quoting.shown, Reads]
  | cons c cs ih =>
    intro ys
    by_cases hm : c = q.mark
    · -- the first of two marks may be the end of the name, and the second goes on with it
      subst hm
      have hne : ¬(q.doublesPercent = true ∧ q.mark = '%') := fun h => hq h.2
      have := ih (b ++ [q.mark]) ys
      simpa [Quoting.escapeChar, Quoting.shown, hne, step_quoted_mark, step_closing_mark] using this
    · by_cases hp : q.doublesPercent = true ∧ c = '%'
      · obtain ⟨hd, rfl⟩ := hp
        have := ih (b ++ ['%'] ++ ['%']) ys
        simpa [Quoting.escapeChar, Quoting.shown, hd, step_quoted hm] using this
      · have := ih (b ++ [c]) ys
        simpa [Quoting.escapeChar, Quoting.shown, hp, hm, step_quoted hm] using this

theorem reads_quoted {q : Quoting} (hq : q.mark ≠ '%') (cs : List Char) :
    Reads q.mark .between (q.quoteChars cs) [] (.closing (q.shown cs)) := by
  intro ys
  have hstart (xs : List Char) : lexFrom q.mark .between (q.mark :: xs) =
      lexFrom q.mark (.quoted []) xs := by
    simp [lexFrom, Place.step, Place.start]
  have := reads_escaped hq cs [] (q.mark :: ys)
  rw [Quoting.quoteChars, List.cons_append, List.cons_append, hstart, List.append_assoc]
  simpa [step_quoted_mark] using this

/-! ## Segments -/

namespace Segment

/-- The lexemes of a segment on its own. -/
def lexemes (d : Dialect) (style : MarkerStyle) : Segment → List Lexeme
  | .word s => lex d.mark s.toList
  | .name s => [.name (String.ofList ((d.quoting style).shown s.toList))]
  | .marker n _ => [.word (style.mark n)]

def IsOrdinary : Segment → Prop
  | .word s => IsKeyword s
  | _ => True

def Closes : Segment → Prop
  | .word s => SqlFragment.Closes s.toList
  | _ => False

def Opens : Segment → Prop
  | .word s => SqlFragment.Opens s.toList
  | _ => False

/-- Whether no lexeme reaches from one to the next. -/
def Apart (a b : Segment) : Prop := a.Closes ∨ b.Opens

end Segment

theorem Dialect.mark_eq (d : Dialect) : d.mark = '\x22' ∨ d.mark = '\x60' := by
  cases d <;> decide

theorem Dialect.isBreak_mark (d : Dialect) : isBreak d.mark = false := by
  cases d <;> decide

theorem mark_notMem_keyword (d : Dialect) {s : String} (h : IsKeyword s) : d.mark ∉ s.toList := by
  intro hm
  have := h _ hm
  rcases d.mark_eq with hd | hd <;> rw [hd] at this <;> revert this <;> decide

theorem plain_digitChar (d : Dialect) :
    ∀ k < 10, Nat.digitChar k ≠ d.mark ∧ isBreak (Nat.digitChar k) = false := by
  cases d <;> decide

/-- The characters of a marker are those of a word. -/
theorem plain_mark (d : Dialect) (style : MarkerStyle) (n : Nat) :
    ∀ c ∈ (style.mark n).toList, c ≠ d.mark ∧ isBreak c = false := by
  intro c hc
  cases style with
  | question =>
    obtain rfl : c = '?' := by simpa [MarkerStyle.mark] using hc
    cases d <;> decide
  | dollar =>
    rw [toList_mark_dollar, List.mem_cons] at hc
    rcases hc with rfl | hc
    · cases d <;> decide
    · obtain ⟨k, hk, rfl⟩ := exists_of_mem_toDigits (by decide) hc
      exact plain_digitChar d k hk
  | percent =>
    obtain rfl | rfl : c = '%' ∨ c = 's' := by simpa [MarkerStyle.mark] using hc
    · cases d <;> decide
    · cases d <;> decide

theorem mark_ne_empty (style : MarkerStyle) (n : Nat) : (style.mark n).toList ≠ [] := by
  cases style <;> simp [MarkerStyle.mark]

theorem paired_of_notMem {mark : Char} {cs : List Char} (h : mark ∉ cs) : Paired mark cs := by
  rw [Paired, List.count_eq_zero.mpr h]

theorem Paired.append {mark : Char} {xs ys : List Char} (h : Paired mark xs)
    (hys : Paired mark ys) : Paired mark (xs ++ ys) := by
  simp only [Paired, List.count_append] at h hys ⊢
  omega

theorem Paired.flatMap {α : Type} {mark : Char} {f : α → List Char} {xs : List α}
    (h : ∀ x ∈ xs, Paired mark (f x)) : Paired mark (xs.flatMap f) := by
  induction xs with
  | nil => rfl
  | cons x xs ih =>
    obtain ⟨hx, hxs⟩ := List.forall_mem_cons.mp h
    exact hx.append (ih hxs)

theorem paired_quoteChars (q : Quoting) (cs : List Char) :
    Paired q.mark (q.quoteChars cs) := by
  have hescaped : Paired q.mark (cs.flatMap q.escapeChar) := by
    refine .flatMap fun c _ => ?_
    unfold Quoting.escapeChar
    by_cases hm : c = q.mark
    · simp [Paired, hm]
    · refine paired_of_notMem ?_
      split <;> simp [Ne.symm hm]
  simp only [Paired, Quoting.quoteChars, List.cons_append, List.count_cons_self, List.count_append,
    List.count_nil] at hescaped ⊢
  omega

theorem Dialect.mark_ne_percent (d : Dialect) : d.mark ≠ '%' := by
  cases d <;> decide

theorem Segment.paired_chars (d : Dialect) (style : MarkerStyle) {s : Segment}
    (h : s.IsOrdinary) : Paired d.mark (s.chars d style) := by
  cases s with
  | word s => exact paired_of_notMem (mark_notMem_keyword d h)
  | name s => exact paired_quoteChars (d.quoting style) s.toList
  | marker n v => exact paired_of_notMem fun hm => (plain_mark d style n _ hm).1 rfl

theorem lex_mark (d : Dialect) (style : MarkerStyle) (n : Nat) :
    lex d.mark (style.mark n).toList = [.word (style.mark n)] := by
  have hplain := plain_mark d style n
  obtain ⟨c, cs, hs⟩ := List.exists_cons_of_ne_nil (mark_ne_empty style n)
  rw [hs] at hplain
  rw [hs, (reads_word hplain).lex_eq, ← hs]
  simp [Place.ended]

/-- A segment on its own is read like this. -/
theorem Segment.lex_chars (d : Dialect) (style : MarkerStyle) (s : Segment) :
    lex d.mark (s.chars d style) = s.lexemes d style := by
  cases s with
  | word s => rfl
  | name s => exact (reads_quoted d.mark_ne_percent s.toList).lex_eq
  | marker n v => exact lex_mark d style n

/-- Where segments are apart, no lexeme reaches from the first to the others. -/
theorem closes_or_opens {d : Dialect} {style : MarkerStyle} {s : Segment} {segs : List Segment}
    (h : (s :: segs).IsChain Segment.Apart) :
    Closes (s.chars d style) ∨ segs.flatMap (Segment.chars d style) = [] ∨
      Opens (segs.flatMap (Segment.chars d style)) := by
  cases segs with
  | nil => exact .inr (.inl rfl)
  | cons t segs =>
    rcases (List.isChain_cons_cons.mp h).1 with hs | ht
    · cases s with
      | word w => exact .inl hs
      | name _ | marker _ _ => exact hs.elim
    · cases t with
      | word w =>
        obtain ⟨c, hc, hb⟩ := ht
        exact .inr (.inr ⟨c, by simp_all [Segment.chars], hb⟩)
      | name _ | marker _ _ => exact ht.elim

/-- Segments that are apart are read one by one. -/
theorem lex_segments (d : Dialect) (style : MarkerStyle) {segs : List Segment}
    (hword : ∀ s ∈ segs, s.IsOrdinary) (h : segs.IsChain Segment.Apart) :
    lex d.mark (segs.flatMap (Segment.chars d style)) =
      segs.flatMap (Segment.lexemes d style) := by
  induction segs with
  | nil => rfl
  | cons s segs ih =>
    obtain ⟨hs, hword⟩ := List.forall_mem_cons.mp hword
    rw [List.flatMap_cons, List.flatMap_cons,
      (s.paired_chars d style hs).lex_append d.isBreak_mark (closes_or_opens h), s.lex_chars,
      ih hword h.of_cons]

end SqlFragment
