import SqlFragment.Proofs.Lexing
import SqlFragment.Proofs.Truth

/-!
Conditions read with the precedence of their connectives: `NOT` before `AND` before `OR`, and what
stands in parentheses first of all.
-/
namespace SqlFragment

/-- Trees of comparisons as they stand in a text. -/
abbrev Meaning := Filter.Tree (List Lexeme)

/-- A part of a condition: a lexeme, or lexemes in parentheses with what they mean as a
condition. -/
inductive Phrase
  | lexeme (l : Lexeme)
  | group (ls : List Lexeme) (meaning : Meaning)

namespace Phrase

def lexemes : Phrase → List Lexeme
  | .lexeme l => [l]
  | .group ls _ => .symbol '(' :: ls ++ [.symbol ')']

def isWord (w : String) : Phrase → Bool
  | .lexeme (.word s) => s == w
  | _ => false

/-- Parts between one `OR` and the next. -/
def alternatives : List Phrase → List (List Phrase)
  | [] => [[]]
  | p :: ps =>
    if p.isWord "OR" then [] :: alternatives ps else (alternatives ps).modifyHead (p :: ·)

/-- Parts between one `AND` and the next. In a range, behind `BETWEEN`, one belongs to the range. -/
def conjuncts (inRange : Bool) : List Phrase → List (List Phrase)
  | [] => [[]]
  | p :: ps =>
    if p.isWord "AND" then
      if inRange then (conjuncts false ps).modifyHead (p :: ·) else [] :: conjuncts false ps
    else (conjuncts (inRange || p.isWord "BETWEEN") ps).modifyHead (p :: ·)

/-- A comparison. That one equals one says nothing, and that it does not is never so. -/
def comparison (ls : List Lexeme) : Meaning :=
  if ls = [.word "1", .word "=", .word "1"] then .all []
  else if ls = [.word "1", .word "!=", .word "1"] then .any []
  else .leaf ls

/-- What parts without connectives mean. -/
def unit : List Phrase → Meaning
  | .lexeme (.word "NOT") :: ps => .negation (unit ps)
  | [.group _ meaning] => meaning
  | ps => comparison (ps.flatMap lexemes)

def meaning (ps : List Phrase) : Meaning :=
  .any ((alternatives ps).map fun qs => .all ((conjuncts false qs).map unit))

/-- The parts of a text, of which `before` has those before each open parenthesis and `ps` those
behind the last. -/
def parse : (before : List (List Phrase)) → (ps : List Phrase) → List Lexeme → Option (List Phrase)
  | [], ps, [] => some ps
  | _ :: _, _, [] => none
  | before, ps, l :: ls =>
    if l = .symbol '(' then parse (ps :: before) [] ls
    else if l = .symbol ')' then
      match before with
      | [] => none
      | qs :: before => parse before (qs ++ [.group (ps.flatMap lexemes) (meaning ps)]) ls
    else parse before (ps ++ [.lexeme l]) ls

end Phrase

/-- What a text means as a condition, if its parentheses match. -/
def meaningOf (ls : List Lexeme) : Option Meaning := (Phrase.parse [] [] ls).map Phrase.meaning

/-! ## Parts of a text -/

/-- Whether a lexeme starts a clause behind a condition. -/
def Lexeme.startsClause (l : Lexeme) : Bool := l = .word "ORDER" || l = .word "LIMIT"

/-- Lexemes of a condition that have parts of their own, wherever they stand. -/
structure Parses (ls : List Lexeme) (ps : List Phrase) : Prop where
  parse : ∀ before qs rest,
    Phrase.parse before qs (ls ++ rest) = Phrase.parse before (qs ++ ps) rest
  lexemes : ps.flatMap Phrase.lexemes = ls
  inside : ∀ l ∈ ls, l.startsClause = false

namespace Parses

variable {ls ms : List Lexeme} {ps qs : List Phrase}

theorem nil : Parses [] [] := ⟨fun _ _ _ => by simp, rfl, nofun⟩

theorem append (h : Parses ls ps) (h' : Parses ms qs) : Parses (ls ++ ms) (ps ++ qs) where
  parse before rs rest := by
    rw [List.append_assoc, h.parse, h'.parse, List.append_assoc]
  lexemes := by rw [List.flatMap_append, h.lexemes, h'.lexemes]
  inside := List.forall_mem_append.mpr ⟨h.inside, h'.inside⟩

theorem lexeme {l : Lexeme} (hopen : l ≠ .symbol '(') (hclose : l ≠ .symbol ')')
    (hl : l.startsClause = false) : Parses [l] [.lexeme l] where
  parse before rs rest := by
    cases before <;> simp [Phrase.parse, hopen, hclose]
  lexemes := rfl
  inside := List.forall_mem_singleton.mpr hl

/-- Whether lexemes hold no parentheses, and no clause starts at one of them. -/
def Flat (ls : List Lexeme) : Prop :=
  ∀ l ∈ ls, l ≠ .symbol '(' ∧ l ≠ .symbol ')' ∧ l.startsClause = false

instance (ls : List Lexeme) : Decidable (Flat ls) := inferInstanceAs (Decidable (∀ l ∈ ls, _))

theorem flat (h : Flat ls) : Parses ls (ls.map .lexeme) := by
  induction ls with
  | nil => exact nil
  | cons l ls ih =>
    obtain ⟨⟨hopen, hclose, hl⟩, hls⟩ := List.forall_mem_cons.mp h
    exact (lexeme hopen hclose hl).append (ih hls)

theorem group (h : Parses ls ps) :
    Parses (.symbol '(' :: ls ++ [.symbol ')']) [.group ls (Phrase.meaning ps)] where
  parse before rs rest := by
    have hopen : Phrase.parse before rs (.symbol '(' :: (ls ++ (.symbol ')' :: rest))) =
        Phrase.parse (rs :: before) [] (ls ++ (.symbol ')' :: rest)) := by
      cases before <;> simp [Phrase.parse]
    have hclose : Phrase.parse (rs :: before) ps (.symbol ')' :: rest) =
        Phrase.parse before (rs ++ [.group (ps.flatMap Phrase.lexemes) (Phrase.meaning ps)]) rest := by
      simp [Phrase.parse]
    have hall : .symbol '(' :: ls ++ [.symbol ')'] ++ rest =
        .symbol '(' :: (ls ++ (.symbol ')' :: rest)) := by simp
    rw [hall, hopen, h.parse, List.nil_append, hclose, h.lexemes]
  lexemes := List.append_nil _
  inside := by
    refine List.forall_mem_append.mpr ⟨List.forall_mem_cons.mpr ⟨rfl, h.inside⟩, ?_⟩
    exact List.forall_mem_singleton.mpr rfl

theorem meaningOf_eq (h : Parses ls ps) : meaningOf ls = some (Phrase.meaning ps) := by
  have := h.parse [] [] []
  simp only [List.append_nil, List.nil_append] at this
  rw [meaningOf, this]
  rfl

end Parses

/-! ## Connectives -/

namespace Phrase

/-- Parts with a connective between each two. -/
def between (w : String) : List (List Phrase) → List Phrase
  | [] => []
  | [us] => us
  | us :: rest => us ++ .lexeme (.word w) :: between w rest

theorem between_cons (w : String) (u : List Phrase) {us : List (List Phrase)} (h : us ≠ []) :
    between w (u :: us) = u ++ .lexeme (.word w) :: between w us := by
  obtain ⟨u', us, rfl⟩ := List.exists_cons_of_ne_nil h
  rfl

theorem between_append (w : String) {xs ys : List (List Phrase)} (hx : xs ≠ []) (hy : ys ≠ []) :
    between w (xs ++ ys) = between w xs ++ .lexeme (.word w) :: between w ys := by
  induction xs with
  | nil => contradiction
  | cons x xs ih =>
    by_cases hxs : xs = []
    · subst hxs
      exact between_cons w x hy
    · rw [List.cons_append, between_cons w x (by simp [hxs]), ih hxs, between_cons w x hxs,
        List.append_assoc]
      rfl

/-- Parts between which a connective splits, but that it does not split themselves. -/
structure IsUnit (us : List Phrase) : Prop where
  whole : ∀ p ∈ us, p.isWord "OR" = false
  apart : ∀ ps, conjuncts false (us ++ ps) = (conjuncts false ps).modifyHead (us ++ ·)

theorem modifyHead_append {α : Type} (us vs : List α) (xs : List (List α)) :
    (xs.modifyHead (vs ++ ·)).modifyHead (us ++ ·) = xs.modifyHead (us ++ vs ++ ·) := by
  cases xs <;> simp

theorem conjuncts_between {us : List (List Phrase)} (hne : us ≠ []) (h : ∀ u ∈ us, IsUnit u) :
    conjuncts false (between "AND" us) = us := by
  induction us with
  | nil => contradiction
  | cons u us ih =>
    obtain ⟨hu, hus⟩ := List.forall_mem_cons.mp h
    by_cases hnil : us = []
    · have := hu.apart []
      simpa [hnil, between, conjuncts] using this
    · have hand : isWord "AND" (.lexeme (.word "AND")) = true := by decide
      rw [between_cons _ u hnil, hu.apart, conjuncts, if_pos hand, if_neg (by simp), ih hnil hus,
        List.modifyHead, List.append_nil]

theorem alternatives_append {us : List Phrase} (h : ∀ p ∈ us, p.isWord "OR" = false)
    (ps : List Phrase) : alternatives (us ++ ps) = (alternatives ps).modifyHead (us ++ ·) := by
  induction us with
  | nil =>
    change alternatives ps = (alternatives ps).modifyHead ([] ++ ·)
    cases alternatives ps <;> rfl
  | cons u us ih =>
    obtain ⟨hu, hus⟩ := List.forall_mem_cons.mp h
    rw [List.cons_append, alternatives, if_neg (by simp [hu]), ih hus]
    exact modifyHead_append [u] us _

theorem alternatives_between {xs : List (List Phrase)} (hne : xs ≠ [])
    (h : ∀ x ∈ xs, ∀ p ∈ x, p.isWord "OR" = false) : alternatives (between "OR" xs) = xs := by
  induction xs with
  | nil => contradiction
  | cons x xs ih =>
    obtain ⟨hx, hxs⟩ := List.forall_mem_cons.mp h
    by_cases hnil : xs = []
    · have := alternatives_append hx []
      simpa [hnil, between, alternatives] using this
    · have hor : isWord "OR" (.lexeme (.word "OR")) = true := by decide
      rw [between_cons _ x hnil, alternatives_append hx, alternatives, if_pos hor, ih hnil hxs,
        List.modifyHead, List.append_nil]

theorem whole_between {us : List (List Phrase)} (h : ∀ u ∈ us, IsUnit u) :
    ∀ p ∈ between "AND" us, p.isWord "OR" = false := by
  induction us with
  | nil => exact nofun
  | cons u us ih =>
    obtain ⟨hu, hus⟩ := List.forall_mem_cons.mp h
    cases us with
    | nil => exact hu.whole
    | cons u' us =>
      exact List.forall_mem_append.mpr ⟨hu.whole, List.forall_mem_cons.mpr ⟨by decide, ih hus⟩⟩

/-- Alternatives of conjunctions mean just that. -/
theorem meaning_between {xs : List (List (List Phrase))} (hne : xs ≠ [])
    (h : ∀ us ∈ xs, us ≠ [] ∧ ∀ u ∈ us, IsUnit u) :
    meaning (between "OR" (xs.map (between "AND"))) =
      .any (xs.map fun us => .all (us.map unit)) := by
  have hwhole : ∀ x ∈ xs.map (between "AND"), ∀ p ∈ x, p.isWord "OR" = false := by
    intro x hx
    obtain ⟨us, hus, rfl⟩ := List.mem_map.mp hx
    exact whole_between (h us hus).2
  rw [meaning, alternatives_between (by simpa using hne) hwhole, List.map_map]
  refine congrArg Filter.Tree.any (List.map_congr_left fun us hus => ?_)
  rw [Function.comp_apply, conjuncts_between (h us hus).1 (h us hus).2]

/-! ### Units -/

/-- Whether a part joins other parts. -/
def connects (p : Phrase) : Bool := p.isWord "OR" || p.isWord "AND" || p.isWord "BETWEEN"

theorem isUnit_of_connects {us : List Phrase} (h : ∀ p ∈ us, p.connects = false) : IsUnit us where
  whole p hp := by
    have := h p hp
    simp_all [connects]
  apart ps := by
    induction us with
    | nil =>
      change conjuncts false ps = (conjuncts false ps).modifyHead ([] ++ ·)
      cases conjuncts false ps <;> rfl
    | cons u us ih =>
      obtain ⟨hu, hus⟩ := List.forall_mem_cons.mp h
      simp only [connects, Bool.or_eq_false_iff] at hu
      obtain ⟨⟨-, hand⟩, hbetween⟩ := hu
      rw [List.cons_append, conjuncts, if_neg (by simp [hand]), hbetween, Bool.or_false, ih hus]
      exact modifyHead_append [u] us _

theorem isUnit_group (ls : List Lexeme) (m : Meaning) : IsUnit [.group ls m] :=
  isUnit_of_connects (List.forall_mem_singleton.mpr rfl)

/-- A comparison that starts with a lexeme of its own. -/
theorem unit_of_head {l : Lexeme} (hnot : l ≠ .word "NOT") (hone : l ≠ .word "1")
    (us : List Phrase) :
    unit (.lexeme l :: us) = .leaf ((Phrase.lexeme l :: us).flatMap lexemes) := by
  have hcomparison : unit (.lexeme l :: us) = comparison ((Phrase.lexeme l :: us).flatMap lexemes) := by
    unfold unit
    split
    · rename_i h
      exact absurd (Phrase.lexeme.inj (List.cons.inj h).1) hnot
    · rename_i h
      exact nomatch (List.cons.inj h).1
    · rfl
  have hhead : ∀ ms, (Phrase.lexeme l :: us).flatMap lexemes ≠ .word "1" :: ms := by
    intro ms h
    rw [List.flatMap_cons, lexemes, List.singleton_append] at h
    exact hone (List.cons.inj h).1
  rw [hcomparison, comparison, if_neg (hhead _), if_neg (hhead _)]

end Phrase

end SqlFragment
