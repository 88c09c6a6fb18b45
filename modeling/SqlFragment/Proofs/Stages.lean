import SqlFragment.Proofs.Renumbering

/-!
Numbers that are moved more than once. Where a moved number stands, one number is read again, with the
digits that it was written with; so a text that is renumbered in stages is the text renumbered at once.
-/
namespace SqlFragment

namespace Token

variable {j k : Nat}

/-- What is read where a moved token stands. -/
def shifted (k : Nat) : Token → Token
  | .char c => .char c
  | .number n _ => .number (n + k) (Nat.toDigits 10 (n + k)).length

theorem moved_number (k n digits : Nat) :
    (Token.number n digits).moved k = Nat.toDigits 10 (n + k) := by
  have hsum : (n : Int) + k = (n + k : Nat) := by omega
  rw [moved, hsum, toList_toString_int, if_pos (Int.natCast_nonneg _), Int.toNat_natCast]

theorem moved_shifted (t : Token) : (t.shifted k).moved j = t.moved (k + j : Nat) := by
  cases t with
  | char c => rfl
  | number n digits => rw [shifted, moved_number, moved_number, Nat.add_assoc]

/-- A number that can be moved has not too many digits then, and is read again. -/
theorem isMovable_add (t : Token) :
    t.isMovable (k + j : Nat) = (t.isMovable k && (t.shifted k).isMovable j) := by
  cases t with
  | char c => rfl
  | number n digits =>
    have hlength (m : Nat) : 0 < m → n + k < Nat.pow 10 m → (Nat.toDigits 10 (n + k)).length ≤ m :=
      Nat.toDigits_length 10 (n + k) m
    have hdigits := hlength Text.longestNumber (by decide)
    have habs (a b : Nat) : ((a : Int) + b).natAbs = a + b := by omega
    rw [Bool.eq_iff_iff]
    simp only [shifted, isMovable, habs, Bool.and_eq_true, decide_eq_true_eq]
    generalize Nat.pow 10 Text.longestNumber = bound at hdigits ⊢
    constructor
    · rintro ⟨hread, hmoved⟩
      have hk : n + k < bound := by omega
      exact ⟨⟨hread, hk⟩, hdigits hk, by omega⟩
    · rintro ⟨⟨hread, -⟩, -, hmoved⟩
      exact ⟨hread, by omega⟩

end Token

/-! ## Texts -/

/-- Where reading starts again for what is being read: a number, behind its dollar sign. -/
def Reading.opening : Reading → Reading
  | .number .. => .dollar
  | r => r

/-- What was being read is read again from its moved tokens, if no digit follows them. -/
theorem tokensFrom_opening (k : Nat) (r : Reading) {c : Char} (h : Text.digitValue? c = none)
    (cs : List Char) : tokensFrom r.opening (r.tokens.flatMap (Token.moved k) ++ c :: cs) =
      r.tokens.map (Token.shifted k) ++ .char c :: tokensFrom (readingAfter c) cs := by
  cases r with
  | other | dollar => exact tokensFrom_cons_of_none h cs
  | number n digits =>
    rw [Reading.tokens, List.flatMap_singleton, Token.moved_number, Reading.opening,
      tokensFrom_dollar, tokensFrom_cons_of_none h]
    rfl

/-- Moved numbers are read where the numbers were. -/
theorem tokensFrom_moved (k : Nat) (r : Reading) (cs : List Char) :
    tokensFrom r.opening ((tokensFrom r cs).flatMap (Token.moved k)) =
      (tokensFrom r cs).map (Token.shifted k) := by
  induction cs generalizing r with
  | nil =>
    cases r with
    | other | dollar => rfl
    | number n digits =>
      change tokensFrom .dollar ((Token.number n digits).moved k ++ []) = _
      rw [Token.moved_number, tokensFrom_dollar]
      rfl
  | cons c cs ih =>
    have hopening : (readingAfter c).opening = readingAfter c := by
      unfold readingAfter
      split <;> rfl
    have htail := ih (readingAfter c)
    rw [hopening] at htail
    cases hc : Text.digitValue? c with
    | none =>
      rw [tokensFrom_cons_of_none hc, List.flatMap_append, List.flatMap_cons, Token.moved,
        List.singleton_append, tokensFrom_opening k r hc, htail, List.map_append, List.map_cons]
      rfl
    | some v =>
      cases r with
      | other =>
        -- without a dollar sign before it, a digit is a character like others
        have hread (cs : List Char) : tokensFrom .other (c :: cs) =
            .char c :: tokensFrom (readingAfter c) cs := by
          simp [tokensFrom, readingAfter, Reading.tokens]
        have hdigit : tokensFrom .other (c :: (tokensFrom (readingAfter c) cs).flatMap
            (Token.moved k)) = _ := (hread _).trans (congrArg (.char c :: ·) htail)
        rw [hread]
        exact hdigit
      | dollar =>
        have hread : tokensFrom .dollar (c :: cs) = tokensFrom (.number v 1) cs := by
          simp [tokensFrom, hc]
        rw [hread]
        exact ih (.number v 1)
      | number n digits =>
        have hread : tokensFrom (.number n digits) (c :: cs) =
            tokensFrom (.number (10 * n + v) (digits + 1)) cs := by
          simp [tokensFrom, hc]
        rw [hread]
        exact ih (.number (10 * n + v) (digits + 1))

theorem tokensFrom_movedChars (k : Nat) (cs : List Char) :
    tokensFrom .other (movedChars k cs) = (tokensFrom .other cs).map (Token.shifted k) :=
  tokensFrom_moved k .other cs

theorem movedChars_movedChars (j k : Nat) (cs : List Char) :
    movedChars j (movedChars k cs) = movedChars (k + j : Nat) cs := by
  have hmoved : (fun t : Token => (t.shifted k).moved j) = Token.moved (k + j : Nat) :=
    funext Token.moved_shifted
  rw [movedChars, tokensFrom_movedChars, List.flatMap_map, hmoved]
  rfl

theorem all_isMovable_add (j k : Nat) (cs : List Char) :
    (tokensFrom .other cs).all (Token.isMovable (k + j : Nat)) =
      ((tokensFrom .other cs).all (Token.isMovable k) &&
        (tokensFrom .other (movedChars k cs)).all (Token.isMovable j)) := by
  rw [tokensFrom_movedChars, List.all_map, Bool.eq_iff_iff, Bool.and_eq_true]
  simp only [List.all_eq_true, Function.comp_apply, Token.isMovable_add, Bool.and_eq_true,
    forall_and]

theorem renumber_of_ne {start : Int} (h : start ≠ 1) (s : String) : renumber start s =
    if (tokensFrom .other s.toList).all (Token.isMovable (start - 1)) then
      .ok (String.ofList (movedChars (start - 1) s.toList))
    else .error .unreadableNumber := by
  rw [renumber, if_neg h]
  rfl

theorem renumber_one (s : String) : renumber 1 s = .ok s := by
  rw [renumber, if_pos rfl]

/-- A text renumbered for one start and then for another is the text renumbered at once, or fails as
that does; and the start at one leaves every text as it is. -/
theorem renumber_renumber (s : String) {a b : Int} (ha : 1 ≤ a) (hb : 1 ≤ b) :
    (renumber a s >>= renumber b) = renumber (a + b - 1) s ∧ renumber 1 s = .ok s := by
  refine ⟨?_, renumber_one s⟩
  by_cases ha1 : a = 1
  · have hsum : a + b - 1 = b := by omega
    rw [hsum, ha1, renumber_one, ok_bind]
  by_cases hb1 : b = 1
  · have hsum : a + b - 1 = a := by omega
    rw [hsum, hb1, funext renumber_one]
    exact bind_pure _
  obtain ⟨k, hk⟩ : ∃ k : Nat, a - 1 = k := ⟨(a - 1).toNat, by omega⟩
  obtain ⟨j, hj⟩ : ∃ j : Nat, b - 1 = j := ⟨(b - 1).toNat, by omega⟩
  have hne : a + b - 1 ≠ 1 := by omega
  have hsum : a + b - 1 - 1 = (k + j : Nat) := by omega
  rw [renumber_of_ne ha1, renumber_of_ne hne, hk, hsum, all_isMovable_add]
  cases (tokensFrom .other s.toList).all (Token.isMovable k) with
  | false => rfl
  | true =>
    rw [if_pos rfl, ok_bind, renumber_of_ne hb1, hj, String.toList_ofList, movedChars_movedChars,
      Bool.true_and]

/-- A number that gets a digit more, and one with a nought before it. -/
theorem renumber_renumber_costs :
    (renumber 3 "cost$07 = $99" >>= renumber 2) = renumber 4 "cost$07 = $99" ∧
      renumber 4 "cost$07 = $99" = .ok "cost$10 = $102" ∧
      renumber 1 "cost$07 = $99" = .ok "cost$07 = $99" := by
  obtain ⟨hstages, hone⟩ :=
    renumber_renumber "cost$07 = $99" (by decide : (1 : Int) ≤ 3) (by decide : (1 : Int) ≤ 2)
  refine ⟨hstages, ?_, hone⟩
  decide +kernel

end SqlFragment
