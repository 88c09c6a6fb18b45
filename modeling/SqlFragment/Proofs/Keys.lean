import Mathlib.Data.List.Basic
import SqlFragment.Statement.Writing

/-!
The names of the markers and lists of one statement are distinct. A name ends in a number after its
last underscore, and a name that was cut is longer than any name that was not.
-/
namespace SqlFragment

/-! ## Numbers after the last underscore -/

theorem append_underscore_inj {a a' b b' : List Char} (hb : '_' ∉ b) (hb' : '_' ∉ b')
    (h : a ++ '_' :: b = a' ++ '_' :: b') : a = a' ∧ b = b' := by
  rcases List.append_eq_append_iff.mp h with ⟨t, ht, ht'⟩ | ⟨t, ht, ht'⟩
  · cases t with
    | nil => simp_all
    | cons c t =>
      obtain ⟨rfl, rfl⟩ := List.cons.inj ht'
      exact absurd (by simp) hb
  · cases t with
    | nil => simp_all
    | cons c t =>
      obtain ⟨rfl, rfl⟩ := List.cons.inj ht'
      exact absurd (by simp) hb'

theorem exists_of_mem_toDigits {base n : Nat} (hb : 1 < base) {c : Char}
    (h : c ∈ Nat.toDigits base n) : ∃ k < base, c = Nat.digitChar k := by
  induction n using Nat.strongRecOn with
  | ind n ih =>
    rw [Nat.toDigits_eq_if hb] at h
    split at h
    · exact ⟨n, ‹_›, by simpa using h⟩
    · rcases List.mem_append.mp h with h | h
      · exact ih _ (Nat.div_lt_self (by omega) hb) h
      · exact ⟨n % base, Nat.mod_lt _ (by omega), by simpa using h⟩

theorem underscore_notMem_toDigits_sixteen (n : Nat) : '_' ∉ Nat.toDigits 16 n := by
  have hd : ∀ k < 16, '_' ≠ Nat.digitChar k := by decide
  intro h
  obtain ⟨k, hk, hc⟩ := exists_of_mem_toDigits (by decide) h
  exact hd k hk hc

theorem toDigits_sixteen_inj {n m : Nat} (h : Nat.toDigits 16 n = Nat.toDigits 16 m) : n = m := by
  have hd : ∀ j < 16, ∀ k < 16, Nat.digitChar j = Nat.digitChar k → j = k := by decide
  induction n using Nat.strongRecOn generalizing m with
  | ind n ih =>
    rw [Nat.toDigits_eq_if (by decide), Nat.toDigits_eq_if (n := m) (by decide)] at h
    split at h <;> split at h
    · exact hd n ‹_› m ‹_› (by simpa using h)
    · simpa using congrArg List.length h
    · simpa using congrArg List.length h
    · obtain ⟨hq, hr⟩ := List.append_inj' h rfl
      have := ih _ (by omega) hq
      have := hd _ (by omega) _ (by omega) (List.cons.inj hr).1
      omega

/-! ## Forms of names -/

/-- A label and its number. -/
def numberedName (label : String) (n : Nat) : String := label ++ "_" ++ toString n

/-- What is left of a name, and the number of the cut. -/
def cutName (limit : Nat) (full : String) (n : Nat) : String :=
  String.ofList (full.toList.take (limit - 6) ++ '_' :: Nat.toDigits 16 n)

theorem toList_numberedName (label : String) (n : Nat) :
    (numberedName label n).toList = label.toList ++ '_' :: Nat.toDigits 10 n := by
  simp [numberedName]

theorem numberedName_inj {a b : String} {n m : Nat} (h : numberedName a n = numberedName b m) :
    a = b ∧ n = m := by
  have h := congrArg String.toList h
  rw [toList_numberedName, toList_numberedName] at h
  obtain ⟨hl, hn⟩ := append_underscore_inj Nat.underscore_not_in_toDigits
    Nat.underscore_not_in_toDigits h
  refine ⟨String.toList_inj.mp hl, ?_⟩
  rw [← Nat.ofDigitChars_ten_toDigits (n := n), hn, Nat.ofDigitChars_ten_toDigits]

theorem cutName_inj {limit : Nat} {a b : String} {n m : Nat}
    (h : cutName limit a n = cutName limit b m) : n = m := by
  have h := String.ofList_inj.mp h
  exact toDigits_sixteen_inj (append_underscore_inj (underscore_notMem_toDigits_sixteen n)
    (underscore_notMem_toDigits_sixteen m) h).2

/-- A cut leaves more characters than a name without one may have. -/
theorem limit_lt_length_cutName {limit : Nat} {full : String} {n : Nat}
    (h : limit < full.length + 6) : limit < (cutName limit full n).length + 6 := by
  have := Nat.length_toDigits_pos (b := 16) (n := n)
  have : full.toList.length = full.length := String.length_toList
  simp [cutName]
  omega

/-- The names for labels from some point on: numbers are greater than those already given. -/
theorem mem_slotNamesFrom {limit : Nat} {seen : List String} {cuts : Nat} {labels : List String}
    {x : String} (h : x ∈ slotNamesFrom limit seen cuts labels) :
    (∃ label ∈ labels, ∃ n, seen.count label < n ∧ x = numberedName label n ∧
      x.length + 6 ≤ limit) ∨
    (∃ full n, cuts < n ∧ x = cutName limit full n ∧ limit < x.length + 6) := by
  induction labels generalizing seen cuts with
  | nil => simp [slotNamesFrom] at h
  | cons label labels ih =>
    simp only [slotNamesFrom] at h
    split at h
    · rename_i hlong
      rcases List.mem_cons.mp h with rfl | h
      · exact .inr ⟨_, cuts + 1, by omega, rfl, limit_lt_length_cutName hlong⟩
      · rcases ih h with ⟨l, hl, n, hn, hx⟩ | ⟨full, n, hn, hx⟩
        · exact .inl ⟨l, List.mem_cons_of_mem label hl, n, by grind, hx⟩
        · exact .inr ⟨full, n, by omega, hx⟩
    · rename_i hshort
      rcases List.mem_cons.mp h with rfl | h
      · exact .inl ⟨label, List.mem_cons_self, _, by omega, rfl, by omega⟩
      · rcases ih h with ⟨l, hl, n, hn, hx⟩ | ⟨full, n, hn, hx⟩
        · exact .inl ⟨l, List.mem_cons_of_mem label hl, n, by grind, hx⟩
        · exact .inr ⟨full, n, hn, hx⟩

theorem nodup_slotNamesFrom (limit : Nat) (seen : List String) (cuts : Nat)
    (labels : List String) : (slotNamesFrom limit seen cuts labels).Nodup := by
  induction labels generalizing seen cuts with
  | nil => exact List.nodup_nil
  | cons label labels ih =>
    simp only [slotNamesFrom]
    split
    · rename_i hlong
      refine List.nodup_cons.mpr ⟨fun h => ?_, ih _ _⟩
      have hlen := limit_lt_length_cutName (n := cuts + 1) hlong
      rcases mem_slotNamesFrom h with ⟨l, -, n, _, _, hshort⟩ | ⟨full, n, hn, hx, _⟩
      · exact absurd hshort (Nat.not_le_of_lt hlen)
      · have := cutName_inj hx
        omega
    · rename_i hshort
      refine List.nodup_cons.mpr ⟨fun h => ?_, ih _ _⟩
      rcases mem_slotNamesFrom h with ⟨l, -, n, hn, hx, _⟩ | ⟨full, n, _, _, hlong⟩
      · obtain ⟨rfl, rfl⟩ := numberedName_inj hx
        simp at hn
      · exact absurd hlong hshort

theorem nodup_slotNames (d : Dialect) (ps : List Piece) : (slotNames d ps).Nodup :=
  nodup_slotNamesFrom _ _ _ _

theorem length_slotNames (d : Dialect) (ps : List Piece) :
    (slotNames d ps).length = (ps.filterMap Piece.label?).length := by
  have go (limit : Nat) (labels : List String) : ∀ seen cuts,
      (slotNamesFrom limit seen cuts labels).length = labels.length := by
    induction labels with
    | nil => intros; rfl
    | cons label labels ih =>
      intro seen cuts
      simp only [slotNamesFrom]
      split <;> simp [ih]
  exact go _ _ _ _

/-! ## White space in names -/

theorem not_stuck_toDigits {base : Nat} (h : 1 < base) (hle : base ≤ 16) (n : Nat) :
    (Nat.toDigits base n).any Text.isBlank = false := by
  have hd : ∀ k < 16, Text.isBlank (Nat.digitChar k) = false := by decide
  rw [List.any_eq_false]
  intro c hc
  obtain ⟨k, hk, rfl⟩ := exists_of_mem_toDigits h hc
  simp [hd k (by omega)]

theorem isStuck_numberedName {label : String} (h : isStuck label = false) (n : Nat) :
    isStuck (numberedName label n) = false := by
  unfold isStuck at h ⊢
  rw [toList_numberedName, List.any_append, h, List.any_cons,
    not_stuck_toDigits (by decide) (by decide)]
  decide

theorem isStuck_cutName {limit : Nat} {full : String} (h : isStuck full = false) (n : Nat) :
    isStuck (cutName limit full n) = false := by
  have htake : (full.toList.take (limit - 6)).any Text.isBlank = false := by
    rw [List.any_eq_false]
    exact fun c hc => List.any_eq_false.mp h c (List.mem_of_mem_take hc)
  unfold isStuck cutName
  rw [String.toList_ofList, List.any_append, htake, List.any_cons,
    not_stuck_toDigits (by decide) (by decide)]
  decide

/-! ## Names that are spelled as they are -/

theorem lostSpellings_eq_nil {names : List String} (h : ∀ n ∈ names, spelled n = n) :
    lostSpellings names = [] := by
  simpa [lostSpellings] using h

theorem map_spelled {names : List String} (h : ∀ n ∈ names, spelled n = n) :
    names.map spelled = names := by
  simpa using List.map_congr_left (g := id) h

/-- If no key is lost, every name is spelled as it is. -/
theorem spelled_of_not_lost {names : List String}
    (h : ∀ k ∈ names.map spelled, k ∉ lostSpellings names) : ∀ n ∈ names, spelled n = n := by
  intro n hn
  by_contra hne
  refine h (spelled n) (List.mem_map_of_mem hn) ?_
  exact List.mem_map_of_mem (List.mem_filter.mpr ⟨hn, by simpa using hne⟩)

theorem not_clash {style : MarkerStyle} {names : List String} (h : ∀ n ∈ names, spelled n = n) :
    clash style names = false := by
  cases style <;> simp [clash, lostSpellings_eq_nil h]

end SqlFragment
