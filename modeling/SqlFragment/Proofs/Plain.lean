import Mathlib.Data.List.Infix
import SqlFragment.Statement.Writing

/-!
Names in which reading finds neither markers nor the places of lists. A statement whose names are
all plain is read as it stands.
-/
namespace SqlFragment

/-- Whether reading leaves characters as they are: no marker stands in them, and none that begins in
them is still open where they end. -/
def staysText : Bool → List Char → Bool
  | opened, [] => !opened
  | false, '%' :: '(' :: cs => staysText true cs
  | true, ')' :: 's' :: _ => false
  | true, ')' :: cs => staysText false cs
  | opened, _ :: cs => staysText opened cs

/-- A name that holds no marker, no start of one, and no place of a list. -/
def IsPlainName (s : String) : Prop :=
  staysText false s.toList = true ∧ ¬slotStart.toList <:+: s.toList

instance (s : String) : Decidable (IsPlainName s) := inferInstanceAs (Decidable (_ ∧ _))

/-! ## What reading passes over -/

/-- Glyphs that stay as they are, whatever follows them. -/
structure Passes (gs : List Glyph) : Prop where
  markers : ∀ found rest, readMarkers found none (gs ++ rest) = gs ++ readMarkers found none rest
  slots : ∀ rest, readSlots 0 (gs ++ rest) = gs ++ readSlots 0 rest

namespace Passes

theorem nil : Passes [] := ⟨fun _ _ => rfl, fun _ => rfl⟩

theorem append {as bs : List Glyph} (ha : Passes as) (hb : Passes bs) : Passes (as ++ bs) where
  markers found rest := by
    rw [List.append_assoc, ha.markers, hb.markers, List.append_assoc]
  slots rest := by
    rw [List.append_assoc, ha.slots, hb.slots, List.append_assoc]

theorem flatMap {α : Type} {f : α → List Glyph} {xs : List α} (h : ∀ x ∈ xs, Passes (f x)) :
    Passes (xs.flatMap f) := by
  induction xs with
  | nil => exact nil
  | cons x xs ih =>
    exact (h x List.mem_cons_self).append (ih fun y hy => h y (List.mem_cons_of_mem x hy))

theorem readMarkers_eq {gs : List Glyph} (h : Passes gs) (found : String → Option Mark) :
    readMarkers found none gs = gs := by
  simpa [readMarkers] using h.markers found []

theorem readSlots_eq {gs : List Glyph} (h : Passes gs) : readSlots 0 gs = gs := by
  simpa [readSlots] using h.slots []

end Passes

/-- Without a percent sign, a glyph is no start of a marker. -/
theorem readMarkers_cons (found : String → Option Mark) {g : Glyph} (h : g ≠ .char '%')
    (gs : List Glyph) : readMarkers found none (g :: gs) = g :: readMarkers found none gs := by
  rw [readMarkers.eq_def]
  split <;> simp_all

theorem readSlots_cons {g : Glyph} {gs : List Glyph} (h : slotAt (g :: gs) = none) :
    readSlots 0 (g :: gs) = g :: readSlots 0 gs := by
  simp only [readSlots, h]

theorem slotAt_of_ne {g : Glyph} (h : g ≠ .char '_') (gs : List Glyph) : slotAt (g :: gs) = none := by
  have hstart : glyphsAfter slotStart.toList (g :: gs) = none := by
    match g with
    | .char c =>
      have hc : ('_' = c) = False := by
        simpa [eq_comm] using h
      simp [slotStart, glyphsAfter, hc]
    | .marker _ | .slot _ => rfl
  simp [slotAt, hstart]

theorem passes_of_ne {g : Glyph} (hp : g ≠ .char '%') (hu : g ≠ .char '_') : Passes [g] where
  markers found rest := readMarkers_cons found hp rest
  slots rest := readSlots_cons (slotAt_of_ne hu rest)

theorem passes_marker (m : Mark) : Passes [.marker m] := passes_of_ne nofun nofun

theorem passes_slot (key : String) : Passes [.slot key] := passes_of_ne nofun nofun

theorem passes_ofText {s : String} (hp : '%' ∉ s.toList) (hu : '_' ∉ s.toList) :
    Passes (Glyph.ofText s) := by
  rw [Glyph.ofText, List.map_eq_flatMap]
  refine Passes.flatMap fun c hc => passes_of_ne ?_ ?_
  · rintro ⟨⟩
    exact hp hc
  · rintro ⟨⟩
    exact hu hc

/-! ## Markers in quoted names -/

theorem openText_cons (c : Char) (held : List Glyph) :
    openText (.char c :: held) = openText held ++ [.char c] := by
  simp [openText]

theorem readMarkers_char (found : String → Option Mark) {c : Char} {gs : List Glyph}
    (h : c = '%' → gs.head? ≠ some (.char '(')) :
    readMarkers found none (.char c :: gs) = .char c :: readMarkers found none gs := by
  rw [readMarkers.eq_def]
  split <;> simp_all

theorem readMarkers_close (found : String → Option Mark) (held : List Glyph) {gs : List Glyph}
    (h : gs.head? ≠ some (.char 's')) :
    readMarkers found (some held) (.char ')' :: gs) =
      openText held ++ .char ')' :: readMarkers found none gs := by
  rw [readMarkers.eq_def]
  split <;> simp_all

theorem readMarkers_hold (found : String → Option Mark) (held : List Glyph) {c : Char}
    (h : c ≠ ')') (gs : List Glyph) :
    readMarkers found (some held) (.char c :: gs) =
      readMarkers found (some (.char c :: held)) gs := by
  rw [readMarkers.eq_def]
  split <;> simp_all

theorem head?_chars_append (m : Char) (cs : List Char) (rest : List Glyph) :
    (cs.map Glyph.char ++ .char m :: rest).head? = some (Glyph.char ((cs ++ [m]).head (by simp))) := by
  cases cs <;> rfl

/-- Of characters that stay text, up to another one that belongs to no marker, nothing is read;
what was held open before is text as well. -/
theorem readMarkers_staysText (found : String → Option Mark) {m : Char}
    (hm : m ∉ ['%', '(', ')', 's']) (rest : List Glyph) {held? : Option (List Glyph)}
    {cs : List Char} (h : staysText held?.isSome cs = true) :
    readMarkers found held? (cs.map .char ++ .char m :: rest) =
      (held?.map openText).getD [] ++ cs.map .char ++ .char m :: readMarkers found none rest := by
  simp only [List.mem_cons, List.not_mem_nil, or_false, not_or] at hm
  obtain ⟨hpercent, hopen, -, hs⟩ := hm
  generalize ho : held?.isSome = opened at h
  fun_induction staysText opened cs generalizing held? with
  | case1 opened =>
    cases held? with
    | none => exact readMarkers_cons found (by simpa using hpercent) rest
    | some held => simp_all
  | case2 cs ih =>
    obtain rfl : held? = none := by simpa using ho
    have := @ih (some []) rfl h
    simpa [readMarkers, openText] using this
  | case3 => contradiction
  | case4 cs hnext ih =>
    obtain ⟨held, rfl⟩ := Option.isSome_iff_exists.mp ho
    have hhead : (cs.map Glyph.char ++ .char m :: rest).head? ≠ some (Glyph.char 's') := by
      rw [head?_chars_append]
      cases cs with
      | nil => simpa using hs
      | cons c cs => simpa using fun hc : c = 's' => hnext cs (by rw [hc])
    have := @ih none rfl h
    simp only [List.map_cons, List.cons_append, readMarkers_close found held hhead, this]
    simp
  | case5 opened c cs hstart _ hclose ih =>
    cases held? with
    | none =>
      have hhead : c = '%' → (cs.map Glyph.char ++ .char m :: rest).head? ≠ some (Glyph.char '(') := by
        rintro rfl
        rw [head?_chars_append]
        cases cs with
        | nil => simpa using hopen
        | cons c cs =>
          simpa using fun hc : c = '(' => hstart cs (by simpa using ho.symm) rfl (by rw [hc])
      have := @ih none ho h
      simp only [List.map_cons, List.cons_append, readMarkers_char found hhead, this]
      simp
    | some held =>
      have hc : c ≠ ')' := hclose (by simpa using ho.symm)
      have := @ih (some (.char c :: held)) ho h
      simp only [List.map_cons, List.cons_append, readMarkers_hold found held hc, this]
      simp [openText_cons]

/-! ## Places of lists in quoted names -/

/-- What is not part of a start cannot be in the middle of one. -/
theorem prefix_of_glyphsAfter {m : Char} {rest gs : List Glyph} {cs as : List Char} (hm : m ∉ cs)
    (h : glyphsAfter cs (as.map .char ++ .char m :: rest) = some gs) : cs <+: as := by
  induction cs generalizing as with
  | nil => exact List.nil_prefix
  | cons c cs ih =>
    simp only [List.mem_cons, not_or] at hm
    cases as with
    | nil => simp [glyphsAfter, Ne.symm hm.1] at h
    | cons a as =>
      simp only [List.map_cons, List.cons_append, glyphsAfter] at h
      split at h
      · subst a
        exact List.cons_prefix_cons.mpr ⟨rfl, ih hm.2 h⟩
      · contradiction

theorem readSlots_of_not_infix {m : Char} (hm : m ∉ slotStart.toList) (rest : List Glyph)
    {cs : List Char} (h : ¬slotStart.toList <:+: cs) :
    readSlots 0 (cs.map .char ++ .char m :: rest) =
      cs.map .char ++ .char m :: readSlots 0 rest := by
  have hnone {as : List Char} (has : as <:+ cs) : slotAt (as.map .char ++ .char m :: rest) = none := by
    cases hg : glyphsAfter slotStart.toList (as.map .char ++ .char m :: rest) with
    | none => simp [slotAt, hg]
    | some gs => exact absurd ((prefix_of_glyphsAfter hm hg).isInfix.trans has.isInfix) h
  induction cs with
  | nil => exact readSlots_cons (by simpa using hnone List.nil_suffix)
  | cons c cs ih =>
    have hc := hnone (List.suffix_refl (c :: cs))
    have htail := ih (fun hi => h (hi.trans (List.suffix_cons c cs).isInfix)) fun has =>
      hnone (has.trans (List.suffix_cons c cs))
    simp only [List.map_cons, List.cons_append] at hc ⊢
    rw [readSlots_cons hc, htail]

/-! ## Quoting -/

/-- The marks that dialects put around names belong to no marker and to no place of a list. -/
theorem Dialect.mark_notMem (d : Dialect) :
    d.mark ∉ ['%', '(', ')', 's'] ∧ d.mark ∉ slotStart.toList := by
  cases d <;> decide

theorem escapeChar_eq (q : Quoting) (c : Char) :
    q.escapeChar c = [c] ∨ q.escapeChar c = [c, c] ∧ (c = q.mark ∨ c = '%') := by
  unfold Quoting.escapeChar
  split
  · exact .inr ⟨rfl, by simp_all; grind⟩
  · exact .inl rfl

theorem head?_escaped (q : Quoting) (cs : List Char) :
    (cs.flatMap q.escapeChar).head? = cs.head? := by
  cases cs with
  | nil => rfl
  | cons c cs => rcases escapeChar_eq q c with h | ⟨h, -⟩ <;> simp [h]

/-- A character that neither begins nor ends a marker where it stands. -/
theorem staysText_cons {opened : Bool} {c : Char} {cs : List Char}
    (hstart : opened = false → c = '%' → cs.head? ≠ some '(')
    (hclose : opened = true → c ≠ ')') : staysText opened (c :: cs) = staysText opened cs := by
  rw [staysText.eq_def]
  split <;> simp_all

theorem staysText_close {cs : List Char} (h : cs.head? ≠ some 's') :
    staysText true (')' :: cs) = staysText false cs := by
  cases cs with
  | nil => rfl
  | cons c cs =>
    have hc : c ≠ 's' := by simpa using h
    simp [staysText, hc]

theorem escapeChar_of_ne {q : Quoting} {c : Char} (hm : c ≠ q.mark) (hp : c ≠ '%') :
    q.escapeChar c = [c] := by
  rcases escapeChar_eq q c with h | ⟨-, h⟩
  · exact h
  · simp_all

/-- Doubling of characters opens and closes no markers. -/
theorem staysText_escaped {q : Quoting} (hq : q.mark ∉ ['%', '(', ')', 's']) {opened : Bool}
    {cs : List Char} (h : staysText opened cs = true) :
    staysText opened (cs.flatMap q.escapeChar) = true := by
  simp only [List.mem_cons, List.not_mem_nil, or_false, not_or] at hq
  obtain ⟨-, hopen, hclosed, hs⟩ := hq
  fun_induction staysText opened cs with
  | case1 => simpa [staysText] using h
  | case2 cs ih =>
    have hparen : q.escapeChar '(' = ['('] := escapeChar_of_ne (Ne.symm hopen) (by decide)
    rcases escapeChar_eq q '%' with hp | ⟨hp, -⟩
    · simpa [hp, hparen, staysText] using ih h
    · simpa [hp, hparen, staysText] using ih h
  | case3 => contradiction
  | case4 cs hnext ih =>
    have hparen : q.escapeChar ')' = [')'] := escapeChar_of_ne (Ne.symm hclosed) (by decide)
    have hhead : (cs.flatMap q.escapeChar).head? ≠ some 's' := by
      rw [head?_escaped]
      cases cs with
      | nil => simp
      | cons c cs => simpa using fun hc : c = 's' => hnext cs (by rw [hc])
    simpa only [List.flatMap_cons, hparen, List.singleton_append, staysText_close hhead] using ih h
  | case5 opened c cs hstart _ hclose ih =>
    have hhead : opened = false → c = '%' → (cs.flatMap q.escapeChar).head? ≠ some '(' := by
      intro ho hc
      rw [head?_escaped]
      cases cs with
      | nil => simp
      | cons c cs => simpa using fun hc' : c = '(' => hstart cs ho hc (by rw [hc'])
    rcases escapeChar_eq q c with hc | ⟨hc, hdouble⟩
    · simpa only [List.flatMap_cons, hc, List.singleton_append, staysText_cons hhead hclose] using
        ih h
    · -- the first of two percent signs is followed by the second, and opens nothing
      have hself : opened = false → c = '%' → (c :: cs.flatMap q.escapeChar).head? ≠ some '(' := by
        rintro - rfl
        simp
      simpa only [List.flatMap_cons, hc, List.cons_append, List.nil_append,
        staysText_cons hself hclose, staysText_cons hhead hclose] using ih h

theorem infix_of_cons {α : Type} {as bs : List α} {b : α} (hb : b ∉ as) (hne : as ≠ [])
    (h : as <:+: b :: bs) : as <:+: bs := by
  rcases List.infix_cons_iff.mp h with hp | hi
  · cases as with
    | nil => contradiction
    | cons a as => exact absurd (List.cons_prefix_cons.mp hp).1 (by simp_all [Ne.symm])
  · exact hi

theorem prefix_of_escaped {q : Quoting} {as cs : List Char} (hm : q.mark ∉ as) (hp : '%' ∉ as)
    (h : as <+: cs.flatMap q.escapeChar) : as <+: cs := by
  induction as generalizing cs with
  | nil => exact List.nil_prefix
  | cons a as ih =>
    simp only [List.mem_cons, not_or] at hm hp
    cases cs with
    | nil => simp at h
    | cons c cs =>
      rcases escapeChar_eq q c with hc | ⟨hc, hdouble⟩
      · simp only [List.flatMap_cons, hc, List.singleton_append, List.cons_prefix_cons] at h ⊢
        exact ⟨h.1, ih hm.2 hp.2 h.2⟩
      · simp only [List.flatMap_cons, hc, List.cons_append, List.cons_prefix_cons] at h
        obtain ⟨rfl, -⟩ := h
        rcases hdouble with rfl | rfl
        · exact absurd rfl hm.1
        · exact absurd rfl hp.1

theorem infix_of_escaped {q : Quoting} {as cs : List Char} (hne : as ≠ []) (hm : q.mark ∉ as)
    (hp : '%' ∉ as) (h : as <:+: cs.flatMap q.escapeChar) : as <:+: cs := by
  induction cs with
  | nil => exact h
  | cons c cs ih =>
    rcases escapeChar_eq q c with hc | ⟨hc, hdouble⟩
    · simp only [List.flatMap_cons, hc, List.singleton_append] at h
      rcases List.infix_cons_iff.mp h with hpre | hi
      · have hpre : as <+: (c :: cs).flatMap q.escapeChar := by
          simpa only [List.flatMap_cons, hc, List.singleton_append] using hpre
        exact (prefix_of_escaped hm hp hpre).isInfix
      · exact (ih hi).trans (List.suffix_cons c cs).isInfix
    · have hnot : c ∉ as := by rcases hdouble with rfl | rfl <;> assumption
      simp only [List.flatMap_cons, hc, List.cons_append, List.nil_append] at h
      exact (ih (infix_of_cons hnot hne (infix_of_cons hnot hne h))).trans
        (List.suffix_cons c cs).isInfix

/-- A plain name is passed over where it stands quoted. -/
theorem passes_quoted {name : String} (h : IsPlainName name) (d : Dialect) (style : MarkerStyle) :
    Passes (Glyph.ofText ((d.quoting style).quote name)) := by
  obtain ⟨hm, hslot⟩ := d.mark_notMem
  have hmark : (d.quoting style).mark = d.mark := rfl
  generalize d.quoting style = q at hmark ⊢
  rw [← hmark] at hm hslot
  have htext : Glyph.ofText (q.quote name) =
      [.char q.mark] ++ ((name.toList.flatMap q.escapeChar).map .char ++ [.char q.mark]) := by
    simp [Glyph.ofText, Quoting.quote, Quoting.quoteChars]
  rw [htext]
  refine (passes_of_ne ?_ ?_).append ⟨fun found rest => ?_, fun rest => ?_⟩
  · simp only [ne_eq, Glyph.char.injEq]
    rintro hp
    simp [hp] at hm
  · simp only [ne_eq, Glyph.char.injEq]
    rintro hu
    exact hslot (by rw [hu]; decide)
  · have hstays : staysText (none : Option (List Glyph)).isSome (name.toList.flatMap q.escapeChar) =
        true := staysText_escaped hm h.1
    simpa using readMarkers_staysText found hm rest hstays
  · have hinfix := fun hi => h.2 (infix_of_escaped (by decide) hslot (by decide) hi)
    simpa using readSlots_of_not_infix hslot rest hinfix

end SqlFragment
