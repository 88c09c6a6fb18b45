import SqlFragment.Proofs.Quotation

/-!
The placeholder of a subquery. It is put behind the key that a row is compared with, into a text
that is searched for it later; what else is written there could only hold it within a name.
-/
namespace SqlFragment

/-! ## Parts of a text -/

section Lists

variable {α : Type} {as xs ys : List α} {a : α}

theorem infix_of_append_cons (ha : a ∉ as) (h : as <:+: xs ++ a :: ys) : as <:+: xs ∨ as <:+: ys := by
  rcases List.infix_append_iff.mp h with h | h | ⟨us, vs, rfl, hus, hvs⟩
  · exact .inl h
  · cases as with
    | nil => exact .inl (List.nil_infix)
    | cons b as => exact .inr (infix_of_cons ha (List.cons_ne_nil b as) h)
  · cases vs with
    | nil =>
      rw [List.append_nil]
      exact .inl hus.isInfix
    | cons v vs =>
      obtain ⟨rfl, -⟩ := List.cons_prefix_cons.mp hvs
      exact absurd (List.mem_append_right us List.mem_cons_self) ha

/-- What starts with none of some elements does not start among them. -/
theorem infix_of_append (ha : a ∉ xs) (h : a :: as <:+: xs ++ ys) : a :: as <:+: ys := by
  induction xs with
  | nil => exact h
  | cons x xs ih =>
    rw [List.mem_cons, not_or] at ha
    rcases List.infix_cons_iff.mp h with h | h
    · exact absurd (List.cons_prefix_cons.mp h).1 ha.1
    · exact ih ha.2 h

/-- A list that stands between two others, and in neither, stands there alone. -/
theorem eq_of_append_eq {bs cs : List α} {b c : α} (hb : b ∉ as) (hc : c ∉ as)
    (hbefore : ¬as <:+: bs ++ [b]) (hafter : ¬as <:+: c :: cs)
    (h : xs ++ as ++ ys = bs ++ [b] ++ as ++ c :: cs) : xs = bs ++ [b] ∧ ys = c :: cs := by
  rw [List.append_assoc, List.append_assoc (bs ++ [b])] at h
  rcases List.append_eq_append_iff.mp h with ⟨us, hus, htail⟩ | ⟨us, rfl, htail⟩
  · -- any earlier it would stand in what is before, or hold the last element of that
    rcases us.eq_nil_or_concat' with rfl | ⟨us, u, rfl⟩
    · rw [List.append_nil] at hus
      exact ⟨hus.symm, List.append_cancel_left htail⟩
    · obtain ⟨-, hu⟩ := List.append_inj' (hus.trans (List.append_assoc xs us [u]).symm) rfl
      obtain rfl := List.singleton_inj.mp hu
      rcases List.append_eq_append_iff.mp htail with ⟨vs, hvs, -⟩ | ⟨vs, hvs, -⟩
      · exact absurd ⟨xs, vs, by rw [hus, hvs, List.append_assoc]⟩ hbefore
      · exact absurd (by rw [hvs]; simp) hb
  · -- any later it would stand in what is behind, or hold the first element of that
    cases us with
    | nil => exact ⟨List.append_nil _, (List.append_cancel_left htail).symm⟩
    | cons u us =>
      rcases List.append_eq_append_iff.mp htail with ⟨vs, hvs, hrest⟩ | ⟨vs, hvs, hrest⟩
      · exact absurd ⟨vs, ys, by rw [hrest, List.append_assoc]⟩ hafter
      · have hlength := congrArg List.length hvs
        rw [List.length_append, List.length_cons] at hlength
        rcases List.append_eq_append_iff.mp hrest with ⟨ts, hts, -⟩ | ⟨ts, hts, hcs⟩
        · have := congrArg List.length hts
          rw [List.length_append] at this
          omega
        · cases ts with
          | nil =>
            have := congrArg List.length hts
            rw [List.append_nil] at this
            omega
          | cons t ts =>
            obtain ⟨rfl, -⟩ := List.cons.inj hcs
            exact absurd (hts ▸ List.mem_append_right vs List.mem_cons_self) hc

end Lists

theorem replaceFirst_append {as sub bs cs : List Char} (hne : as ≠ [])
    (h : ∀ xs ys, bs ++ as ++ cs = xs ++ as ++ ys → xs = bs) :
    replaceFirst as sub (bs ++ as ++ cs) = bs ++ sub ++ cs := by
  induction bs with
  | nil =>
    obtain ⟨a, as, rfl⟩ := List.exists_cons_of_ne_nil hne
    have hstarts : (a :: as).isPrefixOf ((a :: as) ++ cs) = true :=
      List.isPrefixOf_iff_prefix.mpr (List.prefix_append _ _)
    rw [List.nil_append, List.nil_append, List.cons_append, replaceFirst, ← List.cons_append,
      if_pos hstarts, List.drop_left]
  | cons b bs ih =>
    have hstarts : as.isPrefixOf (b :: (bs ++ as ++ cs)) = false := by
      rw [Bool.eq_false_iff]
      intro hstarts
      obtain ⟨ys, hys⟩ := List.isPrefixOf_iff_prefix.mp hstarts
      exact absurd (h [] ys hys.symm) (List.cons_ne_nil b bs).symm
    rw [List.cons_append, List.cons_append, replaceFirst,
      if_neg (by rw [hstarts]; exact Bool.false_ne_true), ih]
    · rfl
    · intro xs ys heq
      have := h (b :: xs) ys (by rw [List.cons_append, List.cons_append, heq]; rfl)
      exact (List.cons.inj this).2

/-! ## Texts brought on one line, and renumbered -/

section Settling

variable {as cs : List Char}

theorem prefix_of_collapse (has : ∀ a ∈ as, Text.isBlank a = false)
    (h : as <+: Text.collapseFrom false cs) : as <+: cs := by
  induction cs generalizing as with
  | nil => exact h
  | cons c cs ih =>
    cases as with
    | nil => exact List.nil_prefix
    | cons a as =>
      obtain ⟨ha, has⟩ := List.forall_mem_cons.mp has
      rw [Text.collapseFrom] at h
      split at h
      · rw [collapseFrom_true] at h
        split at h
        · exact absurd (List.prefix_nil.mp h) (List.cons_ne_nil a as)
        · obtain ⟨rfl, -⟩ := List.cons_prefix_cons.mp h
          exact absurd ha (by decide)
      · rw [if_neg Bool.false_ne_true] at h
        obtain ⟨rfl, htail⟩ := List.cons_prefix_cons.mp h
        exact List.cons_prefix_cons.mpr ⟨rfl, ih has htail⟩

/-- What has no white space stands in a text on one line only where it stood before. -/
theorem infix_of_collapse (hne : as ≠ []) (has : ∀ a ∈ as, Text.isBlank a = false)
    (h : as <:+: Text.collapseChars cs) : as <:+: cs := by
  have hfrom (gap : Bool) (cs : List Char) (h : as <:+: Text.collapseFrom gap cs) : as <:+: cs := by
    induction cs generalizing gap with
    | nil => exact h
    | cons c cs ih =>
      have hkept (h : as <:+: c :: Text.collapseFrom false cs) : as <:+: c :: cs := by
        rcases List.infix_cons_iff.mp h with h | h
        · cases as with
          | nil => contradiction
          | cons a as =>
            obtain ⟨rfl, htail⟩ := List.cons_prefix_cons.mp h
            have := prefix_of_collapse (List.forall_mem_cons.mp has).2 htail
            exact (List.cons_prefix_cons.mpr ⟨rfl, this⟩).isInfix
        · exact (ih false h).trans (List.suffix_cons c cs).isInfix
      rw [Text.collapseFrom] at h
      split at h
      · exact (ih true h).trans (List.suffix_cons c cs).isInfix
      · split at h
        · refine hkept (infix_of_cons (fun hspace => ?_) hne h)
          exact absurd (has ' ' hspace) (by decide)
        · exact hkept h
  exact (hfrom false _ h).trans (List.dropWhile_suffix _).isInfix

/-- Whether a character is not written for a number. -/
def IsUnnumbered (c : Char) : Prop := c ≠ '-' ∧ ∀ j < 10, c ≠ Nat.digitChar j

theorem not_mem_moved {k : Int} {a : Char} (ha : IsUnnumbered a) (r : Reading) :
    a ∉ r.tokens.flatMap (Token.moved k) := by
  intro hmem
  rcases mem_moved r a hmem with hsign | ⟨j, hj, hdigit⟩
  · exact ha.1 hsign
  · exact ha.2 j hj hdigit

/-- A number that is being read is written first. -/
theorem exists_moved_number (k : Int) (n digits : Nat) (cs : List Char) :
    ∃ x xs, (tokensFrom (.number n digits) cs).flatMap (Token.moved k) = x :: xs ∧
      ¬IsUnnumbered x := by
  have hnumber (n digits : Nat) (ds : List Char) :
      ∃ x xs, (Reading.number n digits).tokens.flatMap (Token.moved k) ++ ds = x :: xs ∧
        ¬IsUnnumbered x := by
    obtain ⟨b, hb, -⟩ := @exists_getLast_number k n digits
    obtain ⟨x, xs, hxs⟩ := List.exists_cons_of_ne_nil (List.ne_nil_of_mem (List.mem_of_getLast? hb))
    refine ⟨x, xs ++ ds, by rw [hxs, List.cons_append], fun hx => ?_⟩
    exact not_mem_moved hx (.number n digits) (hxs ▸ List.mem_cons_self)
  induction cs generalizing n digits with
  | nil =>
    have := hnumber n digits []
    rwa [List.append_nil] at this
  | cons c cs ih =>
    rcases tokensFrom_cons (.number n digits) c with ⟨-, -, n, digits, htail⟩ | htail
    · rw [htail]
      exact ih n digits
    · rw [htail, List.flatMap_append]
      exact hnumber n digits _

theorem prefix_of_moved {k : Int} {r : Reading} (hr : r.tokens = [])
    (has : ∀ a ∈ as, IsUnnumbered a)
    (h : as <+: (tokensFrom r cs).flatMap (Token.moved k)) : as <+: cs := by
  induction cs generalizing as r with
  | nil =>
    rw [tokensFrom, hr] at h
    exact h
  | cons c cs ih =>
    cases as with
    | nil => exact List.nil_prefix
    | cons a as =>
      obtain ⟨ha, has⟩ := List.forall_mem_cons.mp has
      rcases tokensFrom_cons r c with ⟨-, -, n, digits, htail⟩ | htail
      · obtain ⟨x, xs, hxs, hx⟩ := exists_moved_number k n digits cs
        rw [htail, hxs] at h
        obtain ⟨rfl, -⟩ := List.cons_prefix_cons.mp h
        exact absurd ha hx
      · rw [htail, hr] at h
        obtain ⟨rfl, hrest⟩ := List.cons_prefix_cons.mp h
        exact List.cons_prefix_cons.mpr ⟨rfl, ih (tokens_readingAfter a) has hrest⟩

/-- What has no digit stands in a renumbered text only where it stood before. -/
theorem infix_of_moved {k : Int} (hne : as ≠ []) (has : ∀ a ∈ as, IsUnnumbered a)
    (h : as <:+: movedChars k cs) : as <:+: cs := by
  obtain ⟨a, as, rfl⟩ := List.exists_cons_of_ne_nil hne
  obtain ⟨ha, htail⟩ := List.forall_mem_cons.mp has
  have hfrom (r : Reading) (cs : List Char)
      (h : a :: as <:+: (tokensFrom r cs).flatMap (Token.moved k)) : a :: as <:+: cs := by
    induction cs generalizing r with
    | nil => exact absurd (h.subset List.mem_cons_self) (not_mem_moved ha r)
    | cons c cs ih =>
      rcases tokensFrom_cons r c with ⟨-, -, n, digits, hread⟩ | hread
      · rw [hread] at h
        exact (ih _ h).trans (List.suffix_cons c cs).isInfix
      · rw [hread, List.flatMap_append] at h
        rcases List.infix_cons_iff.mp (infix_of_append (not_mem_moved ha r) h) with h | h
        · obtain ⟨rfl, hrest⟩ := List.cons_prefix_cons.mp h
          have := prefix_of_moved (tokens_readingAfter a) htail hrest
          exact (List.cons_prefix_cons.mpr ⟨rfl, this⟩).isInfix
        · exact (ih _ h).trans (List.suffix_cons c cs).isInfix
  exact hfrom .other cs h

end Settling

/-! ## Texts in segments -/

open QueryCompiler (usualPlaceholder)

theorem toList_usualPlaceholder : usualPlaceholder.toList = ['^', '?', '^'] := by decide

section Segments

variable {cs : List Char}

/-- A placeholder has no part in a keyword, nor does one reach into it from a keyword. -/
theorem infix_of_keyword {w : String} (hw : IsKeyword w)
    (hborder : Closes w.toList ∨ cs = [] ∨ Opens cs)
    (h : usualPlaceholder.toList <:+: w.toList ++ cs) : usualPlaceholder.toList <:+: cs := by
  have hmark : '?' ∉ w.toList := fun hmem => absurd (hw _ hmem) (by decide)
  rw [toList_usualPlaceholder] at h ⊢
  rcases List.infix_append_iff.mp h with h | h | ⟨us, vs, hparts, hus, hvs⟩
  · exact absurd (h.subset (by decide)) hmark
  · exact h
  · have hfirst : '?' ∉ us := fun hmem => hmark (hus.subset hmem)
    rcases us with - | ⟨u, - | ⟨v, us⟩⟩
    · exact hparts ▸ hvs.isInfix
    · obtain ⟨rfl, rfl⟩ := List.cons.inj hparts
      obtain ⟨ws, hws⟩ := hus
      obtain ⟨rest, hrest⟩ := hvs
      rcases hborder with ⟨c, hc, hb⟩ | hnil | ⟨c, hc, hb⟩
      · rw [← hws, List.getLast?_concat] at hc
        obtain rfl := Option.some.inj hc
        exact absurd hb (by decide)
      · rw [hnil] at hrest
        cases hrest
      · rw [← hrest] at hc
        obtain rfl := Option.some.inj hc
        exact absurd hb (by decide)
    · obtain ⟨rfl, -⟩ := List.cons.inj (List.cons.inj hparts).2
      exact absurd (List.mem_cons_of_mem _ List.mem_cons_self) hfirst

theorem infix_of_quoted {q : Quoting} (hq : q.mark ∉ usualPlaceholder.toList) {name : List Char}
    (h : usualPlaceholder.toList <:+: q.quoteChars name ++ cs) :
    usualPlaceholder.toList <:+: name ∨ usualPlaceholder.toList <:+: cs := by
  have hne : usualPlaceholder.toList ≠ [] := by decide
  rw [Quoting.quoteChars, List.append_assoc] at h
  rcases infix_of_append_cons hq (infix_of_cons hq hne h) with h | h
  · exact .inl (infix_of_escaped hne hq (by decide) h)
  · exact .inr h

theorem not_mem_mark (style : MarkerStyle) (n : Nat) : '^' ∉ (style.mark n).toList := by
  have hdigit : ∀ j < 10, '^' ≠ Nat.digitChar j := by decide
  cases style with
  | question => exact (by decide : '^' ∉ "?".toList)
  | percent => exact (by decide : '^' ∉ "%s".toList)
  | dollar =>
    rw [toList_mark_dollar, List.mem_cons, not_or]
    refine ⟨by decide, fun hmem => ?_⟩
    obtain ⟨j, hj, h⟩ := exists_of_mem_toDigits (by decide) hmem
    exact hdigit j hj h

/-- A placeholder among segments stands within one of their names. -/
theorem exists_name_of_infix {d : Dialect} {style : MarkerStyle} {segs : List Segment}
    (h : Segment.Tidy segs)
    (hin : usualPlaceholder.toList <:+: segs.flatMap (Segment.chars d style)) :
    ∃ n ∈ segs.filterMap Segment.name?, usualPlaceholder.toList <:+: n.toList := by
  obtain ⟨hwords, hapart⟩ := h
  induction segs with
  | nil => exact absurd (List.infix_nil.mp hin) (by decide)
  | cons s segs ih =>
    obtain ⟨hs, hwords⟩ := List.forall_mem_cons.mp hwords
    have hborder := @closes_or_opens d style s segs hapart
    have ih := fun hin => ih hin hwords hapart.of_cons
    rw [List.flatMap_cons] at hin
    cases s with
    | word w => exact ih (infix_of_keyword hs hborder hin)
    | name n =>
      have hmark : (d.quoting style).mark ∉ usualPlaceholder.toList := by
        change d.mark ∉ _
        cases d <;> decide
      rcases infix_of_quoted hmark hin with hin | hin
      · exact ⟨n, List.mem_cons_self, hin⟩
      · obtain ⟨m, hm, hin⟩ := ih hin
        exact ⟨m, List.mem_cons_of_mem n hm, hin⟩
    | marker n v => exact ih (infix_of_append (not_mem_mark style n) hin)

end Segments

/-- A placeholder in a compiled text stands within the name of a column. -/
theorem ClauseCompiler.exists_name_of_compile {c : ClauseCompiler} {k : Criteria} {w : Written}
    (hlegible : c.IsLegible k) (hw : c.compile k = .ok w) : ∃ columns, c.referred k = .ok columns ∧
      (usualPlaceholder.toList <:+: w.text.toList →
        ∃ n ∈ columns.flatMap Column.names, usualPlaceholder.toList <:+: n.toList) := by
  have hne : usualPlaceholder.toList ≠ [] := by decide
  have hunnumbered : ∀ a ∈ usualPlaceholder.toList, IsUnnumbered a := by
    have h : IsUnnumbered '^' ∧ IsUnnumbered '?' := by
      unfold IsUnnumbered
      decide
    simp [toList_usualPlaceholder, h]
  have hsolid : ∀ a ∈ usualPlaceholder.toList, Text.isBlank a = false := by
    simp [toList_usualPlaceholder, Text.isBlank]
  obtain ⟨p?, tail, hparts, -, htext, -⟩ := (compile_eq_ok hlegible).mp hw
  obtain ⟨columns, hcolumns, hnames⟩ := exists_referred_of_parts hparts
  refine ⟨columns, hcolumns, fun hin => ?_⟩
  have hline : usualPlaceholder.toList <:+: (c.line (body c.dialect p? tail)).toList := by
    rw [toList_restyled htext] at hin
    split at hin
    · exact infix_of_moved hne hunnumbered hin
    · exact hin
  rw [line, String.toList_ofList] at hline
  have := exists_name_of_infix ((tidy_body hparts).segments _ _)
    (infix_of_collapse hne hsolid hline)
  rwa [filterMap_name_segmentsFrom, hnames] at this

/-! ## Subqueries -/

namespace QueryCompiler

variable {q : QueryCompiler} {d : Dialect} {style : MarkerStyle} {a : Association} {head : String}

/-- The key that the rows of an association are compared with, as it is quoted. -/
def comparedKey (q : QueryCompiler) : Association → String
  | .parentOwnsKey .. => ""
  | .childOwnsKey _ step => q.quoter.quote step.link.childKey
  | .junction _ link _ => q.quoter.quoteColumn link.link.childTable link.link.childKey

theorem exists_head_name {before key : List Segment} (hbefore : Segment.Tidy before)
    (hkey : Segment.Tidy key)
    (hin : usualPlaceholder.toList <:+:
      (Segment.head before key).flatMap (Segment.chars d d.headStyle)) :
    ∃ n ∈ namesIn ((Segment.head before key).flatMap (Segment.decoded d)),
      usualPlaceholder.toList <:+: n.toList := by
  have htidy := tidy_head hbefore hkey
  rw [namesIn_decoded htidy.words]
  exact exists_name_of_infix htidy hin

/-- A head ends with the last part of its key and an equals sign. -/
theorem exists_start {before whole key : List Segment} {text : String} (hkey : key <:+ whole)
    (htext : text.toList = key.flatMap (Segment.chars d d.headStyle)) :
    ∃ start, (Segment.head before whole).flatMap (Segment.chars d d.headStyle) =
      start ++ (text ++ " = ").toList := by
  obtain ⟨rest, rfl⟩ := hkey
  refine ⟨(before ++ Segment.word " WHERE " :: rest).flatMap (Segment.chars d d.headStyle), ?_⟩
  simp only [Segment.head, String.toList_append, htext, List.flatMap_append, List.flatMap_cons,
    List.flatMap_nil, chars_word, List.append_assoc, List.append_nil]

theorem suffix_junctionKeySegments (link target : Link) :
    Segment.column link.childTable link.childKey <:+ link.junctionKeySegments target := by
  unfold Link.junctionKeySegments
  refine List.IsSuffix.trans ?_ (List.suffix_append _ _)
  refine List.IsSuffix.trans ?_ (List.suffix_cons _ _)
  refine List.IsSuffix.trans ?_ (List.suffix_append _ _)
  refine List.IsSuffix.trans ?_ (List.suffix_cons _ _)
  refine List.IsSuffix.trans ?_ (List.suffix_append _ _)
  exact List.suffix_cons _ _

/-- A head is a text that ends with the key and an equals sign, the placeholder, and at most a closing
parenthesis; what stands before the placeholder has another only within a name. -/
theorem HasHead.split (h : q.IsUsual d style) (hhead : q.HasHead a head) :
    ∃ ls start close, HeadOf q a ls ∧ (close = [] ∨ close = [')']) ∧
      head.toList =
        start ++ (q.comparedKey a ++ " = ").toList ++ usualPlaceholder.toList ++ close ∧
      (usualPlaceholder.toList <:+: start ++ (q.comparedKey a ++ " = ").toList →
        ∃ n ∈ namesIn ls, usualPlaceholder.toList <:+: n.toList) := by
  have hplaceholder : q.placeholder = usualPlaceholder := h.placeholder
  cases hhead with
  | @childOwnsKey name step =>
    have hkey : (q.comparedKey (.childOwnsKey name step)).toList =
        step.link.childKeySegments.flatMap (Segment.chars d d.headStyle) := by
      rw [Link.childKeySegments, List.flatMap_singleton]
      exact toList_quote h.quoter _
    obtain ⟨start, hstart⟩ := @exists_start d step.link.childSegments _ _ _ List.suffix_rfl hkey
    refine ⟨_, start, [], .childOwnsKey, .inl rfl, ?_, fun hin => ?_⟩
    · rw [toList_childHead h.quoter, hstart, hplaceholder, List.append_nil]
    · rw [← hstart] at hin
      rw [← @decoded_childHead d]
      exact exists_head_name step.link.tidy_childSegments step.link.tidy_childKeySegments hin
  | @junction name link target table found =>
    have hkey : (q.comparedKey (.junction name link target)).toList =
        (Segment.column link.link.childTable link.link.childKey).flatMap
          (Segment.chars d d.headStyle) := toList_quoteColumn h.quoter _ _
    obtain ⟨start, hstart⟩ := @exists_start d (link.link.junctionSegments target.link
      table.columnNames (q.aliasStart ++ link.link.childKey)) _ _ _
      (suffix_junctionKeySegments link.link target.link) hkey
    refine ⟨_, start, [')'], .junction found, .inr rfl, ?_, fun hin => ?_⟩
    · rw [toList_junctionHead h.quoter, hstart, hplaceholder]
      rfl
    · rw [← hstart] at hin
      rw [← @decoded_junctionHead d]
      exact exists_head_name (link.link.tidy_junctionSegments _ _ _)
        (link.link.tidy_junctionKeySegments _) hin

/-- Behind a head stands what is compiled, if anything is. -/
theorem exists_appended_text (head : String) (query : Query) (text : String) :
    ∃ rest, (appended head query (.text text)).toList = head.toList ++ rest ∧
      (rest = [] ∨ ∃ glue ∈ [" AND ", " "], rest = glue.toList ++ text.toList) := by
  unfold appended
  split
  · exact ⟨[], (List.append_nil _).symm, .inl rfl⟩
  · split
    · refine ⟨" AND ".toList ++ text.toList, ?_, .inr ⟨" AND ", by decide, rfl⟩⟩
      rw [String.toList_append, String.toList_append, List.append_assoc]
      rfl
    · refine ⟨" ".toList ++ text.toList, ?_, .inr ⟨" ", by decide, rfl⟩⟩
      rw [String.toList_append, String.toList_append, List.append_assoc]
      rfl

/-- What follows the placeholder starts apart from it, and has another only where what is compiled
has. -/
theorem exists_after {text : String} {close rest : List Char} (hclose : close = [] ∨ close = [')'])
    (hrest : rest = [] ∨ ∃ glue ∈ [" AND ", " "], rest = glue.toList ++ text.toList) :
    ∃ c cs, close ++ (rest ++ [')']) = c :: cs ∧ c ∉ usualPlaceholder.toList ∧
      (usualPlaceholder.toList <:+: c :: cs → usualPlaceholder.toList <:+: text.toList) := by
  have hfirst : ∃ c cs, close ++ (rest ++ [')']) = c :: cs ∧ c ∉ usualPlaceholder.toList := by
    rcases hclose with rfl | rfl
    · rcases hrest with rfl | ⟨glue, hglue, rfl⟩
      · exact ⟨')', [], rfl, by decide⟩
      · simp only [List.mem_cons, List.not_mem_nil, or_false] at hglue
        rcases hglue with rfl | rfl
        · exact ⟨' ', _, rfl, by decide⟩
        · exact ⟨' ', _, rfl, by decide⟩
    · exact ⟨')', _, rfl, by decide⟩
  obtain ⟨c, cs, hcs, hc⟩ := hfirst
  refine ⟨c, cs, hcs, hc, fun hin => ?_⟩
  rw [← hcs] at hin
  have hend : usualPlaceholder.toList <:+: rest ++ [')'] :=
    infix_of_append (by rcases hclose with rfl | rfl <;> decide) hin
  rcases infix_of_append_cons (by decide) hend with hin | hin
  · rcases hrest with rfl | ⟨glue, hglue, rfl⟩
    · exact absurd (List.infix_nil.mp hin) (by decide)
    · have hsilent : ∀ glue ∈ [" AND ", " "], '^' ∉ glue.toList := by decide
      exact infix_of_append (hsilent glue hglue) hin
  · exact absurd (List.infix_nil.mp hin) (by decide)

/-- Whether a subquery has its placeholder once, behind the key that rows are compared with, and a key
is put there for it and nowhere else. -/
structure StandsOnce (s : Subquery) (key before after : String) : Prop where
  template : s.template = before ++ usualPlaceholder ++ after
  behind : ∃ start, before = start ++ key ++ " = "
  alone : ∀ x y, s.template = x ++ usualPlaceholder ++ y → x = before ∧ y = after
  bind : ∀ k, s.bind k = before ++ k ++ after

theorem standsOnce {s : Subquery} {key before after : String}
    (hplaceholder : s.placeholder = usualPlaceholder)
    (htemplate : s.template = before ++ usualPlaceholder ++ after)
    (hbehind : ∃ start, before = start ++ key ++ " = ")
    (hfirst : ∃ c cs, after.toList = c :: cs ∧ c ∉ usualPlaceholder.toList)
    (hbefore : ¬usualPlaceholder.toList <:+: before.toList)
    (hafter : ¬usualPlaceholder.toList <:+: after.toList) : StandsOnce s key before after := by
  obtain ⟨c, cs, hcs, hc⟩ := hfirst
  have hspace : ∃ bs, before.toList = bs ++ [' '] := by
    obtain ⟨start, rfl⟩ := hbehind
    refine ⟨(start ++ key).toList ++ [' ', '='], ?_⟩
    rw [String.toList_append, List.append_assoc]
    rfl
  obtain ⟨bs, hbs⟩ := hspace
  have hlist : s.template.toList = before.toList ++ usualPlaceholder.toList ++ after.toList := by
    rw [htemplate, String.toList_append, String.toList_append]
  have halone (xs ys : List Char)
      (h : before.toList ++ usualPlaceholder.toList ++ after.toList =
        xs ++ usualPlaceholder.toList ++ ys) : xs = before.toList ∧ ys = after.toList := by
    rw [hbs] at h hbefore ⊢
    rw [hcs] at h hafter ⊢
    exact eq_of_append_eq (by decide) hc hbefore hafter h.symm
  refine ⟨htemplate, hbehind, fun x y h => ?_, fun k => ?_⟩
  · rw [h, String.toList_append, String.toList_append] at hlist
    obtain ⟨hx, hy⟩ := halone _ _ hlist.symm
    exact ⟨String.toList_inj.mp hx, String.toList_inj.mp hy⟩
  · rw [Subquery.bind, hplaceholder, hlist,
      replaceFirst_append (by decide) fun xs ys h => (halone xs ys h).1, String.ofList_append,
      String.ofList_append, String.ofList_toList, String.ofList_toList, String.ofList_toList]

/-- In the subquery of an association whose names hold no placeholder, the placeholder stands once:
behind the key that the rows are compared with, whatever criteria are compiled behind it. Any key put
there for it changes nothing else. -/
theorem placeholder_stands_once {catalog : Catalog} {table aliasStart : String} {start : Int}
    {s : Subquery}
    (hq : create catalog table (.dialect d) none style.name usualPlaceholder aliasStart = .ok q)
    (hs : (q.subqueryOf a start).outcome = .ok (some s))
    (hlegible : q.EachRequest d style (requestsIn (q.subqueryOf a start).events)
      ClauseCompiler.IsLegible) :
    ∃ (table : String) (c : ClauseCompiler) (columns : List Column) (ls : List Lexeme),
      requestsIn (q.subqueryOf a start).events = [(table, start, s.criteria.criteria)] ∧
      ClauseCompiler.create q.catalog table d style start .usual = .ok c ∧
      c.referred s.criteria.criteria = .ok columns ∧ HeadOf q a ls ∧
      ((∀ n ∈ namesIn ls ++ columns.flatMap Column.names,
          ¬usualPlaceholder.toList <:+: n.toList) →
        ∃ before after, StandsOnce s (q.comparedKey a) before after) := by
  have hq := isUsual_of_create hq
  have hrun : q.subqueryOf a start = ⟨(q.subqueryOf a start).events, .ok (some s)⟩ :=
    congrArg (Traced.mk _) hs
  obtain ⟨head, before, c, w, h⟩ := subqueryOf_eq hq hrun
  obtain ⟨table, hserved⟩ := h.served
  rw [hserved.requests, hserved.eachRequest_cons] at hlegible
  obtain ⟨columns, hcolumns, htext⟩ :=
    ClauseCompiler.exists_name_of_compile hlegible.1 hserved.compiled
  obtain ⟨ls, first, close, hls, hclose, hhead, hfirst⟩ := h.hasHead.split hq
  refine ⟨table, c, columns, ls, hserved.requests, hserved.create, hcolumns, hls, fun hnames => ?_⟩
  obtain ⟨hnames, hcolumnNames⟩ := List.forall_mem_append.mp hnames
  obtain ⟨rest, happended, hrest⟩ := exists_appended_text head s.criteria w.text
  obtain ⟨x, xs, hafter, hx, hxs⟩ := exists_after hclose hrest
  refine ⟨"(" ++ String.ofList first ++ q.comparedKey a ++ " = ", String.ofList (x :: xs),
    standsOnce ?_ ?_ ⟨_, rfl⟩ ⟨x, xs, String.toList_ofList, hx⟩ ?_ ?_⟩
  · exact (heads_subqueryOf hq.quoter hs).2.1.trans hq.placeholder
  · apply String.toList_inj.mp
    rw [h.template]
    simp only [String.toList_append, happended, hhead, String.toList_ofList, List.append_assoc,
      ← hafter]
    rfl
  · have hlead : ("(" ++ String.ofList first ++ q.comparedKey a ++ " = ").toList =
        '(' :: (first ++ (q.comparedKey a ++ " = ").toList) := by
      simp only [String.toList_append, String.toList_ofList, List.append_assoc]
      rfl
    rw [hlead]
    intro hin
    obtain ⟨n, hn, hin⟩ := hfirst (infix_of_cons (by decide) (by decide) hin)
    exact hnames n hn hin
  · rw [String.toList_ofList]
    intro hin
    obtain ⟨n, hn, hin⟩ := htext (hxs hin)
    exact hcolumnNames n hn hin

/-- The subquery for origins has one placeholder, behind the origin. -/
theorem placeholder_stands_once_origins : ∃ s before after,
    ((shopQueries .dollar).subqueryOf origins 4).outcome = .ok (some s) ∧
    StandsOnce s "\x22origin\x22" before after := by
  have hlegible := @eachRequest_isLegible _ _ _ _ _ _ (create_shop .dollar) isPlain_shop
  obtain ⟨w, hw, -⟩ := exists_compile_tagged .dollar (.inr rfl)
  obtain ⟨s, hs, -⟩ := exists_subqueryOf hw
  obtain ⟨table, c, columns, ls, -, hcreate, hcolumns, hls, hstands⟩ :=
    placeholder_stands_once (create_shop .dollar) hs (hlegible _)
  have hshop : ∀ r, shop.HasColumn r → ∀ n ∈ r.names, ¬usualPlaceholder.toList <:+: n.toList := by
    rintro ⟨table, name⟩ ⟨t, a, ht, ha, -⟩
    obtain ⟨htable, rfl⟩ := Prod.mk.inj (List.mem_singleton.mp (mem_of_lookup ht))
    obtain rfl := Value.text.inj htable
    obtain ⟨xs, ys, hattributes, -⟩ := List.lookup_eq_some_iff.mp ha
    have hname : name ∈ ["id", "tag", "origin"] := by
      rw [show ["id", "tag", "origin"] = List.map Prod.fst _ from
        congrArg (List.map Prod.fst) hattributes, List.map_append]
      exact List.mem_append_right _ List.mem_cons_self
    have hall : ∀ name ∈ ["id", "tag", "origin"], ∀ n ∈ Column.names ⟨"sales", name⟩,
      ¬usualPlaceholder.toList <:+: n.toList := by decide
    exact hall name hname
  have hcatalog : c.catalog = shop := by
    obtain ⟨-, -, rfl⟩ := map_eq_ok.mp hcreate
    rfl
  have hnames : ∀ n ∈ namesIn ls, ¬usualPlaceholder.toList <:+: n.toList := by
    cases hls
    decide
  obtain ⟨before, after, h⟩ := hstands (List.forall_mem_append.mpr ⟨hnames, fun n hn => by
    obtain ⟨r, hr, hn⟩ := List.mem_flatMap.mp hn
    exact hshop r (hcatalog ▸ ClauseCompiler.hasColumn_of_referred hcolumns r hr) n hn⟩)
  exact ⟨s, before, after, hs, h⟩

end QueryCompiler

end SqlFragment
