import ControlLanguage.Proofs.Part.Nested

/-!
# Matching parentheses

Whether one pair of parentheses encloses a text is decided by a scan that counts depth. What the
scan is to find out is a matter of structure: whether the parenthesis at the end is the one that
**matches** the parenthesis at the start. `Nested` says by a grammar which texts have their quotes
closed and their parentheses matched, and a parenthesis is matched where the text in between is
nested (`IsMatch`).

The grammar and the count describe the same texts (`nested_iff`). Behind an opening parenthesis of
such a text there is exactly one match (`existsUnique_isMatch`), and the scan of a text that begins
with a group stays open up to the end exactly if nothing stands behind the group
(`isWrapped_iff_of_group`). Unwrapping is right because of these two.
-/

namespace ControlLanguage

open Text ValueRules

namespace Part

/-- Texts whose quotes are closed and whose parentheses match, put together from their pieces. -/
inductive Nested : Text → Prop where
  | nil : Nested []
  /-- A character that is neither a quote nor a parenthesis. -/
  | plain {c : Char} {t : Text} : Nesting.isQuote c = false → c ≠ '(' → c ≠ ')' → Nested t →
      Nested (c :: t)
  /-- A quoted run: in it quotes of the other kind and parentheses are ordinary characters. -/
  | quoted {q : Char} {run t : Text} : Nesting.isQuote q = true → q ∉ run → Nested t →
      Nested (q :: (run ++ q :: t))
  /-- A group in parentheses. -/
  | group {inside t : Text} : Nested inside → Nested t → Nested ('(' :: (inside ++ ')' :: t))

/-- The closing parenthesis at a position matches the opening one at the start of a text: what
stands between the two is nested. -/
def IsMatch (t : Text) (i : Nat) : Prop :=
  ∃ inside rest, t = '(' :: (inside ++ ')' :: rest) ∧ Nested inside ∧ inside.length + 1 = i

/-! ### The grammar and the count -/

theorem after_outside_of_plain {c : Char} (hquote : Nesting.isQuote c = false) (hopening : c ≠ '(')
    (hclosing : c ≠ ')') : Nesting.outside.after c = .outside := by
  simp [Nesting.after, Nesting.outside, hquote, hopening, hclosing]

theorem after_outside_of_isQuote {q : Char} (hq : Nesting.isQuote q = true) :
    Nesting.outside.after q = ⟨some q, 0⟩ := by
  simp [Nesting.after, Nesting.outside, hq]

/-- A quoted run goes on up to its quote. -/
theorem afterText_run {q : Char} {run : Text} (hrun : q ∉ run) (d : Int) :
    Nesting.afterText ⟨some q, d⟩ run = ⟨some q, d⟩ := by
  induction run with
  | nil => rfl
  | cons c run ih =>
    rw [List.mem_cons, not_or] at hrun
    have hc : Nesting.after ⟨some q, d⟩ c = ⟨some q, d⟩ := if_neg (Ne.symm hrun.1)
    show (Nesting.after ⟨some q, d⟩ c).afterText run = _
    rw [hc, ih hrun.2]

theorem isWellNested_run {q : Char} {run : Text} (hq : Nesting.isQuote q = true) (hrun : q ∉ run) :
    IsWellNested (q :: (run ++ [q])) := by
  have hclosed : Nesting.after ⟨some q, 0⟩ q = .outside := if_pos rfl
  refine ⟨staysNonneg_cons.2 ⟨depth_outside_nonneg, ?_⟩, ?_⟩
  · rw [after_outside_of_isQuote hq, staysNonneg_append, afterText_run hrun, staysNonneg_cons,
      hclosed]
    refine ⟨fun v hv ↦ ?_, Int.le_refl 0, staysNonneg_nil.2 (Int.le_refl 0)⟩
    have hrunning : (Nesting.afterText ⟨some q, 0⟩ v).depth = 0 :=
      congrArg Nesting.depth (afterText_run (fun hmem ↦ hrun (hv.subset hmem)) 0)
    exact Int.le_of_eq hrunning.symm
  · show (Nesting.outside.after q).afterText (run ++ [q]) = .outside
    rw [after_outside_of_isQuote hq, Nesting.afterText_append, afterText_run hrun]
    exact hclosed

theorem Nested.isWellNested {t : Text} (h : Nested t) : IsWellNested t := by
  induction h with
  | nil => exact .nil
  | @plain c t hquote hopening hclosing _ ih =>
    have hc := after_outside_of_plain hquote hopening hclosing
    refine IsWellNested.append (t := [c]) ⟨staysNonneg_cons.2 ⟨depth_outside_nonneg, ?_⟩, hc⟩ ih
    rw [hc]
    exact staysNonneg_nil.2 depth_outside_nonneg
  | @quoted q run t hq hrun _ ih =>
    have hsplit : q :: (run ++ q :: t) = q :: (run ++ [q]) ++ t := by simp
    rw [hsplit]
    exact (isWellNested_run hq hrun).append ih
  | @group inside t _ _ ih ih' =>
    have hsplit : '(' :: (inside ++ ')' :: t) = parenthesised inside ++ t := by simp [parenthesised]
    rw [hsplit]
    exact ih.isUnbroken_parenthesised.isWellNested.append ih'

/-- Only a closing parenthesis closes the last open one. -/
theorem eq_of_depth_after_eq_zero {s : Nesting} {c : Char} (hs : 0 < s.depth)
    (h : (s.after c).depth = 0) : s = opened 1 ∧ c = ')' := by
  rcases s with ⟨_ | q, d⟩
  · have hd : 0 < d := hs
    rw [Nesting.after] at h
    dsimp only at h
    split_ifs at h with hquote hopening hclosing
    · exact absurd h (Int.ne_of_gt hd)
    · exact absurd (show d + 1 = 0 from h) (by omega)
    · have hone : d = 1 := by
        have : d - 1 = 0 := h
        omega
      exact ⟨by rw [hone]; rfl, hclosing⟩
    · exact absurd h (Int.ne_of_gt hd)
  · have hd : 0 < d := hs
    rw [Nesting.after] at h
    dsimp only at h
    split_ifs at h <;> exact absurd h (Int.ne_of_gt hd)

/-- **What is open is closed where the depth is zero for the first time**, and the rest of the text
is well-nested by itself. -/
theorem exists_closing {s : Nesting} {t : Text} (hs : 0 < s.depth) (hnonneg : StaysNonneg s t)
    (hend : s.afterText t = .outside) :
    ∃ u rest, t = u ++ ')' :: rest ∧ s.afterText u = opened 1 ∧
      (∀ v, v <+: u → 0 < (s.afterText v).depth) ∧ IsWellNested rest := by
  induction t generalizing s with
  | nil =>
    have hzero : s = .outside := hend
    rw [hzero] at hs
    exact absurd hs (Int.lt_irrefl 0)
  | cons c t ih =>
    obtain ⟨-, hrest⟩ := staysNonneg_cons.1 hnonneg
    by_cases hzero : (s.after c).depth = 0
    · obtain ⟨rfl, rfl⟩ := eq_of_depth_after_eq_zero hs hzero
      refine ⟨[], t, rfl, rfl, fun v hv ↦ ?_, hrest, hend⟩
      rw [List.prefix_nil.1 hv]
      exact hs
    · have hpos : 0 < (s.after c).depth := by
        have := hrest.depth_nonneg
        omega
      obtain ⟨u, rest, rfl, hu, hprefix, hwell⟩ := ih hpos hrest hend
      refine ⟨c :: u, rest, rfl, hu, fun v hv ↦ ?_, hwell⟩
      rcases List.prefix_cons_iff.1 hv with rfl | ⟨w, rfl, hw⟩
      · exact hs
      · exact hprefix w hw

theorem isWellNested_of_opened {u : Text} (hu : (opened 1).afterText u = opened 1)
    (hpos : ∀ v, v <+: u → 0 < ((opened 1).afterText v).depth) : IsWellNested u := by
  have hdepth : ∀ v, ((opened 1).afterText v).depth = (Nesting.outside.afterText v).depth + 1 :=
    fun v ↦ congrArg Nesting.depth (afterText_raised 1 .outside v)
  refine ⟨fun v hv ↦ ?_, ?_⟩
  · have := hpos v hv
    have := hdepth v
    omega
  · have hraised : raised 1 (Nesting.outside.afterText u) = raised 1 .outside :=
      (afterText_raised 1 .outside u).symm.trans hu
    obtain ⟨hquote, hzero⟩ := Nesting.mk.inj hraised
    exact congrArg₂ Nesting.mk hquote ((Int.add_left_inj 1).1 hzero)

/-- A well-nested text begins with one of the pieces of the grammar; the induction is on its
length. -/
theorem IsWellNested.nested {t : Text} (h : IsWellNested t) : Nested t := by
  induction hn : t.length using Nat.strong_induction_on generalizing t with
  | h n ih =>
    rcases t with _ | ⟨c, t⟩
    · exact .nil
    rw [List.length_cons] at hn
    by_cases hquote : Nesting.isQuote c = true
    · have hend : Nesting.afterText ⟨some c, 0⟩ t = .outside :=
        after_outside_of_isQuote hquote ▸ h.afterText_eq
      have hmem : c ∈ t := by
        by_contra hrun
        rw [afterText_run hrun] at hend
        exact absurd (congrArg Nesting.quote hend) (Option.some_ne_none c)
      obtain ⟨run, rest, rfl, hrun⟩ := List.eq_append_cons_of_mem hmem
      have hsplit : c :: (run ++ c :: rest) = c :: (run ++ [c]) ++ rest := by simp
      rw [hsplit] at h
      rw [List.length_append, List.length_cons] at hn
      have hrest := (h.of_append (isWellNested_run hquote hrun).afterText_eq).2
      exact .quoted hquote hrun (ih rest.length (by omega) hrest rfl)
    by_cases hopening : c = '('
    · subst hopening
      obtain ⟨u, rest, rfl, hu, hpos, hrest⟩ := exists_closing (s := opened 1) Int.one_pos
        (staysNonneg_cons.1 h.staysNonneg).2 h.afterText_eq
      rw [List.length_append, List.length_cons] at hn
      exact .group (ih u.length (by omega) (isWellNested_of_opened hu hpos) rfl)
        (ih rest.length (by omega) hrest rfl)
    by_cases hclosing : c = ')'
    · subst hclosing
      have hnonneg := (staysNonneg_cons.1 h.staysNonneg).2.depth_nonneg
      exact absurd hnonneg (by decide)
    · have hplain := Bool.eq_false_iff.2 hquote
      have hrest := (h.of_append (t := [c]) (after_outside_of_plain hplain hopening hclosing)).2
      exact .plain hplain hopening hclosing (ih t.length (by omega) hrest rfl)

/-- **The grammar and the count describe the same texts.** -/
theorem nested_iff {t : Text} : Nested t ↔ IsWellNested t :=
  ⟨Nested.isWellNested, IsWellNested.nested⟩

/-! ### The match of the first parenthesis -/

/-- A parenthesis is not matched twice. -/
theorem IsWellNested.not_append_closing {u v : Text} (h : IsWellNested u) :
    ¬ IsWellNested (u ++ ')' :: v) := by
  intro hlong
  have hrest := (hlong.of_append h.afterText_eq).2
  exact absurd (staysNonneg_cons.1 hrest.staysNonneg).2.depth_nonneg (by decide)

theorem inside_unique {u u' r r' : Text} (hu : IsWellNested u) (hu' : IsWellNested u')
    (h : u ++ ')' :: r = u' ++ ')' :: r') : u = u' := by
  rcases List.append_eq_append_iff.1 h with ⟨w, rfl, hw⟩ | ⟨w, rfl, hw⟩
  · rcases w with _ | ⟨c, w⟩
    · exact (List.append_nil u).symm
    · obtain ⟨rfl, -⟩ := List.cons.inj hw
      exact absurd hu' hu.not_append_closing
  · rcases w with _ | ⟨c, w⟩
    · exact List.append_nil u'
    · obtain ⟨rfl, -⟩ := List.cons.inj hw
      exact absurd hu hu'.not_append_closing

/-- **The first parenthesis of a well-nested text has exactly one match.** -/
theorem existsUnique_isMatch {t : Text} (h : IsWellNested t) (hhead : t.head? = some '(') :
    ∃! i, IsMatch t i := by
  obtain ⟨inside, rest, ht, hinside⟩ :
      ∃ inside rest, t = '(' :: (inside ++ ')' :: rest) ∧ Nested inside := by
    cases h.nested with
    | nil => exact absurd hhead nofun
    | plain _ hopening => exact absurd (Option.some.inj hhead) hopening
    | quoted hq =>
      rw [Option.some.inj hhead] at hq
      exact absurd hq (by decide)
    | group hinside => exact ⟨_, _, rfl, hinside⟩
  refine ⟨inside.length + 1, ⟨inside, rest, ht, hinside, rfl⟩, ?_⟩
  rintro i ⟨inside', rest', ht', hinside', rfl⟩
  rw [ht] at ht'
  rw [inside_unique hinside.isWellNested hinside'.isWellNested (List.cons.inj ht').2]

/-! ### The scan -/

/-- The scan looks at the depth behind each part of the text in front of the last character. -/
theorem staysOpen_iff {s : Nesting} {t : Text} : staysOpen s t = true ↔
    ∀ v w, t = v ++ w → v ≠ [] → w ≠ [] → (s.afterText v).depth ≠ 0 := by
  induction t generalizing s with
  | nil =>
    refine ⟨fun _ v w heq hv _ ↦ ?_, fun _ ↦ rfl⟩
    exact absurd (List.append_eq_nil_iff.1 heq.symm).1 hv
  | cons c t ih =>
    by_cases ht : t = []
    · subst ht
      refine ⟨fun _ v w heq hv hw ↦ ?_, fun _ ↦ rfl⟩
      obtain ⟨d, v, rfl⟩ := List.exists_cons_of_ne_nil hv
      exact absurd (List.append_eq_nil_iff.1 (List.cons.inj heq).2.symm).2 hw
    rw [staysOpen_cons ht rfl, Bool.and_eq_true, decide_eq_true_eq, ih]
    constructor
    · rintro ⟨hfirst, hrest⟩ v w heq hv hw
      obtain ⟨d, v, rfl⟩ := List.exists_cons_of_ne_nil hv
      obtain ⟨rfl, rfl⟩ := List.cons.inj heq
      by_cases hnil : v = []
      · rwa [hnil]
      · exact hrest v w rfl hnil hw
    · exact fun h ↦ ⟨h [c] t rfl (List.cons_ne_nil c []) ht,
        fun v w heq _ hw ↦ h (c :: v) w (by rw [heq]; rfl) (List.cons_ne_nil c v) hw⟩

/-- **A text that begins with a group is enclosed exactly if the group is all of it.** -/
theorem isWrapped_iff_of_group {t u r : Text} (ht : t.trim = '(' :: (u ++ ')' :: r))
    (hu : IsWellNested u) : isWrapped t = true ↔ r = [] := by
  simp only [isWrapped, ht, Bool.and_eq_true, decide_eq_true_eq, staysOpen_iff]
  constructor
  · rintro ⟨-, hopen⟩
    by_contra hr
    refine hopen (parenthesised u) r (by simp [parenthesised]) (List.cons_ne_nil _ _) hr ?_
    rw [hu.isUnbroken_parenthesised.isWellNested.afterText_eq]
    rfl
  · rintro rfl
    refine ⟨⟨⟨by simp, rfl⟩, by simp [List.getLast?_cons]⟩, fun v w heq hv hw ↦ ?_⟩
    -- in front of the last character only the first parenthesis and a part of `u` have been read
    obtain ⟨c, v, rfl⟩ := List.exists_cons_of_ne_nil hv
    obtain ⟨w, d, rfl⟩ := (List.eq_nil_or_concat' w).resolve_left hw
    obtain ⟨rfl, hinside⟩ := List.cons.inj heq
    have hconcat : u ++ [')'] = v ++ w ++ [d] := hinside.trans (List.append_assoc v w [d]).symm
    have hprefix : v <+: u := ⟨w, (List.append_inj_left' hconcat rfl).symm⟩
    exact Int.ne_of_gt (hu.depth_pos hprefix)

theorem isWrapped_eq_false_of_head?_ne {t : Text} (h : t.trim.head? ≠ some '(') :
    isWrapped t = false := by
  simp [isWrapped, h]

/-- A text is enclosed exactly if its last character matches its first one. -/
theorem isWrapped_iff_isMatch {t : Text} (h : IsWellNested t) :
    isWrapped t = true ↔ IsMatch t.trim (t.trim.length - 1) := by
  by_cases hhead : t.trim.head? = some '('
  · obtain ⟨i, ⟨inside, rest, ht, hinside, rfl⟩, hunique⟩ := existsUnique_isMatch h.trim hhead
    have hlength : t.trim.length - 1 = inside.length + 1 + rest.length := by
      rw [ht, List.length_cons, List.length_append, List.length_cons]
      omega
    rw [isWrapped_iff_of_group ht hinside.isWellNested]
    constructor
    · rintro rfl
      rw [hlength]
      exact ⟨inside, [], ht, hinside, rfl⟩
    · intro hmatch
      have hlast := hunique _ hmatch
      exact List.eq_nil_of_length_eq_zero (by omega)
  · rw [isWrapped_eq_false_of_head?_ne hhead]
    refine ⟨nofun, ?_⟩
    rintro ⟨inside, rest, ht, -⟩
    exact absurd (by rw [ht]; rfl) hhead

/-! ### Unwrapping -/

theorem length_trim_le (t : Text) : t.trim.length ≤ t.length :=
  (List.rdropWhile_prefix isWhiteSpace _).length_le.trans
    (List.dropWhile_suffix isWhiteSpace).length_le

/-- The parentheses are taken off: the text gets shorter. -/
theorem unwrapped_ne_trim {t : Text} (h : isWrapped t = true) : unwrapped t ≠ t.trim := by
  have hlength : 2 ≤ t.trim.length := by
    simp only [isWrapped, Bool.and_eq_true, decide_eq_true_eq] at h
    exact h.1.1.1
  intro heq
  have hshorter := length_trim_le t.trim.tail.dropLast
  rw [unwrapped, if_pos h] at heq
  rw [heq, List.length_dropLast, List.length_tail] at hshorter
  omega

theorem unwrapped_parenthesised_of_isWellNested {t : Text} (h : IsWellNested t) :
    unwrapped (parenthesised t) = t.trim := by
  have htrim : (parenthesised t).trim = parenthesised t :=
    trim_of_ink ⟨'(', t ++ [')'], rfl, by decide⟩ ⟨'(' :: t, ')', rfl, by decide⟩
  rw [unwrapped, if_pos ((isWrapped_iff_of_group htrim h).2 rfl), htrim]
  show Text.trim (t ++ [')']).dropLast = t.trim
  rw [List.dropLast_concat]

/-- **Unwrapping is exact on well-nested texts.** The parenthesis at the start of the trimmed text
has one match. If that is the last character, the trimmed inside is what is left; otherwise the
trimmed text is, and the test for parentheses that enclose the text, which asks whether anything
was taken off, tells the two cases apart. What is put in parentheses is taken out of them. -/
theorem unwrapped_of_isWellNested {t : Text} (h : IsWellNested t) :
    (t.trim.head? = some '(' → ∃! i, IsMatch t.trim i) ∧
      (IsMatch t.trim (t.trim.length - 1) → unwrapped t = Text.trim t.trim.tail.dropLast) ∧
      (¬ IsMatch t.trim (t.trim.length - 1) → unwrapped t = t.trim) ∧
      (unwrapped t ≠ t.trim ↔ IsMatch t.trim (t.trim.length - 1)) ∧
      (isWrapped t = true ↔ IsMatch t.trim (t.trim.length - 1)) ∧
      unwrapped (parenthesised t) = t.trim := by
  have hmatch := isWrapped_iff_isMatch h
  have houter : ¬ IsMatch t.trim (t.trim.length - 1) → unwrapped t = t.trim := by
    intro hnot
    rw [unwrapped, if_neg (mt hmatch.1 hnot)]
  refine ⟨existsUnique_isMatch h.trim, fun hlast ↦ ?_, houter, ⟨fun hne ↦ ?_, fun hlast ↦ ?_⟩,
    hmatch, unwrapped_parenthesised_of_isWellNested h⟩
  · rw [unwrapped, if_pos (hmatch.2 hlast)]
  · by_contra hnot
    exact hne (houter hnot)
  · exact unwrapped_ne_trim (hmatch.2 hlast)

/-- Parentheses in quotes of both kinds do not count, and of two groups side by side neither
encloses the text. -/
theorem unwrapped_of_isWellNested_groups :
    let t := " ((a) \x22it's )\x22 b ) ".toList
    let u := "(')' a) (b)".toList
    (IsWellNested t ∧ IsWellNested u) ∧ unwrapped t = "(a) \x22it's )\x22 b".toList ∧
      unwrapped u = u ∧ unwrapped (parenthesised u) = u := by
  intro t u
  have ht : IsWellNested t := by decide +kernel
  have hu : IsWellNested u := by decide +kernel
  obtain ⟨-, hinside, -, -, hwrapped, -⟩ := unwrapped_of_isWellNested ht
  obtain ⟨-, -, houter, -, hgroups, henclosed⟩ := unwrapped_of_isWellNested hu
  have hlast := hwrapped.1 (by decide +kernel)
  have hnot : ¬ IsMatch (Text.trim u) ((Text.trim u).length - 1) := mt hgroups.2 (by decide +kernel)
  have htrim : Text.trim u = u := by decide +kernel
  exact ⟨⟨ht, hu⟩, (hinside hlast).trans (by decide +kernel), (houter hnot).trans htrim,
    henclosed.trans htrim⟩

end Part

end ControlLanguage
