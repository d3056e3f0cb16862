import ControlLanguage.Proofs.Part.LetterCase

/-!
# Any text and its fields

The splitter is total: it also cuts a text whose quotes or parentheses do not match. What it cuts
out has no free separator, and **all fields but the last one leave nothing open**, since a separator
is free only where nothing is open. This is what `IsCut` says of a list of texts, and it is all that
is needed for the list to be cut apart again after it was joined (`IsCut.fields_intercalate`).

Of joined texts the occurrences are those that are not empty (`IsCut.occurrences_joinBlank`).
-/

namespace ControlLanguage

open Text

namespace Nesting

theorem afterText_append (s : Nesting) (t u : Text) :
    s.afterText (t ++ u) = (s.afterText t).afterText u :=
  List.foldl_append

/-- A character is free outside of literals and parentheses only. -/
theorem eq_outside_of_isFree {s : Nesting} {c : Char} (h : s.isFree c = true) : s = outside := by
  simp only [isFree, Bool.and_eq_true, decide_eq_true_eq] at h
  exact h.1.1.1

/-- A free character opens and closes nothing. -/
theorem after_of_isFree {s : Nesting} {c : Char} (h : s.isFree c = true) : s.after c = outside := by
  obtain rfl := eq_outside_of_isFree h
  simp only [isFree, Bool.and_eq_true, Bool.not_eq_true', decide_eq_true_eq] at h
  obtain ⟨⟨⟨-, hquote⟩, hopening⟩, hclosing⟩ := h
  simp [after, outside, hquote, hopening, hclosing]

theorem isFree_outside_of_isBlank {c : Char} (h : isBlank c = true) : outside.isFree c = true := by
  simp only [isBlank, Bool.or_eq_true, decide_eq_true_eq] at h
  rcases h with rfl | rfl <;> decide

end Nesting

namespace Part

/-- Which quotes count does not change along a text. -/
theorem IsQuoting.afterText {s : Nesting} (hs : IsQuoting s) (t : Text) :
    IsQuoting (s.afterText t) := by
  induction t generalizing s with
  | nil => exact hs
  | cons c t ih => exact ih (hs.after c)

/-- White space opens and closes nothing. -/
theorem IsQuoting.after_of_isWhiteSpace {s : Nesting} (hs : IsQuoting s) {c : Char}
    (hc : isWhiteSpace c = true) : s.after c = s := by
  have hne : ∀ {d : Char}, isWhiteSpace d = false → c ≠ d := by
    rintro d hd rfl
    rw [hc] at hd
    exact Bool.noConfusion hd
  have hquote : Nesting.isQuote c = false := by
    simp [Nesting.isQuote, hne (d := '\x27') (by decide), hne (d := '"') (by decide)]
  rcases s with ⟨_ | q, d⟩
  · simp [Nesting.after, hquote, hne (d := '(') (by decide), hne (d := ')') (by decide)]
  · have hq : c ≠ q := by
      rintro rfl
      rw [hs c rfl] at hquote
      exact Bool.noConfusion hquote
    simp [Nesting.after, hq]

theorem IsQuoting.afterText_of_isWhite {s : Nesting} (hs : IsQuoting s) {w : Text}
    (hw : IsWhite w) : s.afterText w = s := by
  induction w with
  | nil => rfl
  | cons c w ih =>
    show (s.after c).afterText w = s
    rw [hs.after_of_isWhiteSpace (hw c List.mem_cons_self)]
    exact ih fun d hd ↦ hw d (List.mem_cons_of_mem c hd)

/-- Plain characters change no nesting. -/
theorem IsQuoting.afterText_of_isPlain {s : Nesting} (hs : IsQuoting s) {w : Text}
    (hw : ∀ c ∈ w, isPlain c = true) : s.afterText w = s := by
  induction w with
  | nil => rfl
  | cons c w ih =>
    show (s.after c).afterText w = s
    rw [hs.after_of_isPlain (hw c List.mem_cons_self)]
    exact ih fun d hd ↦ hw d (List.mem_cons_of_mem c hd)

/-- White space, the trimmed text, and white space again. -/
theorem exists_trim_eq (t : Text) : ∃ w w', IsWhite w ∧ IsWhite w' ∧ t = w ++ (t.trim ++ w') := by
  obtain ⟨w, hw, ht⟩ := exists_append_trimStart t
  obtain ⟨w', hw', hstart⟩ := exists_trimEnd_append t.trimStart
  exact ⟨w, w', hw, hw', ht.trans (congrArg (w ++ ·) hstart)⟩

/-- White space around a text does not count for the nesting. -/
theorem IsQuoting.afterText_trim {s : Nesting} (hs : IsQuoting s) (t : Text) :
    s.afterText t.trim = s.afterText t := by
  obtain ⟨w, w', hw, hw', ht⟩ := exists_trim_eq t
  conv_rhs => rw [ht]
  rw [Nesting.afterText_append, hs.afterText_of_isWhite hw, Nesting.afterText_append,
    (hs.afterText _).afterText_of_isWhite hw']

/-- Upper case opens and closes nothing. -/
theorem IsQuoting.afterText_upper {s : Nesting} (hs : IsQuoting s) (t : Text) :
    s.afterText t.upper = s.afterText t := by
  induction t generalizing s with
  | nil => rfl
  | cons c t ih =>
    rw [upper_cons, Nesting.afterText_append, show s.afterText (c :: t) = (s.after c).afterText t
      from rfl]
    by_cases hc : upperChar c = [c]
    · rw [hc]
      exact ih (hs.after c)
    · have hplain := isPlain_of_upperChar_ne hc
      rw [hs.afterText_of_isPlain fun d hd ↦ isPlain_of_mem_upperChar hplain hd,
        hs.after_of_isPlain hplain, ih hs]

/-- Doubled quotes leave a literal open. -/
theorem afterText_doubled (d : Int) (b : Text) :
    Nesting.afterText ⟨some '\x27', d⟩ (doubled b) = ⟨some '\x27', d⟩ := by
  induction b with
  | nil => rfl
  | cons c b ih =>
    by_cases hc : c = '\x27'
    · rw [hc, doubled_cons_quote]
      exact ih
    · rw [doubled_cons_of_ne hc]
      show Nesting.afterText (Nesting.after _ c) (doubled b) = _
      rw [after_literal_of_ne hc, ih]

/-- A literal is closed again at its end. -/
theorem afterText_quoted (d : Int) (b : Text) :
    Nesting.afterText ⟨none, d⟩ (quoted b) = ⟨none, d⟩ := by
  rw [quoted_eq]
  show Nesting.afterText ⟨some '\x27', d⟩ (doubled b ++ ['\x27']) = _
  rw [Nesting.afterText_append, afterText_doubled]
  rfl

/-! ### Texts without a free separator -/

/-- The splitter, with something open perhaps, does not cut a text. -/
def IsWhole (p : Char → Bool) (s : Nesting) (t : Text) : Prop :=
  fields p s t = [t]

section Whole

variable {p : Char → Bool} {s : Nesting} {t u : Text}

theorem isWhole_nil : IsWhole p s [] :=
  rfl

theorem isWhole_cons {c : Char} :
    IsWhole p s (c :: t) ↔ (s.isFree c && p c) = false ∧ IsWhole p (s.after c) t := by
  rw [IsWhole, fields]
  split_ifs with hcut
  · simp [hcut]
  · rw [IsWhole]
    cases fields p (s.after c) t <;> simp [hcut]

/-- A text is whole if its two halves are, each in its own nesting. -/
theorem isWhole_append :
    IsWhole p s (t ++ u) ↔ IsWhole p s t ∧ IsWhole p (s.afterText t) u := by
  induction t generalizing s with
  | nil => exact (and_iff_right isWhole_nil).symm
  | cons c t ih =>
    rw [List.cons_append, isWhole_cons, isWhole_cons, ih, and_assoc]
    rfl

/-- A text is whole if and only if it has no free separator. -/
theorem isWhole_iff : IsWhole p s t ↔
    ∀ u c v, t = u ++ c :: v → ((s.afterText u).isFree c && p c) = false := by
  constructor
  · rintro h u c v rfl
    exact (isWhole_cons.1 (isWhole_append.1 h).2).1
  · intro h
    induction t generalizing s with
    | nil => exact isWhole_nil
    | cons c t ih =>
      exact isWhole_cons.2 ⟨h [] c t rfl, ih fun u d v heq ↦ h (c :: u) d v (by rw [heq]; rfl)⟩

/-- Where each separator is free if nothing is open, a text is whole if and only if something is
open at each of its separators. -/
theorem isWhole_iff_afterText_ne (hp : ∀ c, p c = true → Nesting.outside.isFree c = true) :
    IsWhole p s t ↔ ∀ {u c v}, t = u ++ c :: v → p c = true → s.afterText u ≠ .outside := by
  rw [isWhole_iff]
  constructor
  · intro h u c v heq hc hend
    have hcut := h u c v heq
    rw [hend, hp c hc, hc] at hcut
    exact Bool.noConfusion hcut
  · intro h u c v heq
    rw [Bool.and_eq_false_iff, or_iff_not_imp_right, Bool.not_eq_false]
    exact fun hc ↦ Bool.eq_false_iff.2 fun hfree ↦ h heq hc (Nesting.eq_outside_of_isFree hfree)

/-- **In a whole text every blank is inside a literal or parentheses.** -/
theorem isWhole_blank_iff : IsWhole isBlank s t ↔
    ∀ {u c v}, t = u ++ c :: v → isBlank c = true → s.afterText u ≠ .outside :=
  isWhole_iff_afterText_ne fun _ ↦ Nesting.isFree_outside_of_isBlank

/-- What is cut out of a text that follows is cut out of both. -/
theorem IsWhole.fields_append (h : IsWhole p s t) (u : Text) :
    fields p s (t ++ u) = (fields p (s.afterText t) u).modifyHead (t ++ ·) := by
  induction t generalizing s with
  | nil => exact (congrFun List.modifyHead_id _).symm
  | cons c t ih =>
    obtain ⟨hc, ht⟩ := isWhole_cons.1 h
    rw [List.cons_append, fields_cons_of_not_cut hc, ih ht, List.modifyHead_modifyHead]
    rfl

/-- A whole text is the first field if it leaves nothing open in front of a separator. -/
theorem IsWhole.fields_append_cons (h : IsWhole p s t) (hend : s.afterText t = .outside) {c : Char}
    (hfree : Nesting.outside.isFree c = true) (hc : p c = true) (u : Text) :
    fields p s (t ++ c :: u) = t :: fields p .outside u := by
  rw [h.fields_append, hend, fields, if_pos (by rw [hfree, hc]; rfl), List.modifyHead_cons,
    List.append_nil]

theorem IsWhole.trim (h : IsWhole p s t) (hs : IsQuoting s) : IsWhole p s t.trim := by
  obtain ⟨w, w', hw, -, ht⟩ := exists_trim_eq t
  rw [ht, isWhole_append, isWhole_append, hs.afterText_of_isWhite hw] at h
  exact h.2.1

/-- A change of case cuts nothing. -/
theorem IsWhole.upper (h : IsWhole p s t) (hp : IsCaseless p) (hs : IsQuoting s) :
    IsWhole p s t.upper := by
  rw [IsWhole, fields_upper hp hs, h]
  rfl

/-- A literal is whole. -/
theorem isWhole_quoted (b : Text) : IsWhole p .outside (quoted b) := by
  have h := Uncut.quoted (p := p) b []
  rw [List.append_nil] at h
  exact h.trans (congrArg (fun f ↦ [f]) (List.append_nil _))

/-- **Either nothing is cut, or the text is cut at its first free separator.** -/
theorem fields_cases (p : Char → Bool) (s : Nesting) (t : Text) :
    IsWhole p s t ∨ ∃ f c r, t = f ++ c :: r ∧ IsWhole p s f ∧ s.afterText f = .outside ∧
      Nesting.outside.isFree c = true ∧ p c = true ∧ fields p s t = f :: fields p .outside r := by
  induction t generalizing s with
  | nil => exact Or.inl isWhole_nil
  | cons c t ih =>
    rcases hcut : s.isFree c && p c with _ | _
    · rcases ih (s.after c) with h | ⟨f, d, r, rfl, hf, hend, hfree, hd, heq⟩
      · exact Or.inl (isWhole_cons.2 ⟨hcut, h⟩)
      · refine Or.inr ⟨c :: f, d, r, rfl, isWhole_cons.2 ⟨hcut, hf⟩, hend, hfree, hd, ?_⟩
        rw [fields_cons_of_not_cut hcut, heq]
        rfl
    · obtain ⟨hfree, hc⟩ := Bool.and_eq_true_iff.1 hcut
      obtain rfl := Nesting.eq_outside_of_isFree hfree
      exact Or.inr ⟨[], c, t, rfl, isWhole_nil, rfl, hfree, hc, by rw [fields, if_pos hcut]⟩

end Whole

/-! ### Lists of fields -/

/-- Whole texts that leave nothing open are cut off from the text they are joined with. -/
theorem fields_intercalate_concat {p : Char → Bool} {c : Char}
    (hfree : Nesting.outside.isFree c = true) (hc : p c = true) {us : List Text}
    (hus : ∀ u ∈ us, IsWhole p .outside u ∧ Nesting.outside.afterText u = .outside) (t : Text) :
    fields p .outside ([c].intercalate (us ++ [t])) = us ++ fields p .outside t := by
  induction us with
  | nil => rw [List.nil_append, List.intercalate_singleton, List.nil_append]
  | cons u us ih =>
    obtain ⟨⟨hwhole, hend⟩, hus⟩ := List.forall_mem_cons.1 hus
    rw [List.cons_append, intercalate_cons c u (List.concat_ne_nil _ _),
      hwhole.fields_append_cons hend hfree hc, ih hus, List.cons_append]

/-- The texts of a list have no free separators, and only the last of them may leave something
open. -/
structure IsCut (p : Char → Bool) (ts : List Text) : Prop where
  isWhole : ∀ t ∈ ts, IsWhole p .outside t
  afterText_eq : ts.Pairwise fun t _ ↦ Nesting.outside.afterText t = .outside

/-- **Fields are cut.** -/
theorem isCut_fields (p : Char → Bool) (t : Text) : IsCut p (fields p .outside t) := by
  induction hn : t.length using Nat.strong_induction_on generalizing t with
  | h n ih =>
    rcases fields_cases p .outside t with h | ⟨f, c, r, rfl, hf, hend, -, -, heq⟩
    · rw [h]
      exact ⟨List.forall_mem_singleton.2 h, List.pairwise_singleton _ _⟩
    · obtain ⟨hwhole, hclosed⟩ := ih r.length (by simp [← hn]; omega) r rfl
      rw [heq]
      exact ⟨List.forall_mem_cons.2 ⟨hf, hwhole⟩, List.pairwise_cons.2 ⟨fun _ _ ↦ hend, hclosed⟩⟩

namespace IsCut

variable {p : Char → Bool} {ts : List Text} (h : IsCut p ts)

include h

theorem filter (q : Text → Bool) : IsCut p (ts.filter q) :=
  ⟨fun t ht ↦ h.isWhole t (List.mem_filter.1 ht).1, h.afterText_eq.filter q⟩

/-- A change that keeps texts whole and closed keeps lists cut. -/
theorem map {f : Text → Text} (hwhole : ∀ t ∈ ts, IsWhole p .outside (f t))
    (hclosed : ∀ t ∈ ts, Nesting.outside.afterText t = .outside →
      Nesting.outside.afterText (f t) = .outside) : IsCut p (ts.map f) :=
  ⟨List.forall_mem_map.2 hwhole,
    List.pairwise_map.2 (h.afterText_eq.imp_of_mem fun ht _ ↦ hclosed _ ht)⟩

/-- **Cut texts that are joined are cut apart again.** -/
theorem fields_intercalate {c : Char} (hfree : Nesting.outside.isFree c = true) (hc : p c = true)
    (hne : ts ≠ []) : fields p .outside ([c].intercalate ts) = ts := by
  obtain ⟨us, t, rfl⟩ := (List.eq_nil_or_concat' ts).resolve_left hne
  have hclosed : ∀ u ∈ us, Nesting.outside.afterText u = .outside :=
    fun u hu ↦ (List.pairwise_append.1 h.afterText_eq).2.2 u hu t (List.mem_singleton_self t)
  have hwhole : ∀ u ∈ us ++ [t], IsWhole p .outside u := h.isWhole
  rw [fields_intercalate_concat hfree hc
    (fun u hu ↦ ⟨hwhole u (List.mem_append_left _ hu), hclosed u hu⟩), hwhole t (by simp)]

end IsCut

/-- **The occurrences of joined texts are those that are not empty.** -/
theorem IsCut.occurrences_joinBlank {ts : List Text} (h : IsCut isBlank ts)
    (htrim : ∀ t ∈ ts, t.trim = t) : occurrences (joinBlank ts) = ts.filter (!·.isEmpty) := by
  by_cases hnil : ts = []
  · rw [hnil]
    rfl
  · have hfields : fields isBlank .outside (joinBlank ts) = ts :=
      h.fields_intercalate (by decide) (by decide) hnil
    rw [occurrences, hfields, List.map_congr_left (g := id) htrim, List.map_id]

/-- There is no white space around a part. -/
theorem trim_of_mem_occurrences {t o : Text} (ho : o ∈ occurrences t) : o.trim = o := by
  obtain ⟨f, -, rfl⟩ := List.mem_map.1 (List.mem_filter.1 ho).1
  exact trim_trim f

theorem ne_nil_of_mem_occurrences {t o : Text} (ho : o ∈ occurrences t) : o ≠ [] := by
  simpa using (List.mem_filter.1 ho).2

/-- Occurrences are cut. -/
theorem isCut_occurrences (t : Text) : IsCut isBlank (occurrences t) := by
  have hfields := isCut_fields isBlank t
  refine (hfields.map (fun f hf ↦ (hfields.isWhole f hf).trim isQuoting_outside)
    fun f _ hf ↦ ?_).filter _
  rw [isQuoting_outside.afterText_trim, hf]

end Part

end ControlLanguage
