import ControlLanguage.Proofs.Part.Unwrapping
import ControlLanguage.Proofs.Text.Capital

/-!
# Letter case and the parts of a value

The splitter looks at blanks, slashes, quotes and parentheses, and upper case changes none of them
nor makes any. So **the parts of the upper case of a value are the upper case of its parts**: this
holds of its fields (`fields_upper`) and so of its occurrences, of the parts of a qualified name,
and of what is taken out of parentheses.

It holds even of characters with several capitals, since these are plain.
-/

namespace ControlLanguage

open Text

namespace Part

/-! ### Fields -/

/-- Whether a quoted run, if any, was opened by a quote character. -/
def IsQuoting (s : Nesting) : Prop :=
  ∀ q ∈ s.quote, Nesting.isQuote q = true

/-- Outside of literals a plain character changes nothing. -/
theorem isQuoting_none (d : Int) : IsQuoting ⟨none, d⟩ := by
  intro q hq
  cases hq

theorem isQuoting_outside : IsQuoting .outside :=
  isQuoting_none 0

/-- The nesting stays quoting, whatever comes next. -/
theorem IsQuoting.after {s : Nesting} (hs : IsQuoting s) (c : Char) : IsQuoting (s.after c) := by
  rcases s with ⟨_ | q, d⟩
  · rw [Nesting.after]
    dsimp only
    split_ifs with hquote
    · exact fun q hq ↦ Option.some.inj hq ▸ hquote
    all_goals exact isQuoting_none _
  · rw [Nesting.after]
    dsimp only
    split_ifs
    · exact isQuoting_none _
    · exact hs

/-- A plain character opens and closes nothing. -/
theorem IsQuoting.after_of_isPlain {s : Nesting} (hs : IsQuoting s) {c : Char}
    (hc : isPlain c = true) : s.after c = s := by
  obtain ⟨-, hquote, hopening, hclosing⟩ := isPlain_iff.1 hc
  rcases s with ⟨_ | q, d⟩
  · simp [Nesting.after, hquote, hopening, hclosing]
  · have hne : c ≠ q := by
      rintro rfl
      rw [hs c rfl] at hquote
      exact Bool.noConfusion hquote
    simp [Nesting.after, hne]

/-- A character that upper case changes is plain. -/
theorem isPlain_of_upperChar_ne {c : Char} (h : upperChar c ≠ [c]) : isPlain c = true := by
  refine isPlain_iff.2 ⟨?_, ?_, ?_, ?_⟩
  · obtain ⟨d, ds, hd⟩ := List.exists_cons_of_ne_nil (upperChar_ne_nil c)
    exact Bool.eq_false_iff.2 fun hwhite ↦
      h (upperChar_of_isWhiteSpace (d := d) (by simp [hd]) (Or.inl hwhite))
  · refine Bool.eq_false_iff.2 fun hquote ↦ ?_
    simp only [Nesting.isQuote, Bool.or_eq_true, decide_eq_true_eq] at hquote
    rcases hquote with rfl | rfl <;> exact h (by decide)
  · rintro rfl
    exact h (by decide)
  · rintro rfl
    exact h (by decide)

/-- Whether a separator is not changed by upper case, and nothing else becomes one. -/
def IsCaseless (p : Char → Bool) : Prop :=
  ∀ {c d : Char}, d ∈ upperChar c → p c = true ∨ p d = true → upperChar c = [c]

theorem isCaseless_isBlank : IsCaseless isBlank :=
  fun hd h ↦ upperChar_of_isWhiteSpace hd (h.imp isWhiteSpace_of_isBlank isWhiteSpace_of_isBlank)

/-- No letter has a slash for its capital. -/
theorem isCaseless_slash : IsCaseless (· = '/') := by
  intro c d hd h
  obtain rfl : c = '/' := by
    rcases h with h | h
    · exact of_decide_eq_true h
    · obtain rfl := of_decide_eq_true h
      exact (eq_of_mem_upperChar_of_lt hd (by decide)).symm
  decide

/-- A word belongs to the first field. -/
theorem fields_plain_append {p : Char → Bool} {s : Nesting} (hs : IsQuoting s) {w : Text}
    (hw : ∀ c ∈ w, isPlain c = true ∧ p c = false) (t : Text) :
    fields p s (w ++ t) = (fields p s t).modifyHead (w ++ ·) := by
  induction w with
  | nil => exact (congrFun List.modifyHead_id _).symm
  | cons c w ih =>
    obtain ⟨hplain, hp⟩ := hw c List.mem_cons_self
    rw [List.cons_append, fields_cons_of_not_cut (by simp [hp]), hs.after_of_isPlain hplain,
      ih fun d hd ↦ hw d (List.mem_cons_of_mem c hd), List.modifyHead_modifyHead]
    rfl

/-- A word in front of the first field may be put in upper case with it or by itself. -/
theorem map_upper_modifyHead (w : Text) (fs : List Text) :
    (fs.modifyHead (w ++ ·)).map upper = (fs.map upper).modifyHead (w.upper ++ ·) := by
  cases fs with
  | nil => rfl
  | cons f fs => exact congrArg (· :: fs.map upper) (upper_append w f)

/-- **The fields of the upper case are those of the text, in upper case.** -/
theorem fields_upper {p : Char → Bool} (hp : IsCaseless p) {s : Nesting} (hs : IsQuoting s)
    (t : Text) : fields p s t.upper = (fields p s t).map upper := by
  induction t generalizing s with
  | nil => rfl
  | cons c t ih =>
    rw [upper_cons]
    by_cases hc : upperChar c = [c]
    · rw [hc, List.singleton_append, fields, fields, ih hs, ih (hs.after c)]
      split_ifs
      · rfl
      · rw [show (fields p (s.after c) t).modifyHead (c :: ·) =
          (fields p (s.after c) t).modifyHead ([c] ++ ·) from rfl, map_upper_modifyHead,
          upper_singleton, hc]
        rfl
    · -- both the character and its capitals are passed over
      have hplain := isPlain_of_upperChar_ne hc
      have hcut : p c = false ∧ ∀ d ∈ upperChar c, p d = false := by
        obtain ⟨d, ds, hd⟩ := List.exists_cons_of_ne_nil (upperChar_ne_nil c)
        refine ⟨Bool.eq_false_iff.2 fun h ↦ hc (hp (d := d) (by simp [hd]) (Or.inl h)),
          fun e he ↦ Bool.eq_false_iff.2 fun h ↦ hc (hp he (Or.inr h))⟩
      have hself : fields p s (c :: t) = (fields p s t).modifyHead ([c] ++ ·) :=
        fields_plain_append hs (List.forall_mem_singleton.2 ⟨hplain, hcut.1⟩) t
      rw [fields_plain_append hs fun d hd ↦ ⟨isPlain_of_mem_upperChar hplain hd, hcut.2 d hd⟩,
        ih hs, hself, map_upper_modifyHead, upper_singleton]

theorem map_upper_trim (ts : List Text) :
    (ts.map upper).map Text.trim = (ts.map Text.trim).map upper := by
  rw [List.map_map, List.map_map]
  exact List.map_congr_left fun t _ ↦ trim_upper t

theorem isEmpty_upper (t : Text) : t.upper.isEmpty = t.isEmpty := by
  rw [Bool.eq_iff_iff, List.isEmpty_iff, List.isEmpty_iff, upper_eq_nil_iff]

/-- **A text in upper case has its occurrences in upper case.** -/
theorem occurrences_upper (t : Text) : occurrences t.upper = (occurrences t).map upper := by
  rw [occurrences, occurrences, fields_upper isCaseless_isBlank isQuoting_outside, map_upper_trim,
    List.filter_map]
  exact congrArg (List.map upper) (List.filter_congr fun u _ ↦ congrArg (!·) (isEmpty_upper u))

/-! ### Qualified names -/

/-- Texts may be put in upper case before they are joined or after. -/
theorem upper_intercalate {c : Char} (hc : upperChar c = [c]) (ts : List Text) :
    upper ([c].intercalate ts) = [c].intercalate (ts.map upper) := by
  induction ts with
  | nil => rfl
  | cons t ts ih =>
    by_cases hnil : ts = []
    · rw [hnil]
      exact congrArg upper (List.append_nil t) |>.trans (List.append_nil _).symm
    · rw [intercalate_cons c t hnil, List.map_cons,
        intercalate_cons c _ (mt List.map_eq_nil_iff.1 hnil), upper_append, upper_cons, hc, ih]
      rfl

/-- The limit on the number of parts does not look at letter case. -/
theorem limited_upper (n : Int) (ts : List Text) :
    limited n (ts.map upper) = (limited n ts).map upper := by
  rcases limited_cases n ts with ⟨hlength, h⟩ | ⟨us, vs, rfl, hvs, hus, h⟩
  · rw [h, limited_eq_self (by rw [List.length_map]; omega)]
  · rw [h, List.map_append, limited_append (by rwa [List.length_map])
      (mt List.map_eq_nil_iff.1 hvs), List.map_append, List.map_singleton,
      upper_intercalate (by decide)]

/-- The same texts are empty. -/
theorem dropEmptyEnd_upper (ts : List Text) :
    dropEmptyEnd (ts.map upper) = (dropEmptyEnd ts).map upper := by
  have hempty : (List.isEmpty : Text → Bool) ∘ upper = List.isEmpty := funext isEmpty_upper
  rw [dropEmptyEnd, dropEmptyEnd, ← List.map_reverse, List.dropWhile_map, hempty, List.map_reverse]

/-- **A name in upper case has its parts in upper case.** -/
theorem objectFirst_upper (n : Int) (t : Text) :
    objectFirst n t.upper = (objectFirst n t).map upper := by
  rw [objectFirst, objectFirst, qualified, qualified,
    fields_upper isCaseless_slash isQuoting_outside, limited_upper, map_upper_trim,
    dropEmptyEnd_upper, List.map_reverse]

/-! ### Parentheses -/

/-- A parenthesis stays open over plain characters if it is open in front of them. -/
theorem staysOpen_plain_append {s : Nesting} (hs : IsQuoting s) {w t : Text} (ht : t ≠ [])
    (hw : ∀ c ∈ w, isPlain c = true) (hne : w ≠ []) :
    staysOpen s (w ++ t) = (decide (s.depth ≠ 0) && staysOpen s t) := by
  induction w with
  | nil => exact absurd rfl hne
  | cons c w ih =>
    rw [List.cons_append, staysOpen_cons (List.append_ne_nil_of_right_ne_nil w ht)
      (hs.after_of_isPlain (hw c List.mem_cons_self))]
    by_cases hnil : w = []
    · rw [hnil, List.nil_append]
    · rw [ih (fun d hd ↦ hw d (List.mem_cons_of_mem c hd)) hnil, ← Bool.and_assoc, Bool.and_self]

/-- The first parenthesis is closed at the same place. -/
theorem staysOpen_upper {s : Nesting} (hs : IsQuoting s) (t : Text) :
    staysOpen s (t.upper ++ [')']) = staysOpen s (t ++ [')']) := by
  induction t generalizing s with
  | nil => rfl
  | cons c t ih =>
    have hne : ∀ u : Text, u ++ [')'] ≠ [] := fun u ↦ List.concat_ne_nil _ u
    rw [upper_cons, List.append_assoc]
    by_cases hc : upperChar c = [c]
    · rw [hc, List.singleton_append, List.cons_append, staysOpen_cons (hne _) rfl,
        staysOpen_cons (hne _) rfl, ih (hs.after c)]
    · have hplain := isPlain_of_upperChar_ne hc
      rw [staysOpen_plain_append hs (hne _) (fun d hd ↦ isPlain_of_mem_upperChar hplain hd)
        (upperChar_ne_nil c), List.cons_append, staysOpen_cons (hne _)
        (hs.after_of_isPlain hplain), ih hs]

theorem upper_parenthesised (u : Text) :
    upper ('(' :: (u ++ [')'])) = '(' :: (u.upper ++ [')']) := by
  rw [upper_cons, upper_append]
  rfl

/-- **Letter case does not decide whether a text is in parentheses.** -/
theorem isWrapped_upper (t : Text) : isWrapped t.upper = isWrapped t := by
  have hopen : ∀ u : Text, staysOpen .outside ('(' :: (u.upper ++ [')'])) =
      staysOpen .outside ('(' :: (u ++ [')'])) := by
    intro u
    have hstays := staysOpen_upper isQuoting_outside ('(' :: u)
    rw [upper_cons] at hstays
    exact hstays
  rw [Bool.eq_iff_iff, isWrapped_iff, isWrapped_iff, trim_upper]
  constructor
  · rintro ⟨u, ht, hstays⟩
    have hhead := (head?_upper (d := '(') (by decide) (by decide)).1 (congrArg List.head? ht)
    have hlast := (getLast?_upper (d := ')') (by decide) (by decide)).1
      ((congrArg List.getLast? ht).trans (by rw [← List.cons_append, List.getLast?_concat]))
    obtain ⟨v, hv⟩ := List.head?_eq_some_iff.1 hhead
    rw [hv] at hlast
    obtain ⟨w, rfl⟩ := List.getLast?_eq_some_iff.1 (getLast?_of_cons hlast (by decide)).2
    rw [← ht, hv, upper_parenthesised, hopen] at hstays
    exact ⟨w, hv, hstays⟩
  · rintro ⟨u, ht, hstays⟩
    exact ⟨upper u, by rw [ht, upper_parenthesised], (hopen u).trans hstays⟩

theorem unwrapped_upper (t : Text) : unwrapped t.upper = (unwrapped t).upper := by
  rw [unwrapped, unwrapped, isWrapped_upper, trim_upper]
  split_ifs with h
  · obtain ⟨u, ht, -⟩ := isWrapped_iff.1 h
    rw [ht, upper_parenthesised, List.tail_cons, List.tail_cons, List.dropLast_concat,
      List.dropLast_concat, trim_upper]
  · rfl

/-! ### Characters of the parts -/

/-- The characters of a field are those of the text. -/
theorem mem_of_mem_fields {p : Char → Bool} {s : Nesting} {t f : Text} (hf : f ∈ fields p s t)
    {c : Char} (hc : c ∈ f) : c ∈ t := by
  induction t generalizing s f with
  | nil =>
    rw [fields, List.mem_singleton] at hf
    exact hf ▸ hc
  | cons d t ih =>
    rw [fields] at hf
    split_ifs at hf
    · rcases List.mem_cons.1 hf with rfl | hf
      · cases hc
      · exact List.mem_cons_of_mem d (ih hf hc)
    · obtain ⟨g, gs, hg⟩ :=
        List.exists_cons_of_ne_nil (fields_ne_nil (p := p) (n := s.after d) t)
      rw [hg, List.modifyHead_cons, List.mem_cons] at hf
      rcases hf with rfl | hf
      · rcases List.mem_cons.1 hc with rfl | hc
        · exact List.mem_cons_self
        · exact List.mem_cons_of_mem d (ih (hg ▸ List.mem_cons_self) hc)
      · exact List.mem_cons_of_mem d (ih (hg ▸ List.mem_cons_of_mem g hf) hc)

/-- What each character of a text has, each of an occurrence has. -/
theorem hasCapitals_of_mem_occurrences {t : Text} (ht : HasCapitals t) {o : Text}
    (ho : o ∈ occurrences t) : HasCapitals o := by
  obtain ⟨f, hf, rfl⟩ := List.mem_map.1 (List.mem_filter.1 ho).1
  exact fun c hc ↦ ht c (mem_of_mem_fields hf (mem_of_mem_trim hc))

/-- What holds of texts holds of the joined text, if it is kept where two are joined. -/
theorem intercalate_induction {P : Text → Prop} {c : Char}
    (hjoin : ∀ {t u}, P t → P u → P (t ++ c :: u)) {ts : List Text} (hne : ts ≠ [])
    (h : ∀ t ∈ ts, P t) : P ([c].intercalate ts) := by
  induction ts with
  | nil => exact absurd rfl hne
  | cons t ts ih =>
    obtain ⟨ht, hts⟩ := List.forall_mem_cons.1 h
    by_cases hnil : ts = []
    · rw [hnil, show [c].intercalate [t] = t from List.append_nil t]
      exact ht
    · rw [intercalate_cons _ _ hnil]
      exact hjoin ht (ih hnil hts)

/-- What holds of the fields at slashes holds of the parts of a name, if it holds of joined and of
trimmed texts too. -/
theorem forall_mem_objectFirst {P : Text → Prop} (hjoin : ∀ {f g}, P f → P g → P (f ++ '/' :: g))
    (htrim : ∀ {f : Text}, P f → P f.trim) {n : Int} {t : Text}
    (hfields : ∀ f ∈ fields (· = '/') .outside t, P f) : ∀ u ∈ objectFirst n t, P u := by
  have hlimited : ∀ f ∈ limited n (fields (· = '/') .outside t), P f := by
    rcases limited_cases n (fields (· = '/') .outside t) with ⟨-, h⟩ | ⟨us, vs, heq, hvs, -, h⟩
    · rwa [h]
    · rw [heq] at hfields
      obtain ⟨hus, hvs'⟩ := List.forall_mem_append.1 hfields
      rw [h]
      exact List.forall_mem_append.2
        ⟨hus, List.forall_mem_singleton.2 (intercalate_induction hjoin hvs hvs')⟩
  intro u hu
  rw [objectFirst, List.mem_reverse, qualified, dropEmptyEnd, List.mem_reverse] at hu
  obtain ⟨f, hf, rfl⟩ := List.mem_map.1
    (List.mem_reverse.1 ((List.dropWhile_suffix _).subset hu))
  exact htrim (hlimited f hf)

/-- And each of a part of a name. -/
theorem hasCapitals_of_mem_objectFirst {n : Int} {t : Text} (ht : HasCapitals t) {u : Text}
    (hu : u ∈ objectFirst n t) : HasCapitals u := by
  refine forall_mem_objectFirst (P := HasCapitals) (fun hf hg c hc ↦ ?_) HasCapitals.trim
    (fun f hf c hc ↦ ht c (mem_of_mem_fields hf hc)) u hu
  rw [List.mem_append, List.mem_cons] at hc
  rcases hc with hc | rfl | hc
  · exact hf c hc
  · decide
  · exact hg c hc

end Part

end ControlLanguage
