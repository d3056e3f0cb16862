import ControlLanguage.Proofs.Parameter.Undivided

/-!
# Parts that are written as they stand

The printer takes a text apart where a list of parts is due, as the reader does, but it does not go
into parentheses: a text in parentheses is written as it was typed, but for its letter case
(`ValueRules.writtenText_of_isWrapped`). What the reader finds in the parentheses is written part by
part. So **a part is written as its value is if and only if it is plain**
(`ElementSpec.IsPlainPart`): in parentheses it stands as it would be written
(`ValueRules.element_text_eq`, `ValueRules.element_text_cases`).
-/

namespace ControlLanguage

open Text ControlLanguage.Part

namespace Text

/-! ### Letter case apart -/

/-- The text in upper case or as it is. -/
def inCase (capital : Bool) (t : Text) : Text :=
  if capital then t.upper else t

section InCase

variable (capital : Bool) {t : Text}

theorem inCase_ne_nil (h : t ≠ []) : t.inCase capital ≠ [] := by
  cases capital
  · exact h
  · exact mt upper_eq_nil_iff.1 h

/-- Parentheses around a text are there in either case. -/
theorem isWrapped_inCase (t : Text) : isWrapped (t.inCase capital) = isWrapped t := by
  cases capital
  · rfl
  · exact isWrapped_upper t

theorem unwrapped_inCase (t : Text) :
    unwrapped (t.inCase capital) = (unwrapped t).inCase capital := by
  cases capital
  · rfl
  · exact unwrapped_upper t

/-- **A text has the same parts in either case.** -/
theorem occurrences_inCase (t : Text) :
    Part.occurrences (t.inCase capital) = (Part.occurrences t).map (inCase capital) := by
  cases capital
  · exact (List.map_id _).symm
  · exact occurrences_upper t

theorem inCase_parenthesised (t : Text) :
    inCase capital (ValueRules.parenthesised t) = ValueRules.parenthesised (t.inCase capital) := by
  cases capital
  · rfl
  · exact Part.upper_parenthesised t

theorem inCase_joinBlank (ts : List Text) :
    (joinBlank ts).inCase capital = joinBlank (ts.map (inCase capital)) := by
  cases capital
  · exact congrArg joinBlank (List.map_id _).symm
  · exact Part.upper_intercalate (by decide) ts

/-- The two cases differ, unless there is nothing to put in upper case. -/
theorem inCase_eq_inCase_iff {b c : Bool} : t.inCase b = t.inCase c ↔ t.upper = t ∨ b = c := by
  cases b <;> cases c <;> simp [inCase, eq_comm]

/-- Texts with the same ink that agree in upper case have the same white space too. -/
theorem eq_of_upper_eq {t u : Text} (hink : ink t = ink u) (h : t.upper = u.upper) : t = u := by
  have hwhite : ∀ {c : Char}, isWhiteSpace c = true → upperChar c = [c] := by
    intro c hc
    by_contra hne
    rw [(isPlain_iff.1 (isPlain_of_upperChar_ne hne)).1] at hc
    exact Bool.noConfusion hc
  have hheads : ∀ {c d : Char} {t u : Text}, isWhiteSpace c = true → isWhiteSpace d = false →
      upper (c :: t) ≠ upper (d :: u) := by
    intro c d t u hc hd heq
    obtain ⟨e, es, he⟩ := List.exists_cons_of_ne_nil (upperChar_ne_nil d)
    rw [upper_cons, upper_cons, hwhite hc, he] at heq
    have hink := isWhiteSpace_of_mem_upperChar hd (he ▸ List.mem_cons_self)
    rw [← (List.cons.inj heq).1, hc] at hink
    exact Bool.noConfusion hink
  induction t generalizing u with
  | nil => exact (upper_eq_nil_iff.1 h.symm).symm
  | cons c t ih =>
    rcases u with _ | ⟨d, u⟩
    · exact absurd (upper_eq_nil_iff.1 h) (List.cons_ne_nil c t)
    rcases hc : isWhiteSpace c with _ | _ <;> rcases hd : isWhiteSpace d with _ | _
    · have hcons : ∀ {c : Char} (t : Text), isWhiteSpace c = false → ink (c :: t) = c :: ink t :=
        fun t hc ↦ List.filter_cons_of_pos (by simp [hc])
      rw [hcons t hc, hcons u hd] at hink
      obtain ⟨rfl, hrest⟩ := List.cons.inj hink
      rw [upper_cons, upper_cons] at h
      rw [ih hrest (List.append_cancel_left h)]
    · exact absurd h.symm (hheads hd hc)
    · exact absurd h (hheads hc hd)
    · have hcons : ∀ {c : Char} (t : Text), isWhiteSpace c = true → ink (c :: t) = ink t :=
        fun t hc ↦ List.filter_cons_of_neg (by simp [hc])
      rw [hcons t hc, hcons u hd] at hink
      rw [upper_cons, upper_cons, hwhite hc, hwhite hd] at h
      obtain ⟨rfl, hrest⟩ := List.cons.inj h
      rw [ih hink hrest]

/-- Two texts with the same ink that agree in one case are the same text. -/
theorem inCase_injective_of_ink {u : Text} (hink : ink t = ink u)
    (h : t.inCase capital = u.inCase capital) : t = u := by
  cases capital
  · exact h
  · exact eq_of_upper_eq hink h

end InCase

end Text

namespace Part

/-- A text without free slashes is a name with one part. -/
theorem objectFirst_of_isWhole (n : Int) {f : Text} (h : IsWhole (· = '/') .outside f)
    (htrim : f.trim = f) (hne : f ≠ []) : objectFirst n f = [f] := by
  have hlast : ∀ t ∈ [f].getLast?, t ≠ [] := by
    rintro t ⟨⟩
    exact hne
  rw [objectFirst, qualified, h, limited_eq_self (Int.le_max_right n 1), List.map_singleton, htrim,
    dropEmptyEnd_eq_self hlast, List.reverse_singleton]

theorem ne_nil_of_isWrapped {f : Text} (hwrapped : isWrapped f = true) : f ≠ [] := by
  rintro rfl
  exact absurd hwrapped (by decide)

/-- No slash stands free in a text in parentheses. -/
theorem objectFirst_of_isWrapped (n : Int) {f : Text} (htrim : f.trim = f)
    (hwrapped : isWrapped f = true) : objectFirst n f = [f] := by
  obtain ⟨u, hu, hopen⟩ := isWrapped_iff.1 hwrapped
  rw [← hu, htrim] at hopen
  refine objectFirst_of_isWhole n (isWhole_slash_iff.2 fun {v w} heq hend ↦ ?_) htrim
    (ne_nil_of_isWrapped hwrapped)
  by_cases hv : v = []
  · rw [← htrim, hu, hv] at heq
    exact absurd (List.cons.inj heq).1 (by decide)
  · exact staysOpen_iff.1 hopen v _ heq hv (List.cons_ne_nil _ _) (by rw [hend]; rfl)

end Part

theorem Part.IsUndivided.inCase {t : Text} (h : IsUndivided t) (capital : Bool) :
    IsUndivided (t.inCase capital) := by
  cases capital
  · exact h
  · exact h.isNeat.upper.isUndivided (mt upper_eq_nil_iff.1 h.ne_nil)

namespace ValueRules

/-- Whether a text in parentheses is put in upper case. -/
def capitalises (rules : ValueRules) (t : Text) : Bool :=
  !isCommandType rules.type && isCapitalised rules.allowed rules.type t

variable (rules : ValueRules)

theorem writtenText_trim (t : Text) : rules.writtenText t.trim = rules.writtenText t := by
  rw [writtenText, writtenText, trim_trim, canonical_trim]

/-- **A text in parentheses is written as it was typed**, but for its letter case. -/
theorem writtenText_of_isWrapped {f : Text} (htrim : f.trim = f) (hwrapped : isWrapped f = true) :
    rules.writtenText f = f.inCase (rules.capitalises f) := by
  obtain ⟨u, hu, -⟩ := isWrapped_iff.1 hwrapped
  rw [htrim] at hu
  have hempty : ¬ ((decide (f = []) || decide (f = ['\x27', '\x27'])) = true) := by
    rw [hu]
    simp
  have hquoted : f.isQuoted = false := by
    rw [hu, isQuoted, List.head?_cons, ← List.cons_append, List.getLast?_concat]
    simp
  have hexpression : f.isExpression = true := by
    have hends : f.upper.head? = some '(' ∧ f.upper.getLast? = some ')' := by
      rw [hu, Part.upper_parenthesised]
      exact ⟨rfl, by rw [← List.cons_append, List.getLast?_concat]⟩
    rw [isExpression, htrim, hends.1, hends.2]
    rfl
  rw [writtenText, capitalises, canonical, htrim, if_neg hempty, hquoted, hexpression]
  cases isCommandType rules.type <;> cases isCapitalised rules.allowed rules.type f <;> rfl

/-! ### What is written for an element of a list -/

/-- What is written for a text that is read as the `i`-th element. -/
def elementAt (read : ElementReader) (elements : List ElementSpec) (i : Nat) (o : Text) :
    Except NoParts Text :=
  rules.element elements[i]? (read elements[i]? o)

/-- The elements of a list are written one by one. -/
theorem elementTexts_readAll (read : ElementReader) (elements : List ElementSpec)
    (os : List Text) : rules.elementTexts elements (read.readAll elements os) =
      (os.mapIdx (rules.elementAt read elements)).mapM id := by
  induction os generalizing elements with
  | nil => rfl
  | cons o os ih =>
    have htail : (fun i ↦ rules.elementAt read elements (i + 1)) =
        rules.elementAt read elements.tail := by
      funext i o
      rw [elementAt, elementAt, List.getElem?_tail]
    rw [ElementReader.readAll, elementTexts, ih, List.mapIdx_cons, htail, List.mapM_cons,
      List.head?_eq_getElem?]
    rfl

theorem mapM_id_eq_ok_iff {xs : List (Except NoParts Text)} {rs : List Text} :
    xs.mapM id = .ok rs ↔ xs = rs.map .ok := by
  constructor
  · intro h
    induction xs generalizing rs with
    | nil =>
      obtain rfl : [] = rs := Except.ok.inj h
      rfl
    | cons x xs ih =>
      rw [List.mapM_cons] at h
      rcases x with e | r
      · cases h
      rcases hxs : xs.mapM id with e | rs'
      · rw [hxs] at h
        cases h
      · rw [hxs] at h
        obtain rfl : r :: rs' = rs := Except.ok.inj h
        rw [ih hxs, List.map_cons]
  · rintro rfl
    induction rs with
    | nil => rfl
    | cons r rs ih =>
      rw [List.map_cons, List.mapM_cons, ih]
      rfl

/-- Elements are written one by one, each under the declaration at its position. -/
theorem elementTexts_readAll_iff {read : ElementReader} {elements : List ElementSpec}
    {os rs : List Text} : rules.elementTexts elements (read.readAll elements os) = .ok rs ↔
      os.mapIdx (rules.elementAt read elements) = rs.map .ok := by
  rw [elementTexts_readAll, mapM_id_eq_ok_iff]

theorem elementTexts_eq_ok_map_iff {read : ElementReader} {elements : List ElementSpec}
    {os : List Text} {k : Text → Text} :
    rules.elementTexts elements (read.readAll elements os) = .ok (os.map k) ↔
      ∀ i : Nat, ∀ o ∈ os[i]?, rules.elementAt read elements i o = .ok (k o) := by
  rw [elementTexts_readAll_iff, List.ext_getElem?_iff]
  refine forall_congr' fun i ↦ ?_
  rw [List.getElem?_mapIdx, List.getElem?_map, List.getElem?_map]
  cases os[i]? <;> simp

/-- A text is written as a list of elements whose inner lists are not read. -/
theorem elementList_text (elements : List ElementSpec) (t : Text) :
    rules.elementList elements (.text t) =
      joinElements <$> rules.elementTexts elements
        (ElementReader.asText.readAll elements (Part.occurrences t)) := by
  rw [ElementReader.readAll_asText, elementList]

/-- A value that was read is written as the list of its elements. -/
theorem elementList_interpretList (elements : List ElementSpec) (t : Text) :
    rules.elementList elements (ElementSpec.interpretList elements t) =
      joinElements <$> rules.elementTexts elements
        (ElementReader.readAll ElementSpec.interpret elements (Part.occurrences t)) := by
  rw [ElementReader.readAll_interpret, ElementSpec.interpretList, elementList]

section Reader

variable {read : ElementReader} {os : List Text}

theorem readAll_eq_mapIdx (read : ElementReader) (elements : List ElementSpec) (os : List Text) :
    read.readAll elements os = os.mapIdx fun i o ↦ read elements[i]? o := by
  induction os generalizing elements with
  | nil => rfl
  | cons o os ih =>
    rw [ElementReader.readAll, ih, List.mapIdx_cons, List.head?_eq_getElem?]
    simp only [List.getElem?_tail]

/-- Something is written for each undivided part of a list. -/
theorem exists_elementTexts_readAll
    (hread : ∀ spec {f}, IsUndivided f → IsElementPart (read spec f)) (elements : List ElementSpec)
    (hos : ∀ o ∈ os, IsUndivided o) :
    ∃ rs, os.mapIdx (rules.elementAt read elements) = rs.map .ok ∧
      rules.elementTexts elements (read.readAll elements os) = .ok rs ∧ ∀ r ∈ rs, IsNeat r := by
  have hparts : ∀ v ∈ read.readAll elements os, ∀ spec,
      ∃ r, rules.element spec v = .ok r ∧ IsNeat r := by
    intro v hv spec
    rw [readAll_eq_mapIdx] at hv
    obtain ⟨i, hi, rfl⟩ := List.mem_mapIdx.1 hv
    exact rules.exists_element spec (hread _ (hos _ (List.getElem_mem hi)))
  obtain ⟨rs, -, hrs, hneat⟩ := rules.exists_elementTexts_of_forall hparts elements
  exact ⟨rs, rules.elementTexts_readAll_iff.1 hrs, hrs, hneat⟩

theorem getElem?_eq_ok {elements : List ElementSpec} {rs : List Text} {i : Nat} {o : Text}
    (ho : os[i]? = some o) (hrs : os.mapIdx (rules.elementAt read elements) = rs.map .ok) :
    ∃ r, rs[i]? = some r ∧ rules.elementAt read elements i o = .ok r := by
  have hi := congrArg (·[i]?) hrs
  simp only [List.getElem?_map, List.getElem?_mapIdx, ho, Option.map_some] at hi
  rcases hr : rs[i]? with _ | r <;> rw [hr] at hi
  · cases hi
  · exact ⟨r, rfl, Option.some.inj hi⟩

end Reader

end ValueRules

/-! ### Lists in parentheses -/

/-- A list in parentheses that stands there as it is written: single blanks separate its parts, and
`P` holds of each part and its position. -/
structure IsWrittenList (P : Nat → Text → Prop) (f : Text) : Prop where
  /-- The parentheses match. -/
  isWrapped : Part.isWrapped f = true
  /-- There is no white space but the single blanks. -/
  spacing : ValueRules.parenthesised (joinBlank (Part.occurrences (unwrapped f))) = f
  /-- Each part is as it should be at its position. -/
  parts : ∀ i : Nat, ∀ o ∈ (Part.occurrences (unwrapped f))[i]?, P i o

namespace ValueRules

variable (rules : ValueRules) {read : ElementReader} {elements : List ElementSpec} {capital : Bool}
  {f : Text}

/-- What is written for a list that the reader finds in parentheses. -/
def listTexts (read : ElementReader) (elements : List ElementSpec) (f : Text) :
    Except NoParts Text :=
  (fun ws ↦ parenthesised (joinElements ws)) <$>
    rules.elementTexts elements (read.readAll elements (Part.occurrences (unwrapped f)))

/-- **A list that stands there as it is written is written so.** -/
theorem listTexts_eq_of_isWrittenList
    (h : IsWrittenList (fun i o ↦ rules.elementAt read elements i o = .ok (o.inCase capital)) f) :
    rules.listTexts read elements f = .ok (f.inCase capital) := by
  have hparts : ∀ w ∈ (Part.occurrences (unwrapped f)).map (inCase capital), w ≠ [] :=
    List.forall_mem_map.2 fun o ho ↦ inCase_ne_nil capital (ne_nil_of_mem_occurrences ho)
  rw [listTexts, rules.elementTexts_eq_ok_map_iff.2 h.parts]
  show Except.ok (parenthesised (joinElements _)) = _
  rw [joinElements_eq hparts, ← inCase_joinBlank, ← inCase_parenthesised, h.spacing]

/-- Between the parts of a list in parentheses there is nothing but white space. -/
theorem ink_parenthesised_occurrences (hf : IsWellNested f) (htrim : f.trim = f)
    (hwrapped : isWrapped f = true) :
    ink (parenthesised (joinBlank (Part.occurrences (unwrapped f)))) = ink f := by
  obtain ⟨u, hu, hinside, -⟩ := hf.exists_of_isWrapped hwrapped
  have henclosed : ∀ v, ink (parenthesised v) = ['('] ++ ink v ++ [')'] := ink_enclosed []
  rw [htrim] at hu
  rw [henclosed, hinside, ink_joinBlank, List.flatMap, ← ink_flatten, ink_flatten_occurrences,
    ink_trim, ← henclosed, ← hu]

/-- Texts that are the placed ones, and are not placeholders, are the written ones. -/
theorem map_eq_of_map_eq_placed {os ws : List Text} {k : Text → Text}
    (hplaced : os.map k = (dropEmptyEnd ws).map placed) (hlength : os.length = ws.length)
    (hplace : ∀ (i : Nat) (o : Text), os[i]? = some o → k o = "*N".toList → ws[i]? ≠ some []) :
    os.map k = ws := by
  have hall : dropEmptyEnd ws = ws := by
    obtain ⟨es, hes, -, -⟩ := exists_dropEmptyEnd ws
    have hcount := congrArg List.length hplaced
    have htotal := congrArg List.length hes
    rw [List.length_map, List.length_map] at hcount
    rw [List.length_append] at htotal
    obtain rfl : es = [] := List.eq_nil_of_length_eq_zero (by omega)
    rw [List.append_nil] at hes
    exact hes.symm
  rw [hall] at hplaced
  refine List.ext_getElem? fun i ↦ ?_
  have hi := congrArg (·[i]?) hplaced
  simp only [List.getElem?_map] at hi ⊢
  rw [hi]
  rcases ho : os[i]? with _ | o <;> rcases hw : ws[i]? with _ | w <;> rw [ho, hw] at hi
  · rfl
  · cases hi
  · cases hi
  · rw [Option.map_some, placed, ite_eq_right_iff.2]
    rintro rfl
    exact absurd hw (hplace i o ho (Option.some.inj hi))

/-- What is written for a list is in parentheses. -/
theorem exists_listTexts (hread : ∀ spec {f}, IsUndivided f → IsElementPart (read spec f))
    (elements : List ElementSpec) (hf : IsUndivided f) :
    ∃ y, rules.listTexts read elements f = .ok y ∧ isWrapped y = true ∧ IsUndivided y := by
  obtain ⟨ws, -, hws, hneat⟩ := rules.exists_elementTexts_readAll hread elements
    fun o ↦ hf.isWellNested.unwrapped.isUndivided
  have hnested := isWellNested_joinElements hneat
  refine ⟨parenthesised (joinElements ws), ?_, isWrapped_parenthesised hnested,
    (IsNeat.parenthesised hnested).isUndivided (List.cons_ne_nil _ _)⟩
  rw [listTexts, hws]
  rfl

/-- And only such a list is. -/
theorem isWrittenList_of_listTexts_eq
    (hread : ∀ spec {f}, IsUndivided f → IsElementPart (read spec f)) (hf : IsUndivided f)
    (hplace : ∀ {o : Text}, o ∈ Part.occurrences (unwrapped f) → o.inCase capital = "*N".toList →
      ∀ spec, rules.element spec (read spec o) ≠ .ok [])
    (h : rules.listTexts read elements f = .ok (f.inCase capital)) :
    IsWrittenList (fun i o ↦ rules.elementAt read elements i o = .ok (o.inCase capital)) f := by
  obtain ⟨ws, hwritten, hws, hneat⟩ := rules.exists_elementTexts_readAll hread elements
    fun o ↦ hf.isWellNested.unwrapped.isUndivided
  have heq : parenthesised (joinElements ws) = f.inCase capital := by
    rw [listTexts, hws] at h
    exact Except.ok.inj h
  have hnested := isWellNested_joinElements hneat
  have hwrapped : isWrapped f = true := by
    rw [← isWrapped_inCase capital, ← heq]
    exact isWrapped_parenthesised hnested
  have hplaced : (Part.occurrences (unwrapped f)).map (inCase capital) =
      (dropEmptyEnd ws).map placed := by
    rw [← occurrences_inCase, ← unwrapped_inCase, ← heq,
      unwrapped_parenthesised_of_isWellNested hnested, joinElements_eq_joinBlank,
      trim_joinBlank_of_isUndivided fun t ↦ isUndivided_of_mem_placed hneat,
      ← joinElements_eq_joinBlank, occurrences_joinElements hneat]
  have hmap : (Part.occurrences (unwrapped f)).map (inCase capital) = ws := by
    refine map_eq_of_map_eq_placed hplaced (by simpa using congrArg List.length hwritten) ?_
    intro i o ho hcase hw
    obtain ⟨r, hr, heq⟩ := rules.getElem?_eq_ok ho hwritten
    obtain rfl : r = [] := Option.some.inj (hr.symm.trans hw)
    exact hplace (List.mem_of_getElem? ho) hcase _ heq
  refine ⟨hwrapped, ?_, rules.elementTexts_eq_ok_map_iff.1 (hmap ▸ hws)⟩
  have hparts : ∀ w ∈ (Part.occurrences (unwrapped f)).map (inCase capital), w ≠ [] :=
    List.forall_mem_map.2 fun o ho ↦ inCase_ne_nil capital (ne_nil_of_mem_occurrences ho)
  rw [← hmap, joinElements_eq hparts, ← inCase_joinBlank, ← inCase_parenthesised] at heq
  exact inCase_injective_of_ink capital
    (ink_parenthesised_occurrences hf.isWellNested hf.trim_eq hwrapped) heq

/-! ### Elements -/

/-- What a text without free slashes is written as: something. -/
theorem qualified_texts_singleton (qualifiers : List QualifierSpec) {o : Text} (ho : o.trim ≠ []) :
    rules.qualified qualifiers (.texts [o]) =
      .ok ((rules.forQualifier qualifiers.head?).writtenText o) := by
  have hempty : (ParameterValue.text o).isEmpty = false := by
    rw [ParameterValue.isEmpty]
    exact List.isEmpty_eq_false_iff.2 ho
  rw [ParameterValue.texts, List.map_singleton, qualified, qualifierTexts, hempty,
    if_neg Bool.false_ne_true]
  exact congrArg Except.ok List.intercalate_singleton

/-- Something is written for every text but the empty ones. -/
theorem writtenText_ne_nil {t : Text} (htrim : t.trim = t) (hne : t ≠ [])
    (hempty : t ≠ "''".toList) : rules.writtenText t ≠ [] := by
  rcases rules.writtenText_cases htrim hne hempty with h | h | h <;> rw [h]
  · exact hne
  · exact mt upper_eq_nil_iff.1 hne
  · exact List.cons_ne_nil _ _

/-- What is written in parentheses was typed in parentheses. -/
theorem isWrapped_of_writtenText {t : Text} (htrim : t.trim = t) (hne : t ≠ [])
    (hempty : t ≠ "''".toList) (h : isWrapped (rules.writtenText t) = true) :
    isWrapped t = true := by
  rcases rules.writtenText_cases htrim hne hempty with heq | heq | heq <;> rw [heq] at h
  · exact h
  · rwa [isWrapped_upper] at h
  · rw [isWrapped_eq_false_of_head?_ne (by rw [trim_quoted]; exact nofun)] at h
    cases h

/-- An element is read as a qualified name, as a list in parentheses, or as a text. -/
theorem interpret_cases (spec : Option ElementSpec) (f : Text) :
    (∃ e, spec = some e ∧ e.qualifiers ≠ []) ∨
      (∃ e, spec = some e ∧ e.qualifiers = [] ∧ e.elements ≠ [] ∧ f.head? = some '(') ∨
      (∀ e ∈ spec, e.qualifiers = []) ∧ ∀ e ∈ spec, e.elements ≠ [] → f.head? ≠ some '(' := by
  rcases spec with _ | e
  · exact Or.inr (Or.inr ⟨nofun, nofun⟩)
  by_cases hq : e.qualifiers = []
  · by_cases hlist : e.elements ≠ [] ∧ f.head? = some '('
    · exact Or.inr (Or.inl ⟨e, rfl, hq, hlist⟩)
    · refine Or.inr (Or.inr ⟨?_, ?_⟩)
      · rintro e' ⟨⟩
        exact hq
      · rintro e' ⟨⟩ hne hhead
        exact hlist ⟨hne, hhead⟩
  · exact Or.inl ⟨e, rfl, hq⟩

section Element

variable {e : ElementSpec}

theorem interpret_of_qualifiers (hq : e.qualifiers ≠ []) (f : Text) :
    ElementSpec.interpret (some e) f = .texts (objectFirst e.qualifiers.length f) := by
  rw [ElementSpec.interpret, if_pos (by simpa using hq)]

theorem element_texts_of_qualifiers (hq : e.qualifiers ≠ []) (ts : List Text) :
    rules.element (some e) (.texts ts) = rules.qualified e.qualifiers (.texts ts) := by
  have hqualified : isQualifiedElement (some e) (.texts ts) = true := by
    simpa [isQualifiedElement, ParameterValue.texts] using hq
  exact rules.element_of_isQualified hqualified

/-- A name without parentheses is taken apart by the printer as it is by the reader. -/
theorem element_text_of_not_isWrapped (hq : e.qualifiers ≠ []) (hwrapped : isWrapped f = false) :
    rules.element (some e) (.text f) =
      rules.element (some e) (ElementSpec.interpret (some e) f) := by
  have hqualified : isQualifiedElement (some e) (.text f) = true := by
    simp [isQualifiedElement, hq, hwrapped]
  rw [interpret_of_qualifiers hq, rules.element_texts_of_qualifiers hq,
    rules.element_of_isQualified hqualified]
  rfl

/-- A text in parentheses is written as it was typed, whatever the element. -/
theorem element_text_of_isWrapped (spec : Option ElementSpec) (htrim : f.trim = f)
    (hwrapped : isWrapped f = true) :
    rules.element spec (.text f) = .ok (f.inCase ((rules.forElement spec).capitalises f)) := by
  have hqualified : isQualifiedElement spec (.text f) = false := by
    rw [isQualifiedElement, hwrapped]
    exact Bool.and_false _
  rw [rules.element_of_isList_eq_false hqualified rfl]
  exact congrArg Except.ok (writtenText_of_isWrapped _ htrim hwrapped)

/-- The reader takes a name in parentheses for one part. -/
theorem element_interpret_of_isWrapped (hq : e.qualifiers ≠ []) (htrim : f.trim = f)
    (hwrapped : isWrapped f = true) :
    rules.element (some e) (ElementSpec.interpret (some e) f) =
      .ok (f.inCase ((rules.forQualifier e.qualifiers.head?).capitalises f)) := by
  rw [interpret_of_qualifiers hq, objectFirst_of_isWrapped _ htrim hwrapped,
    rules.element_texts_of_qualifiers hq,
    rules.qualified_texts_singleton _ (htrim.symm ▸ ne_nil_of_isWrapped hwrapped),
    writtenText_of_isWrapped _ htrim hwrapped]

/-- A list inside the list is written as a list of texts. -/
theorem element_interpret_of_head? (hq : e.qualifiers = []) (hne : e.elements ≠ [])
    (hhead : f.head? = some '(') :
    rules.element (some e) (ElementSpec.interpret (some e) f) =
      rules.listTexts .asText e.elements f := by
  have hqualified : isQualifiedElement (some e)
      (.list ((Part.occurrences (unwrapped f)).map .text)) = false := by
    simp [isQualifiedElement, hq]
  rw [interpret_eq_texts hq hne hhead, ParameterValue.texts, rules.element_of_list hqualified,
    listTexts, ElementReader.readAll_asText]
  rfl

/-- The placeholder is not written as nothing. -/
theorem element_ne_nil_of_placeholder {t o : Text} (ho : o ∈ Part.occurrences t)
    (hcase : o.inCase capital = "*N".toList) (spec : Option ElementSpec) :
    rules.element spec (.text o) ≠ .ok [] ∧
      rules.element spec (ElementSpec.interpret spec o) ≠ .ok [] := by
  have htrim : o.trim = o := trim_of_mem_occurrences ho
  have hne : o ≠ [] := ne_nil_of_mem_occurrences ho
  have hempty : o ≠ "''".toList := by
    rintro rfl
    cases capital <;> exact absurd hcase (by decide)
  have hwritten : ∀ rules : ValueRules,
      (.ok (rules.writtenText o) : Except NoParts Text) ≠ .ok [] :=
    fun rules h ↦ rules.writtenText_ne_nil htrim hne hempty (Except.ok.inj h)
  have hhead : o.head? ≠ some '(' := by
    intro hhead
    have hupper := head?_upper_of_head? (by decide) hhead
    cases capital
    · rw [show o = _ from hcase] at hhead
      exact absurd hhead (by decide)
    · rw [show o.upper = _ from hcase] at hupper
      exact absurd hupper (by decide)
  have hslash : IsWhole (· = '/') .outside o := by
    refine isWhole_slash_iff.2 fun {u v} heq _ ↦ ?_
    cases capital
    · have hmem : '/' ∈ "*N".toList := hcase ▸ (by simp [inCase, heq])
      exact absurd hmem (by decide)
    · have hmem : '/' ∈ "*N".toList := hcase ▸ (by
        rw [inCase, if_pos rfl, heq, upper_append, upper_cons, show upperChar '/' = ['/'] from rfl]
        simp)
      exact absurd hmem (by decide)
  rcases interpret_cases spec o with ⟨e, rfl, hq⟩ | ⟨e, rfl, -, -, h⟩ | ⟨hq, hlist⟩
  · rw [rules.element_text_of_not_isWrapped hq
      (isWrapped_eq_false_of_head?_ne (by rwa [htrim])), and_self, interpret_of_qualifiers hq,
      objectFirst_of_isWhole _ hslash htrim hne, rules.element_texts_of_qualifiers hq,
      rules.qualified_texts_singleton _ (htrim.symm ▸ hne)]
    exact hwritten _
  · exact absurd h hhead
  · rw [interpret_eq_text hq hlist, and_self, rules.element_text hq]
    exact hwritten _

end Element

end ValueRules

/-- A part of an element list that the printer writes like its value. Only parentheses may keep it
from doing so. -/
structure ElementSpec.IsPlainPart (rules : ValueRules) (spec : Option ElementSpec) (f : Text) :
    Prop where
  /-- The element and the object of a name in parentheses agree on its letter case. -/
  name : ∀ e ∈ spec, e.qualifiers ≠ [] → isWrapped f = true → f.upper = f ∨
    (rules.forElement spec).capitalises f = (rules.forQualifier e.qualifiers.head?).capitalises f
  /-- A list in parentheses stands there as it is written. -/
  list : ∀ e ∈ spec, e.qualifiers = [] → e.elements ≠ [] → f.head? = some '(' →
    IsWrittenList (fun i o ↦ rules.element e.elements[i]? (.text o) =
      .ok (o.inCase ((rules.forElement spec).capitalises f))) f

namespace ValueRules

variable {rules : ValueRules} {spec : Option ElementSpec} {f : Text}

/-- **A plain part is written as its value is.** -/
theorem element_text_eq (htrim : f.trim = f) (h : ElementSpec.IsPlainPart rules spec f) :
    rules.element spec (.text f) = rules.element spec (ElementSpec.interpret spec f) := by
  rcases interpret_cases spec f with ⟨e, rfl, hq⟩ | ⟨e, rfl, hq, hne, hhead⟩ | ⟨hq, hhead⟩
  · rcases hwrapped : isWrapped f with _ | _
    · exact rules.element_text_of_not_isWrapped hq hwrapped
    · rw [rules.element_text_of_isWrapped _ htrim hwrapped,
        rules.element_interpret_of_isWrapped hq htrim hwrapped,
        inCase_eq_inCase_iff.2 (h.name e rfl hq hwrapped)]
  · have hlist : IsWrittenList (fun i o ↦ rules.elementAt .asText e.elements i o =
        .ok (o.inCase ((rules.forElement (some e)).capitalises f))) f := h.list e rfl hq hne hhead
    rw [rules.element_text_of_isWrapped _ htrim hlist.isWrapped,
      rules.element_interpret_of_head? hq hne hhead]
    exact (rules.listTexts_eq_of_isWrittenList hlist).symm
  · rw [interpret_eq_text hq hhead]

/-- **Only a plain part is.** Where the two differ, something is written both ways. -/
theorem element_text_cases (rules : ValueRules) (spec : Option ElementSpec) (hf : IsUndivided f) :
    rules.element spec (.text f) = rules.element spec (ElementSpec.interpret spec f) ∧
        ElementSpec.IsPlainPart rules spec f ∨
      ∃ x y, rules.element spec (.text f) = .ok x ∧
        rules.element spec (ElementSpec.interpret spec f) = .ok y ∧ x ≠ [] ∧ y ≠ [] ∧
        (x = y → ElementSpec.IsPlainPart rules spec f) := by
  rcases interpret_cases spec f with ⟨e, rfl, hq⟩ | ⟨e, rfl, hq, hne, hhead⟩ | ⟨hq, hhead⟩
  · rcases hwrapped : isWrapped f with _ | _
    · refine Or.inl ⟨rules.element_text_of_not_isWrapped hq hwrapped, ?_, ?_⟩
      · rintro e' ⟨⟩ - h
        exact absurd h (hwrapped ▸ Bool.false_ne_true)
      · rintro e' ⟨⟩ h
        exact absurd h hq
    · refine Or.inr ⟨_, _, rules.element_text_of_isWrapped _ hf.trim_eq hwrapped,
        rules.element_interpret_of_isWrapped hq hf.trim_eq hwrapped, inCase_ne_nil _ hf.ne_nil,
        inCase_ne_nil _ hf.ne_nil, fun heq ↦ ⟨?_, ?_⟩⟩
      · rintro e' ⟨⟩ - -
        exact inCase_eq_inCase_iff.1 heq
      · rintro e' ⟨⟩ h
        exact absurd h hq
  · have hnoqualifiers : ∀ e' ∈ some e, e'.qualifiers = [] := by
      rintro e' ⟨⟩
      exact hq
    obtain ⟨y, hy, hwrapped, hundivided⟩ :=
      rules.exists_listTexts isElementPart_asText e.elements hf
    have hread := (rules.element_interpret_of_head? hq hne hhead).trans hy
    have hempty : f ≠ "''".toList := by
      rintro rfl
      exact absurd hhead (by decide)
    refine Or.inr ⟨_, _, rules.element_text hnoqualifiers f, hread,
      writtenText_ne_nil _ hf.trim_eq hf.ne_nil hempty, hundivided.ne_nil, fun heq ↦ ⟨?_, ?_⟩⟩
    · rintro e' ⟨⟩ h
      exact absurd hq h
    · rintro e' ⟨⟩ - - -
      rw [← heq] at hwrapped hy
      have hparen := isWrapped_of_writtenText _ hf.trim_eq hf.ne_nil hempty hwrapped
      refine rules.isWrittenList_of_listTexts_eq isElementPart_asText hf
        (fun ho hcase spec ↦ (rules.element_ne_nil_of_placeholder ho hcase spec).1) ?_
      rw [hy, writtenText_of_isWrapped _ hf.trim_eq hparen]
  · refine Or.inl ⟨by rw [interpret_eq_text hq hhead], fun e he h ↦ absurd (hq e he) h, ?_⟩
    exact fun e he _ hne h ↦ absurd h (hhead e he hne)

end ValueRules

end ControlLanguage
