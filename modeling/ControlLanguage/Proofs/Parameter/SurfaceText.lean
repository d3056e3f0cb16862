import ControlLanguage.Proofs.Parameter.LetterCase
import ControlLanguage.Proofs.Parameter.PlainPart
import ControlLanguage.Proofs.Part.Padding
import ControlLanguage.Proofs.Statement.Single

/-!
# Values that are given as text

A value may be given as the text that was typed or as what was read from it, and for every shape of
value the printer takes the text apart in its own way. **Both are written alike if and only if the
text is plain** (`ParameterSpec.IsPlainText`): in parentheses that the reader enters, the text
stands as it would be written.

The reader also cuts a text into its occurrences. Where these are names or lists of elements, the
printer takes the whole text for one occurrence. `ParameterSpec.OccursAlike` says that this makes no
difference.
-/

namespace ControlLanguage

open Text ControlLanguage.Part

/-- A part of a list whose value is written as the part stands, but for letter case. -/
inductive ElementSpec.IsWritten (rules : ValueRules) (capital : Bool) :
    Option ElementSpec → Text → Prop
  | name {e : ElementSpec} {f : Text} : e.qualifiers ≠ [] →
      rules.qualified e.qualifiers (.text f) = .ok (f.inCase capital) →
      IsWritten rules capital (some e) f
  | list {e : ElementSpec} {f : Text} : e.qualifiers = [] → e.elements ≠ [] →
      f.head? = some '(' →
      IsWrittenList (fun i o ↦ rules.element e.elements[i]? (.text o) =
        .ok (o.inCase capital)) f →
      IsWritten rules capital (some e) f
  | text {spec : Option ElementSpec} {f : Text} : (∀ e ∈ spec, e.qualifiers = []) →
      (∀ e ∈ spec, e.elements ≠ [] → f.head? ≠ some '(') →
      (rules.forElement spec).writtenText f = f.inCase capital → IsWritten rules capital spec f

namespace ParameterSpec

/-- Several names that are written as they stand, but for letter case, both as one name and name by
name. -/
structure IsWrittenNames (rules : ValueRules) (p : ParameterSpec) (capital : Bool) (t : Text) :
    Prop where
  /-- A single blank stands between two names. -/
  spacing : joinBlank (Part.occurrences t) = t.trim
  /-- Taken for one name, the text is written as it stands. -/
  one : rules.qualified p.qualifiers (.text t) = .ok (t.trim.inCase capital)
  /-- And so is each name. -/
  each : ∀ o ∈ Part.occurrences t,
    rules.qualified p.qualifiers (.text o) = .ok (o.inCase capital)

/-- Taking the text for one occurrence makes no difference: it is one name, or names that are
written as they stand, or lists of elements that are all in parentheses. -/
structure OccursAlike (rules : ValueRules) (p : ParameterSpec) (t : Text) : Prop where
  /-- Names that occur several times are not in parentheses. There is one of them, or they are
  written as they stand. -/
  names : p.isElementList = false → p.isQualified = true → p.isMultiple = true →
    (∀ o ∈ Part.occurrences t, isWrapped o = false) ∧
      ((Part.occurrences t).length ≤ 1 ∨ ∃ capital, p.IsWrittenNames rules capital t)
  /-- Lists of elements that occur several times are in parentheses. -/
  lists : p.isElementList = true → p.isMultiple = true →
    ∀ o ∈ Part.occurrences t, isWrapped o = true

/-- A text that stands as its value is written where the reader enters parentheses. Only lists of
elements have such parentheses. -/
structure IsPlainText (rules : ValueRules) (p : ParameterSpec) (t : Text) : Prop where
  /-- Each part of a list of elements is plain. -/
  parts : p.isElementList = true → p.isMultiple = false →
    ∀ i : Nat, ∀ f ∈ (Part.occurrences t)[i]?, ElementSpec.IsPlainPart rules p.elements[i]? f
  /-- Each of several lists of elements stands in its parentheses as it is written. -/
  lists : p.isElementList = true → p.isMultiple = true →
    ∀ i : Nat, ∀ o ∈ (Part.occurrences t)[i]?, IsWrittenList (fun j f ↦
      ElementSpec.IsWritten rules ((rules.forElement p.elements[i]?).capitalises o)
        p.elements[j]? f) o
  /-- Where there is no value, there are no parentheses either. -/
  empty : p.isElementList = true → (p.interpret t).isEmpty = true →
    ∀ o ∈ Part.occurrences t, isWrapped o = false

end ParameterSpec

namespace ValueRules

variable (rules : ValueRules)

/-! ### Values without parts -/

/-- Nothing is written for empty parts of a name. -/
theorem qualifierTexts_of_allEmpty (qualifiers : List QualifierSpec) {vs : List ParameterValue}
    (h : ParameterValue.allEmpty vs = true) : rules.qualifierTexts qualifiers vs = [] := by
  induction vs generalizing qualifiers with
  | nil => rfl
  | cons v vs ih =>
    rw [ParameterValue.allEmpty, Bool.and_eq_true] at h
    rw [qualifierTexts, if_pos h.1]
    exact ih _ h.2

/-- A qualified name without parts is written as nothing. -/
theorem qualified_of_isEmpty (qualifiers : List QualifierSpec) {ts : List Text}
    (h : (ParameterValue.texts ts).isEmpty = true) :
    rules.qualified qualifiers (.texts ts) = .ok [] := by
  rw [ParameterValue.texts, ParameterValue.isEmpty] at h
  rw [ParameterValue.texts, qualified, qualifierTexts_of_allEmpty _ _ h]
  rfl

/-- Nothing is written for empty values. -/
theorem writtenOccurrences_of_allEmpty {items : List ParameterValue}
    (h : ParameterValue.allEmpty items = true) : rules.writtenOccurrences items = [] := by
  have hnil : items.filter (!·.isEmpty) = [] := by
    rw [ParameterValue.allEmpty_eq_all, List.all_eq_true] at h
    exact List.filter_eq_nil_iff.2 fun v hv ↦ by simpa using h _ (List.mem_map_of_mem hv)
  rw [writtenOccurrences, hnil]
  rfl

/-- An element without parts is written as nothing, unless it is a pair of parentheses. -/
theorem element_text_of_isEmpty {spec : Option ElementSpec} {f : Text} (htrim : f.trim = f)
    (hne : f ≠ []) (hwrapped : isWrapped f = false)
    (hempty : (ElementSpec.interpret spec f).isEmpty = true) :
    rules.element spec (.text f) = .ok [] := by
  rcases interpret_cases spec f with ⟨e, rfl, hq⟩ | ⟨e, rfl, hq, hlist, hhead⟩ | ⟨hq, hlist⟩
  · rw [interpret_of_qualifiers hq] at hempty
    rw [rules.element_text_of_not_isWrapped hq hwrapped, interpret_of_qualifiers hq,
      rules.element_texts_of_qualifiers hq, rules.qualified_of_isEmpty _ hempty]
  · have hocc : Part.occurrences f ≠ [] := by
      intro h
      exact hne (htrim.symm.trans (isWhite_iff_trim_eq_nil.1 (isWhite_of_occurrences_eq_nil h)))
    have hunwrapped : unwrapped f = f := by
      rw [unwrapped, hwrapped, if_neg Bool.false_ne_true, htrim]
    rw [interpret_eq_texts hq hlist hhead, hunwrapped, Statement.isEmpty_texts_occurrences hocc]
      at hempty
    cases hempty
  · rw [interpret_eq_text hq hlist, ParameterValue.isEmpty, htrim, List.isEmpty_iff] at hempty
    exact absurd hempty hne

/-! ### The elements of one list -/

/-- Texts of which each two are the same or both there are told apart in a list. -/
theorem eq_of_joinElements_eq {xs ys : List Text} (hxs : ∀ x ∈ xs, IsNeat x)
    (hys : ∀ y ∈ ys, IsNeat y) (hlength : xs.length = ys.length)
    (h : ∀ (i : Nat) (x y : Text), xs[i]? = some x → ys[i]? = some y → x = y ∨ x ≠ [] ∧ y ≠ [])
    (heq : joinElements xs = joinElements ys) : xs = ys := by
  have hplaced : (dropEmptyEnd xs).map placed = (dropEmptyEnd ys).map placed := by
    rw [← occurrences_joinElements hxs, ← occurrences_joinElements hys, heq]
  have hcount : (dropEmptyEnd xs).length = (dropEmptyEnd ys).length := by
    simpa using congrArg List.length hplaced
  have hend : ∀ {zs : List Text} {i : Nat} {z : Text}, zs[i]? = some z →
      (i < (dropEmptyEnd zs).length → (dropEmptyEnd zs)[i]? = some z) ∧
        ((dropEmptyEnd zs).length ≤ i → z = []) := by
    intro zs i z hz
    obtain ⟨es, hes, hempty, -⟩ := exists_dropEmptyEnd zs
    rw [hes] at hz
    refine ⟨fun hi ↦ by rwa [List.getElem?_append_left hi] at hz, fun hi ↦ ?_⟩
    rw [List.getElem?_append_right hi] at hz
    exact hempty z (List.mem_of_getElem? hz)
  refine List.ext_getElem? fun i ↦ ?_
  rcases hx : xs[i]? with _ | x <;> rcases hy : ys[i]? with _ | y
  · rfl
  · rw [List.getElem?_eq_none_iff, hlength, ← List.getElem?_eq_none_iff, hy] at hx
    cases hx
  · rw [List.getElem?_eq_none_iff, ← hlength, ← List.getElem?_eq_none_iff, hx] at hy
    cases hy
  · rcases Nat.lt_or_ge i (dropEmptyEnd xs).length with hi | hi
    · have hi' := congrArg (·[i]?) hplaced
      simp only [List.getElem?_map, (hend hx).1 hi, (hend hy).1 (hcount ▸ hi)] at hi'
      rcases h i x y hx hy with rfl | ⟨hxne, hyne⟩
      · rfl
      · rw [Option.map_some, Option.map_some, placed, if_neg hxne, placed, if_neg hyne] at hi'
        exact hi'
    · rw [(hend hx).2 hi, (hend hy).2 (hcount ▸ hi)]

/-- A list is written as nothing only if all its elements are. -/
theorem eq_nil_of_joinElements_eq_nil {xs : List Text} (hxs : ∀ x ∈ xs, IsNeat x)
    (h : joinElements xs = []) : ∀ x ∈ xs, x = [] := by
  have hocc := occurrences_joinElements hxs
  rw [h] at hocc
  obtain ⟨es, hes, hempty, -⟩ := exists_dropEmptyEnd xs
  rw [List.map_eq_nil_iff.1 hocc.symm, List.nil_append] at hes
  rwa [hes]

theorem joinElements_of_forall_eq_nil {rs : List Text} (h : ∀ r ∈ rs, r = []) :
    joinElements rs = [] := by
  have hnil : dropEmptyEnd rs = [] := by
    rw [dropEmptyEnd, List.dropWhile_eq_nil_iff.2 fun r hr ↦
      List.isEmpty_iff.2 (h r (List.mem_reverse.1 hr)), List.reverse_nil]
  rw [joinElements, hnil]
  rfl

section Elements

variable {read : ElementReader} {elements : List ElementSpec} {os : List Text} {t : Text}

/-- Plain parts make a list that is written like its value. -/
theorem elementList_text_eq
    (h : ∀ i : Nat, ∀ f ∈ (Part.occurrences t)[i]?, ElementSpec.IsPlainPart rules elements[i]? f) :
    rules.elementList elements (.text t) =
      rules.elementList elements (ElementSpec.interpretList elements t) := by
  rw [elementList_text, elementList_interpretList, elementTexts_readAll, elementTexts_readAll]
  congr 2
  refine List.ext_getElem? fun i ↦ ?_
  rw [List.getElem?_mapIdx, List.getElem?_mapIdx]
  rcases hf : (Part.occurrences t)[i]? with _ | f
  · rfl
  · exact congrArg some
      (element_text_eq (trim_of_mem_occurrences (List.mem_of_getElem? hf)) (h i f hf))

/-- A list that is written like its value has plain parts. -/
theorem isPlainPart_of_elementList_eq (ht : IsWellNested t)
    (heq : rules.elementList elements (.text t) =
      rules.elementList elements (ElementSpec.interpretList elements t)) :
    ∀ i : Nat, ∀ f ∈ (Part.occurrences t)[i]?, ElementSpec.IsPlainPart rules elements[i]? f := by
  have hos : ∀ o ∈ Part.occurrences t, IsUndivided o := fun o ↦ ht.isUndivided
  obtain ⟨xs, hxs, hx, hxneat⟩ :=
    rules.exists_elementTexts_readAll isElementPart_asText elements hos
  obtain ⟨ys, hys, hy, hyneat⟩ :=
    rules.exists_elementTexts_readAll isElementPart_interpret elements hos
  rw [elementList_text, elementList_interpretList, hx, hy] at heq
  have hcases : ∀ {i : Nat} {f : Text}, (Part.occurrences t)[i]? = some f →
      ∃ x y, xs[i]? = some x ∧ ys[i]? = some y ∧ (x = y ∨ x ≠ [] ∧ y ≠ []) ∧
        (x = y → ElementSpec.IsPlainPart rules elements[i]? f) := by
    intro i f hf
    obtain ⟨x, hxi, hx⟩ := rules.getElem?_eq_ok hf hxs
    obtain ⟨y, hyi, hy⟩ := rules.getElem?_eq_ok hf hys
    refine ⟨x, y, hxi, hyi, ?_⟩
    rcases element_text_cases rules elements[i]? (hos f (List.mem_of_getElem? hf)) with
      ⟨hsame, hplain⟩ | ⟨x', y', hx', hy', hxne, hyne, hplain⟩
    · exact ⟨Or.inl (Except.ok.inj (hx.symm.trans (hsame.trans hy))), fun _ ↦ hplain⟩
    · obtain rfl : x = x' := Except.ok.inj (hx.symm.trans hx')
      obtain rfl : y = y' := Except.ok.inj (hy.symm.trans hy')
      exact ⟨Or.inr ⟨hxne, hyne⟩, hplain⟩
  have hlength : ∀ {rs : List Text} {read : ElementReader},
      (Part.occurrences t).mapIdx (rules.elementAt read elements) = rs.map .ok →
        rs.length = (Part.occurrences t).length := by
    intro rs read h
    simpa using (congrArg List.length h).symm
  have hsame : xs = ys := by
    refine eq_of_joinElements_eq hxneat hyneat ((hlength hxs).trans (hlength hys).symm) ?_
      (Except.ok.inj heq)
    intro i x y hxi hyi
    obtain ⟨hi, -⟩ := List.getElem?_eq_some_iff.1 hxi
    rw [hlength hxs] at hi
    obtain ⟨x', y', hxi', hyi', h, -⟩ := hcases (List.getElem?_eq_getElem hi)
    rwa [Option.some.inj (hxi'.symm.trans hxi), Option.some.inj (hyi'.symm.trans hyi)] at h
  intro i f hf
  obtain ⟨x, y, hxi, hyi, -, hplain⟩ := hcases hf
  rw [hsame, hyi] at hxi
  exact hplain (Option.some.inj hxi).symm

end Elements

/-! ### Occurrences of a list of elements -/

section Occurrences

variable {rules} {elements : List ElementSpec} {capital : Bool} {os : List Text}

/-- **What is read from a part is written as the part stands exactly if the part is so.** -/
theorem element_interpret_of_isWritten {spec : Option ElementSpec} {f : Text}
    (h : ElementSpec.IsWritten rules capital spec f) :
    rules.element spec (ElementSpec.interpret spec f) = .ok (f.inCase capital) := by
  cases h with
  | name hq h =>
    rw [interpret_of_qualifiers hq, rules.element_texts_of_qualifiers hq]
    exact h
  | list hq hne hhead h =>
    rw [rules.element_interpret_of_head? hq hne hhead]
    exact rules.listTexts_eq_of_isWrittenList h
  | text hq hlist h => rw [interpret_eq_text hq hlist, rules.element_text hq, h]

/-- **An element that is written as it stands stands as it is written.** -/
theorem isWritten_of_element_interpret {spec : Option ElementSpec} {f : Text} (hf : IsUndivided f)
    (h : rules.element spec (ElementSpec.interpret spec f) = .ok (f.inCase capital)) :
    ElementSpec.IsWritten rules capital spec f := by
  rcases interpret_cases spec f with ⟨e, rfl, hq⟩ | ⟨e, rfl, hq, hne, hhead⟩ | ⟨hq, hlist⟩
  · rw [interpret_of_qualifiers hq, rules.element_texts_of_qualifiers hq] at h
    exact .name hq h
  · rw [rules.element_interpret_of_head? hq hne hhead] at h
    exact .list hq hne hhead (rules.isWrittenList_of_listTexts_eq isElementPart_asText hf
      (fun ho hcase spec ↦ (rules.element_ne_nil_of_placeholder ho hcase spec).1) h)
  · rw [interpret_eq_text hq hlist, rules.element_text hq] at h
    exact .text hq hlist (Except.ok.inj h)

/-- **An occurrence whose parts are written as they stand is written so too.** -/
theorem listTexts_interpret_of_isWrittenList {o : Text}
    (h : IsWrittenList (fun j f ↦ ElementSpec.IsWritten rules capital elements[j]? f) o) :
    rules.listTexts ElementSpec.interpret elements o = .ok (o.inCase capital) :=
  rules.listTexts_eq_of_isWrittenList ⟨h.isWrapped, h.spacing,
    fun j f hf ↦ element_interpret_of_isWritten (h.parts j f hf)⟩

/-- And only such an occurrence is. -/
theorem isWrittenList_of_listTexts_interpret {o : Text} (ho : IsUndivided o)
    (h : rules.listTexts ElementSpec.interpret elements o = .ok (o.inCase capital)) :
    IsWrittenList (fun j f ↦ ElementSpec.IsWritten rules capital elements[j]? f) o := by
  obtain ⟨hwrapped, hspacing, hparts⟩ := rules.isWrittenList_of_listTexts_eq
    isElementPart_interpret ho
    (fun hf hcase spec ↦ (rules.element_ne_nil_of_placeholder hf hcase spec).2) h
  exact ⟨hwrapped, hspacing, fun j f hf ↦ isWritten_of_element_interpret
    (ho.isWellNested.unwrapped.isUndivided (List.mem_of_getElem? hf)) (hparts j f hf)⟩

/-- Something is written for each occurrence, in parentheses of its own. -/
theorem exists_map_listTexts (rules : ValueRules) (elements : List ElementSpec)
    (hos : ∀ o ∈ os, IsUndivided o) :
    ∃ ys : List Text, os.map (rules.listTexts ElementSpec.interpret elements) = ys.map .ok ∧
      ∀ y ∈ ys, IsUndivided y := by
  induction os with
  | nil => exact ⟨[], rfl, nofun⟩
  | cons o os ih =>
    obtain ⟨ho, hos⟩ := List.forall_mem_cons.1 hos
    obtain ⟨ys, hys, hundivided⟩ := ih hos
    obtain ⟨y, hy, -, hundivided'⟩ := rules.exists_listTexts isElementPart_interpret elements ho
    exact ⟨y :: ys, by rw [List.map_cons, hy, hys, List.map_cons],
      List.forall_mem_cons.2 ⟨hundivided', hundivided⟩⟩

/-- A list in parentheses is written from the texts of its elements. -/
theorem elementOccurrence_interpretList (rules : ValueRules) (elements : List ElementSpec)
    (o : Text) :
    rules.elementOccurrence elements (ElementSpec.interpretList elements (unwrapped o)) =
      rules.listTexts ElementSpec.interpret elements o := by
  show (parenthesised <$> rules.elementList elements _) = _
  rw [elementList_interpretList, listTexts, ← comp_map]
  rfl

/-- Texts in parentheses are written as they were typed, each by the rules of its place. -/
theorem elementTexts_of_isWrapped (rules : ValueRules) (elements : List ElementSpec)
    (hos : ∀ o ∈ os, o.trim = o ∧ isWrapped o = true) :
    rules.elementTexts elements (ElementReader.asText.readAll elements os) =
      .ok (os.mapIdx fun i o ↦ o.inCase ((rules.forElement elements[i]?).capitalises o)) := by
  refine rules.elementTexts_readAll_iff.2 (List.ext_getElem? fun i ↦ ?_)
  rw [List.getElem?_mapIdx, List.getElem?_map, List.getElem?_mapIdx]
  rcases ho : os[i]? with _ | o
  · rfl
  · obtain ⟨htrim, hwrapped⟩ := hos o (List.mem_of_getElem? ho)
    exact congrArg some (rules.element_text_of_isWrapped elements[i]? htrim hwrapped)

end Occurrences

/-! ### Shapes -/

section Shapes

variable {rules} {p : ParameterSpec} {t : Text}

/-- A text is empty if it is white space. -/
theorem isEmpty_text_iff : (ParameterValue.text t).isEmpty = true ↔ IsWhite t := by
  rw [ParameterValue.isEmpty, List.isEmpty_iff, isWhite_iff_trim_eq_nil]

/-- White space is read as an empty value. -/
theorem isEmpty_interpret_of_isWhite (p : ParameterSpec) (h : IsWhite t) :
    (p.interpret t).isEmpty = true := by
  have hobject : ∀ n, ParameterValue.texts (objectFirst n t) = .list [] :=
    fun n ↦ by rw [objectFirst_of_isWhite h]; rfl
  have htext : (ParameterValue.text t.trim).isEmpty = true := by
    rw [trim_of_isWhite h]
    rfl
  rw [ParameterSpec.interpret, ElementSpec.interpretList, occurrences_of_isWhite h, hobject]
  split_ifs <;> first | rfl | exact htext

/-- Nothing is written for white space, whether it was read or not. -/
theorem typed_of_isWhite (rules : ValueRules) (p : ParameterSpec) (h : IsWhite t) :
    rules.typed p (.text t) = .ok [] ∧ rules.typed p (p.interpret t) = .ok [] :=
  ⟨if_pos (isEmpty_text_iff.2 h), if_pos (isEmpty_interpret_of_isWhite p h)⟩

theorem typed_text (rules : ValueRules) (p : ParameterSpec) (h : ¬ IsWhite t) :
    rules.typed p (.text t) = rules.render p (.text t) :=
  if_neg (mt isEmpty_text_iff.1 h)

theorem isPlainText_of_isWhite (rules : ValueRules) (p : ParameterSpec) (h : IsWhite t) :
    p.IsPlainText rules t := by
  constructor <;> simp [occurrences_of_isWhite h]

section Elements

variable (hlist : p.isElementList = true) (hmultiple : p.isMultiple = false)

include hlist hmultiple

/-- A list of plain parts is written like its value. -/
theorem typed_text_elements (h : p.IsPlainText rules t) :
    rules.typed p (.text t) = rules.typed p (p.interpret t) := by
  by_cases hwhite : IsWhite t
  · rw [(typed_of_isWhite rules p hwhite).1, (typed_of_isWhite rules p hwhite).2]
  rw [typed_text rules p hwhite, render_elements hlist hmultiple]
  rcases hempty : (p.interpret t).isEmpty with _ | _
  · rw [typed_of_isEmpty_eq_false hempty, ParameterSpec.interpret_elements hlist hmultiple,
      render_elements hlist hmultiple, rules.elementList_text_eq (h.parts hlist hmultiple)]
  · -- no part is in parentheses, and none has a value
    have hparts : ∀ i : Nat, ∀ f ∈ (Part.occurrences t)[i]?,
        rules.elementAt .asText p.elements i f = .ok [] := by
      intro i f hf
      have hmem := List.mem_of_getElem? hf
      have hall := hempty
      rw [ParameterSpec.interpret_elements hlist hmultiple, ElementSpec.interpretList,
        ParameterValue.isEmpty, ← ElementReader.readAll_interpret, readAll_eq_mapIdx,
        ParameterValue.allEmpty_eq_all, List.all_eq_true] at hall
      refine rules.element_text_of_isEmpty (trim_of_mem_occurrences hmem)
        (ne_nil_of_mem_occurrences hmem) (h.empty hlist hempty f hmem) (hall _ ?_)
      obtain ⟨hi, rfl⟩ := List.getElem?_eq_some_iff.1 hf
      exact List.mem_map_of_mem (List.mem_mapIdx.2 ⟨i, hi, rfl⟩)
    rw [typed, if_pos hempty, elementList_text,
      rules.elementTexts_eq_ok_map_iff (k := fun _ ↦ []).2 hparts]
    exact congrArg Except.ok
      (joinElements_of_forall_eq_nil (List.forall_mem_map.2 fun _ _ ↦ rfl))

/-- A list that is written like its value has plain parts. -/
theorem isPlainText_of_typed_elements (ht : IsWellNested t)
    (heq : rules.typed p (.text t) = rules.typed p (p.interpret t)) : p.IsPlainText rules t := by
  have hlists : p.isMultiple = true → False := fun h ↦ Bool.noConfusion (hmultiple.symm.trans h)
  by_cases hwhite : IsWhite t
  · exact isPlainText_of_isWhite rules p hwhite
  rw [typed_text rules p hwhite, render_elements hlist hmultiple] at heq
  rcases hempty : (p.interpret t).isEmpty with _ | _
  · rw [typed_of_isEmpty_eq_false hempty, ParameterSpec.interpret_elements hlist hmultiple,
      render_elements hlist hmultiple] at heq
    exact ⟨fun _ _ ↦ rules.isPlainPart_of_elementList_eq ht heq, fun _ h ↦ (hlists h).elim,
      fun _ h ↦ Bool.noConfusion (hempty.symm.trans h)⟩
  · -- nothing is written for the parts
    have hos : ∀ o ∈ Part.occurrences t, IsUndivided o := fun o ↦ ht.isUndivided
    obtain ⟨xs, hxs, hx, hneat⟩ :=
      rules.exists_elementTexts_readAll isElementPart_asText p.elements hos
    rw [typed, if_pos hempty, elementList_text, hx] at heq
    have hnil := eq_nil_of_joinElements_eq_nil hneat (Except.ok.inj heq)
    have hparts : ∀ i : Nat, ∀ f ∈ (Part.occurrences t)[i]?,
        rules.element p.elements[i]? (.text f) = .ok [] := by
      intro i f hf
      obtain ⟨x, hxi, hx⟩ := rules.getElem?_eq_ok hf hxs
      rw [hnil x (List.mem_of_getElem? hxi)] at hx
      exact hx
    refine ⟨fun _ _ i f hf ↦ ?_, fun _ h ↦ (hlists h).elim, fun _ _ o ho ↦ ?_⟩
    · rcases element_text_cases rules p.elements[i]? (hos f (List.mem_of_getElem? hf)) with
        ⟨-, hplain⟩ | ⟨x, -, hx, -, hxne, -⟩
      · exact hplain
      · exact absurd (Except.ok.inj (hx.symm.trans (hparts i f hf))) hxne
    · obtain ⟨i, hi⟩ := List.mem_iff_getElem?.1 ho
      refine Bool.eq_false_iff.2 fun hwrapped ↦ ?_
      have hx := rules.element_text_of_isWrapped p.elements[i]? (hos o ho).trim_eq hwrapped
      exact inCase_ne_nil _ (hos o ho).ne_nil (Except.ok.inj (hx.symm.trans (hparts i o hi)))

end Elements

section Lists

variable (hlist : p.isElementList = true) (hmultiple : p.isMultiple = true)
  (hwrapped : ∀ o ∈ Part.occurrences t, isWrapped o = true)

include hlist hmultiple

theorem render_interpret_lists (rules : ValueRules) : rules.render p (p.interpret t) =
    joinBlank <$> ((Part.occurrences t).map
      (rules.listTexts ElementSpec.interpret p.elements)).mapM id := by
  rw [ParameterSpec.interpret_lists hlist hmultiple, render_lists hlist hmultiple]
  simp only [List.mapM_map]
  simp only [Function.comp_def, elementOccurrence_interpretList, id_eq]

include hwrapped

omit hmultiple in
/-- A text of several lists is written part by part, each part as one element. -/
theorem render_text_lists (rules : ValueRules) : rules.render p (.text t) =
    .ok (joinBlank ((Part.occurrences t).mapIdx fun i o ↦
      o.inCase ((rules.forElement p.elements[i]?).capitalises o))) := by
  have hne : ∀ x ∈ (Part.occurrences t).mapIdx (fun i o ↦
      o.inCase ((rules.forElement p.elements[i]?).capitalises o)), x ≠ [] := by
    intro x hx
    obtain ⟨i, hi, rfl⟩ := List.mem_mapIdx.1 hx
    exact inCase_ne_nil _ (ne_nil_of_mem_occurrences (List.getElem_mem hi))
  rw [render_elements_text hlist, elementList_text, elementTexts_of_isWrapped rules p.elements
    fun o ho ↦ ⟨trim_of_mem_occurrences ho, hwrapped o ho⟩, ← joinElements_eq hne]
  rfl

omit hmultiple in
/-- The value of lists in parentheses is there if it is plain, unless there are none. -/
theorem isEmpty_interpret_lists (h : p.IsPlainText rules t) (hwhite : ¬ IsWhite t) :
    (p.interpret t).isEmpty = false := by
  refine Bool.eq_false_iff.2 fun hempty ↦ ?_
  obtain ⟨o, ho⟩ := List.exists_mem_of_ne_nil _ (mt isWhite_of_occurrences_eq_nil hwhite)
  exact Bool.noConfusion ((h.empty hlist hempty o ho).symm.trans (hwrapped o ho))

/-- Lists that stand there as they are written are written like their value. -/
theorem typed_text_lists (h : p.IsPlainText rules t) :
    rules.typed p (.text t) = rules.typed p (p.interpret t) := by
  by_cases hwhite : IsWhite t
  · rw [(typed_of_isWhite rules p hwhite).1, (typed_of_isWhite rules p hwhite).2]
  have hmap : (Part.occurrences t).map (rules.listTexts ElementSpec.interpret p.elements) =
      ((Part.occurrences t).mapIdx fun i o ↦
        o.inCase ((rules.forElement p.elements[i]?).capitalises o)).map .ok := by
    refine List.ext_getElem? fun i ↦ ?_
    rw [List.getElem?_map, List.getElem?_map, List.getElem?_mapIdx]
    rcases ho : (Part.occurrences t)[i]? with _ | o
    · rfl
    · exact congrArg some (listTexts_interpret_of_isWrittenList (h.lists hlist hmultiple i o ho))
  rw [typed_text rules p hwhite, render_text_lists hlist hwrapped,
    typed_of_isEmpty_eq_false (isEmpty_interpret_lists hlist hwrapped h hwhite),
    render_interpret_lists hlist hmultiple, mapM_id_eq_ok_iff.2 hmap]
  rfl

/-- Lists that are written like their value stand there as they are written. -/
theorem isPlainText_of_typed_lists (ht : IsWellNested t)
    (heq : rules.typed p (.text t) = rules.typed p (p.interpret t)) : p.IsPlainText rules t := by
  by_cases hwhite : IsWhite t
  · exact isPlainText_of_isWhite rules p hwhite
  have hos : ∀ o ∈ Part.occurrences t, IsUndivided o := fun o ↦ ht.isUndivided
  have hxs : ∀ x ∈ (Part.occurrences t).mapIdx (fun i o ↦
      o.inCase ((rules.forElement p.elements[i]?).capitalises o)), IsUndivided x := by
    intro x hx
    obtain ⟨i, hi, rfl⟩ := List.mem_mapIdx.1 hx
    exact (hos _ (List.getElem_mem hi)).inCase _
  obtain ⟨ys, hys, hundivided⟩ := exists_map_listTexts rules p.elements hos
  have hrender := render_interpret_lists (t := t) hlist hmultiple rules
  rw [mapM_id_eq_ok_iff.2 hys] at hrender
  rw [typed_text rules p hwhite, render_text_lists hlist hwrapped] at heq
  have hempty : (p.interpret t).isEmpty = false := by
    refine Bool.eq_false_iff.2 fun hempty ↦ ?_
    rw [typed, if_pos hempty] at heq
    have hnil := occurrences_joinBlank_of_isUndivided hxs
    rw [Except.ok.inj heq] at hnil
    exact mt isWhite_of_occurrences_eq_nil hwhite (List.mapIdx_eq_nil_iff.1
      (hnil.symm.trans (occurrences_of_isWhite isWhite_nil)))
  rw [typed_of_isEmpty_eq_false hempty, hrender] at heq
  have hsame : (Part.occurrences t).mapIdx (fun i o ↦
      o.inCase ((rules.forElement p.elements[i]?).capitalises o)) = ys := by
    rw [← occurrences_joinBlank_of_isUndivided hxs,
      ← occurrences_joinBlank_of_isUndivided hundivided, Except.ok.inj heq]
  refine ⟨fun _ h ↦ Bool.noConfusion (h.symm.trans hmultiple), fun _ _ i o ho ↦ ?_,
    fun _ h ↦ Bool.noConfusion (h.symm.trans hempty)⟩
  refine isWrittenList_of_listTexts_interpret (hos o (List.mem_of_getElem? ho)) ?_
  have hi := congrArg (·[i]?) hys
  have ho' : (Part.occurrences t)[i]? = some o := ho
  simp only [← hsame, List.getElem?_map, List.getElem?_mapIdx, ho', Option.map_some] at hi
  exact Option.some.inj hi

end Lists

/-! ### Names and plain values -/

theorem joinBlank_filter_singleton (r : Text) : joinBlank ([r].filter (!·.isEmpty)) = r := by
  rcases r with _ | ⟨c, r⟩
  · rfl
  · exact joinBlank_singleton (c :: r)

/-- A text of one name is read in any case. -/
theorem typed_text_name (hlist : p.isElementList = false) (hqualified : p.isQualified = true)
    (hmultiple : p.isMultiple = false) :
    rules.typed p (.text t) = rules.typed p (p.interpret t) := by
  have hread := ParameterSpec.interpret_name hlist hqualified hmultiple t
  have hwrite : rules.render p = rules.qualified p.qualifiers :=
    funext (render_name hlist hqualified hmultiple rules)
  by_cases hwhite : IsWhite t
  · rw [(typed_of_isWhite rules p hwhite).1, (typed_of_isWhite rules p hwhite).2]
  rw [typed_text rules p hwhite, typed, hread, hwrite]
  split_ifs with hempty
  · exact rules.qualified_of_isEmpty p.qualifiers hempty
  · rfl

section Names

variable (hlist : p.isElementList = false) (hqualified : p.isQualified = true)
  (hmultiple : p.isMultiple = true)

include hlist hqualified hmultiple

/-- The names are written one by one. -/
theorem render_interpret_names (hwhite : ¬ IsWhite t) :
    rules.render p (p.interpret t) = (fun rs ↦ joinBlank (rs.filter (!·.isEmpty))) <$>
      ((Part.occurrences t).map fun o ↦ .texts (objectFirst p.qualifiers.length (unwrapped o))).mapM
        (rules.qualified p.qualifiers) := by
  have hany : ((Part.occurrences t).map fun o ↦
      ParameterValue.texts (objectFirst p.qualifiers.length (unwrapped o))).any
        ParameterValue.isList = true := by
    obtain ⟨o, os, ho⟩ := List.exists_cons_of_ne_nil (mt isWhite_of_occurrences_eq_nil hwhite)
    rw [ho]
    rfl
  rw [ParameterSpec.interpret_names hlist hqualified hmultiple,
    render_names hlist hqualified hmultiple rules hany]

section Unwrapped

variable (hwrapped : ∀ o ∈ Part.occurrences t, isWrapped o = false)

omit hlist hqualified hmultiple in
include hwrapped in
theorem unwrapped_of_mem_occurrences {o : Text} (ho : o ∈ Part.occurrences t) :
    unwrapped o = o := by
  rw [unwrapped, hwrapped o ho, if_neg Bool.false_ne_true, trim_of_mem_occurrences ho]

include hwrapped

/-- A single name is written like its value. -/
theorem typed_text_one_name (h : (Part.occurrences t).length ≤ 1) (hwhite : ¬ IsWhite t) :
    rules.typed p (.text t) = rules.typed p (p.interpret t) := by
  have hpos := List.length_pos_iff.2 (mt isWhite_of_occurrences_eq_nil hwhite)
  obtain ⟨o, ho⟩ : ∃ o, Part.occurrences t = [o] := List.length_eq_one_iff.1 (by omega)
  have hread : (Part.occurrences t).map (fun o ↦
      ParameterValue.texts (objectFirst p.qualifiers.length (unwrapped o))) =
        [.texts (objectFirst p.qualifiers.length t)] := by
    rw [ho, List.map_singleton, unwrapped_of_mem_occurrences hwrapped (by simp [ho]),
      ← trim_of_occurrences_eq_singleton ho, objectFirst_trim]
  rw [typed_text rules p hwhite, render_name_text hlist hqualified]
  rcases hempty : (p.interpret t).isEmpty with _ | _
  · rw [typed_of_isEmpty_eq_false hempty,
      render_interpret_names hlist hqualified hmultiple hwhite, hread]
    exact congrArg Except.ok (joinBlank_filter_singleton _).symm
  · rw [typed, if_pos hempty]
    rw [ParameterSpec.interpret_names hlist hqualified hmultiple, hread, ParameterValue.isEmpty,
      ParameterValue.allEmpty, Bool.and_eq_true] at hempty
    exact rules.qualified_of_isEmpty _ hempty.1

/-- Names that are written as they stand are written like their value. -/
theorem typed_text_written_names {capital : Bool} (h : p.IsWrittenNames rules capital t)
    (hwhite : ¬ IsWhite t) : rules.typed p (.text t) = rules.typed p (p.interpret t) := by
  have heach : ∀ o ∈ Part.occurrences t, rules.qualified p.qualifiers
      (.texts (objectFirst p.qualifiers.length (unwrapped o))) = .ok (o.inCase capital) := by
    intro o ho
    rw [unwrapped_of_mem_occurrences hwrapped ho]
    exact h.each o ho
  have hempty : (p.interpret t).isEmpty = false := by
    obtain ⟨o, ho⟩ := List.exists_mem_of_ne_nil _ (mt isWhite_of_occurrences_eq_nil hwhite)
    refine Bool.eq_false_iff.2 fun hempty ↦ ?_
    rw [ParameterSpec.interpret_names hlist hqualified hmultiple, ParameterValue.isEmpty,
      ParameterValue.allEmpty_eq_all, List.all_eq_true] at hempty
    have hname := rules.qualified_of_isEmpty p.qualifiers
      (hempty _ (List.mem_map_of_mem (List.mem_map_of_mem ho)))
    exact inCase_ne_nil capital (ne_nil_of_mem_occurrences ho)
      (Except.ok.inj ((heach o ho).symm.trans hname))
  have hfull : ((Part.occurrences t).map (inCase capital)).filter (!·.isEmpty) =
      (Part.occurrences t).map (inCase capital) :=
    filter_not_isEmpty (List.forall_mem_map.2 fun o ho ↦
      inCase_ne_nil capital (ne_nil_of_mem_occurrences ho))
  rw [typed_text rules p hwhite, render_name_text hlist hqualified, h.one,
    typed_of_isEmpty_eq_false hempty, render_interpret_names hlist hqualified hmultiple hwhite,
    mapM_map_eq_ok heach]
  show Except.ok _ = Except.ok (joinBlank _)
  rw [hfull, ← inCase_joinBlank, h.spacing]

end Unwrapped

end Names

/-- So is a text without qualifiers and elements. -/
theorem typed_text_plain (hlist : p.isElementList = false) (hqualified : p.isQualified = false) :
    rules.typed p (.text t) = rules.typed p (p.interpret t) := by
  have hwrite := render_plain hlist hqualified rules
  by_cases hwhite : IsWhite t
  · rw [(typed_of_isWhite rules p hwhite).1, (typed_of_isWhite rules p hwhite).2]
  rw [typed_text rules p hwhite, typed, hwrite, hwrite]
  rcases hmultiple : p.isMultiple with _ | _
  · rw [ParameterSpec.interpret_value hlist hqualified hmultiple, if_neg]
    · exact congrArg Except.ok (rules.writtenText_trim t).symm
    · rwa [isEmpty_text_iff, isWhite_iff_trim_eq_nil, trim_trim, ← isWhite_iff_trim_eq_nil]
  · rw [ParameterSpec.interpret_values hlist hqualified hmultiple, ParameterValue.texts, plain_true]
    split_ifs with hempty
    · exact congrArg Except.ok (rules.writtenOccurrences_of_allEmpty hempty)
    · rfl

/-- **A plain text is written like its value**, for every shape of value. -/
theorem typed_text_eq (halike : p.OccursAlike rules t) (h : p.IsPlainText rules t) :
    rules.typed p (.text t) = rules.typed p (p.interpret t) := by
  rcases hlist : p.isElementList with _ | _ <;> rcases hmultiple : p.isMultiple with _ | _
  · rcases hqualified : p.isQualified with _ | _
    · exact typed_text_plain hlist hqualified
    · exact typed_text_name hlist hqualified hmultiple
  · rcases hqualified : p.isQualified with _ | _
    · exact typed_text_plain hlist hqualified
    · obtain ⟨hwrapped, hnames⟩ := halike.names hlist hqualified hmultiple
      by_cases hwhite : IsWhite t
      · rw [(typed_of_isWhite rules p hwhite).1, (typed_of_isWhite rules p hwhite).2]
      · rcases hnames with hone | ⟨capital, hwritten⟩
        · exact typed_text_one_name hlist hqualified hmultiple hwrapped hone hwhite
        · exact typed_text_written_names hlist hqualified hmultiple hwrapped hwritten hwhite
  · exact typed_text_elements hlist hmultiple h
  · exact typed_text_lists hlist hmultiple (halike.lists hlist hmultiple) h

/-- **A closed text that is written like its value is plain.** -/
theorem isPlainText_of_typed_text_eq (halike : p.OccursAlike rules t) (ht : IsWellNested t)
    (heq : rules.typed p (.text t) = rules.typed p (p.interpret t)) : p.IsPlainText rules t := by
  rcases hlist : p.isElementList with _ | _
  · constructor <;> simp [hlist]
  · rcases hmultiple : p.isMultiple with _ | _
    · exact isPlainText_of_typed_elements hlist hmultiple ht heq
    · exact isPlainText_of_typed_lists hlist hmultiple (halike.lists hlist hmultiple) ht heq

end Shapes

end ValueRules

end ControlLanguage
