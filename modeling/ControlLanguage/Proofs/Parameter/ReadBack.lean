import ControlLanguage.Proofs.Parameter.LetterCase
import ControlLanguage.Proofs.Parameter.PlainPart

/-!
# What is written shows the value

Different texts may be read as different values and yet be written alike. Quotes are added and
dropped, letter case changes, and nothing at all is written for an empty part, the empty literal or
a name without parts. **Nothing else is lost**: the literal of a value, in which each text stands in
quotes and in upper case, is read from what was written for it (`ParameterSpec.literal_readAgain`).

That is so for every shape, if the value has no empty parts (`ParameterSpec.IsLegible`). Lists of
elements have to be closed besides, and where several names are separated by blanks, no blank
stands free in one of them.
-/

namespace ControlLanguage

open Text ControlLanguage.Part

/-! ### Values without empty parts -/

/-- The text is not empty, and it is not the empty literal. -/
def Text.IsFilled (t : Text) : Prop :=
  t ≠ [] ∧ t ≠ "''".toList

instance Text.IsFilled.decidable (t : Text) : Decidable t.IsFilled :=
  inferInstanceAs (Decidable (_ ∧ _))

namespace ParameterValue

/-- There are no empty texts, no empty literals and no empty lists in the value. -/
inductive IsFilled : ParameterValue → Prop where
  | text {t : Text} : t.IsFilled → IsFilled (.text t)
  | list {vs : List ParameterValue} : vs ≠ [] → (∀ v ∈ vs, IsFilled v) → IsFilled (.list vs)

theorem isFilled_text {t : Text} : (text t).IsFilled ↔ t.IsFilled :=
  ⟨fun | .text h => h, .text⟩

theorem isFilled_list {vs : List ParameterValue} :
    (list vs).IsFilled ↔ vs ≠ [] ∧ ∀ v ∈ vs, v.IsFilled :=
  ⟨fun | .list hne h => ⟨hne, h⟩, fun h ↦ .list h.1 h.2⟩

theorem isFilled_texts {ts : List Text} :
    (texts ts).IsFilled ↔ ts ≠ [] ∧ ∀ t ∈ ts, t.IsFilled := by
  simp only [texts, isFilled_list, ne_eq, List.map_eq_nil_iff, List.forall_mem_map, isFilled_text]

end ParameterValue

open ParameterValue (text texts literal isFilled_list isFilled_text isFilled_texts)

/-- A list that the element may be has no names in it. -/
def ElementSpec.HasPlainList (e : ElementSpec) : Prop :=
  e.qualifiers = [] → ∀ f ∈ e.elements, f.qualifiers = []

/-! ### Names -/

/-- What is written for the parts of a name are the parts of a name. -/
theorem Part.IsQualifiedList.mapIdx_writtenText {n : Int} {ts : List Text}
    (h : IsQualifiedList n ts) (hfilled : ∀ t ∈ ts, t.IsFilled) (rules : Nat → ValueRules) :
    IsQualifiedList n (ts.mapIdx fun i t ↦ (rules i).writtenText t) where
  length_le := by
    rw [List.length_mapIdx]
    exact h.length_le
  trim_eq u hu := by
    obtain ⟨i, hi, rfl⟩ := List.mem_mapIdx.1 hu
    exact ValueRules.trim_writtenText _ _
  getLast?_ne u hu := by
    obtain ⟨i, hi, rfl⟩ := List.mem_mapIdx.1 (List.mem_of_getLast? hu)
    have hmem := List.getElem_mem hi
    exact ValueRules.writtenText_ne_nil _ (h.trim_eq _ hmem) (hfilled _ hmem).1 (hfilled _ hmem).2
  afterText_ne {i u} hi hne := by
    rw [List.getElem?_mapIdx] at hi
    obtain ⟨t, ht, rfl⟩ := Option.map_eq_some_iff.1 hi
    exact isWhole_slash_iff.1 (ValueRules.isWhole_writtenText _ isCaseless_slash
      (isWhole_slash_iff.2 (h.afterText_ne ht hne)))
  afterText_eq u hu := by
    obtain ⟨i, hi, rfl⟩ := List.mem_iff_getElem.1 hu
    rw [List.length_dropLast, List.length_mapIdx] at hi
    rw [List.getElem_dropLast, List.getElem_mapIdx]
    refine ValueRules.afterText_writtenText _ (h.afterText_eq _ ?_)
    exact List.mem_iff_getElem.2 ⟨i, by rwa [List.length_dropLast], List.getElem_dropLast _⟩

namespace ValueRules

variable (rules : ValueRules)

/-- What is written for a filled text stands for the same literal. -/
theorem literal_of_isFilled {t : Text} (htrim : t.trim = t) (h : t.IsFilled) :
    (text (rules.writtenText t)).literal = (text t).literal :=
  congrArg text (rules.asLiteral_writtenText htrim h.1 h.2)

section Name

variable (qualifiers : List QualifierSpec) {n : Int} {t : Text}
  (hfilled : (texts (objectFirst n t)).IsFilled)

include hfilled

/-- The text that is written for a name. -/
theorem qualified_objectFirst : rules.qualified qualifiers (.texts (objectFirst n t)) =
    .ok (qualified.joined (rules.nameParts qualifiers (objectFirst n t))) := by
  rw [texts, qualified, rules.qualifierTexts_eq qualifiers fun u hu ↦ ?_]
  rw [trim_of_mem_objectFirst hu]
  exact ((isFilled_texts.1 hfilled).2 u hu).1

/-- **The parts of a name are read as they were written.** -/
theorem objectFirst_joined_nameParts :
    objectFirst n (qualified.joined (rules.nameParts qualifiers (objectFirst n t))) =
      rules.nameParts qualifiers (objectFirst n t) := by
  have hparts : (rules.nameParts qualifiers (objectFirst n t)).reverse =
      (Part.qualified n t).mapIdx fun i u ↦
        (rules.forQualifier qualifiers[(Part.qualified n t).length - 1 - i]?).writtenText u := by
    rw [nameParts, objectFirst, List.mapIdx_reverse, List.reverse_reverse]
  have hlist := (isQualifiedList_qualified n t).mapIdx_writtenText
    (fun u hu ↦ (isFilled_texts.1 hfilled).2 u (List.mem_reverse.2 hu))
    fun i ↦ rules.forQualifier qualifiers[(Part.qualified n t).length - 1 - i]?
  rw [objectFirst, qualified.joined, hparts, hlist.qualified_intercalate, ← hparts,
    List.reverse_reverse]

/-- **A name is read back part by part.** -/
theorem literal_objectFirst_joined :
    (texts (objectFirst n (qualified.joined (rules.nameParts qualifiers
      (objectFirst n t))))).literal = (texts (objectFirst n t)).literal := by
  rw [objectFirst_joined_nameParts rules qualifiers hfilled]
  exact rules.literal_nameParts qualifiers fun u hu ↦
    ⟨trim_of_mem_objectFirst hu, (isFilled_texts.1 hfilled).2 u hu⟩

/-- A name with a filled part is not written as nothing. -/
theorem joined_nameParts_ne_nil :
    qualified.joined (rules.nameParts qualifiers (objectFirst n t)) ≠ [] := by
  intro h
  have hread := objectFirst_joined_nameParts rules qualifiers hfilled
  rw [h, objectFirst_of_isWhite isWhite_nil] at hread
  exact (rules.nameParts_ne_nil (isFilled_texts.1 hfilled).1) hread.symm

end Name

/-! ### Elements -/

/-- The value of `t` is written as the undivided text `u`, which is read with the same literal. -/
structure ReadsBack (read : Text → ParameterValue) (write : ParameterValue → Except NoParts Text)
    (t u : Text) : Prop where
  isUndivided : IsUndivided u
  written : write (read t) = .ok u
  literal_eq : (read u).literal = (read t).literal

section List

variable {read : ElementReader} {P : ElementSpec → Prop}

/-- What is read back element by element is read back as a list. -/
theorem exists_elementTexts_readsBack
    (h : ∀ spec f, (∀ e ∈ spec, P e) → IsUndivided f → (read spec f).IsFilled →
      ∃ g, ReadsBack (read spec) (rules.element spec) f g)
    {elements : List ElementSpec} (hP : ∀ e ∈ elements, P e) {fs : List Text}
    (hfs : ∀ f ∈ fs, IsUndivided f) (hfilled : ∀ v ∈ read.readAll elements fs, v.IsFilled) :
    ∃ gs, (∀ g ∈ gs, IsUndivided g) ∧
      rules.elementTexts elements (read.readAll elements fs) = .ok gs ∧
      (read.readAll elements gs).map literal = (read.readAll elements fs).map literal := by
  induction fs generalizing elements with
  | nil => exact ⟨[], nofun, rfl, rfl⟩
  | cons f fs ih =>
    obtain ⟨hf, hfs⟩ := List.forall_mem_cons.1 hfs
    rw [ElementReader.readAll] at hfilled
    obtain ⟨hfirst, hrest⟩ := List.forall_mem_cons.1 hfilled
    obtain ⟨g, hg⟩ := h elements.head? f (fun e he ↦ hP e (List.mem_of_mem_head? he)) hf hfirst
    obtain ⟨gs, hgs, hwritten, hliteral⟩ :=
      ih (fun e he ↦ hP e (List.mem_of_mem_tail he)) hfs hrest
    refine ⟨g :: gs, List.forall_mem_cons.2 ⟨hg.isUndivided, hgs⟩, ?_, ?_⟩
    · rw [ElementReader.readAll, elementTexts, hg.written, hwritten]
      rfl
    · rw [ElementReader.readAll, List.map_cons, hg.literal_eq, hliteral, ElementReader.readAll,
        List.map_cons]

end List

section Element

variable {spec : Option ElementSpec} {f : Text} (hf : IsUndivided f)

include hf

/-- A text is read back, if it is read as such again. -/
theorem readsBack_text (hspec : ∀ e ∈ spec, e.qualifiers = []) {read : Text → ParameterValue}
    (hread : read f = .text f)
    (hagain : read ((rules.forElement spec).writtenText f) =
      .text ((rules.forElement spec).writtenText f))
    (hfilled : f.IsFilled) : ∃ g, ReadsBack read (rules.element spec) f g := by
  have hne := (rules.forElement spec).writtenText_ne_nil hf.trim_eq hfilled.1 hfilled.2
  have hneat : IsNeat f.trim := hf.trim_eq.symm ▸ hf.isNeat
  refine ⟨_, (hneat.writtenText (rules.forElement spec)).isUndivided hne, ?_, ?_⟩
  · rw [hread, rules.element_text hspec]
  · rw [hread, hagain]
    exact literal_of_isFilled _ hf.trim_eq hfilled

/-- An element that is a name is read back. -/
theorem readsBack_name {e : ElementSpec} (hq : e.qualifiers ≠ [])
    (hfilled : (ElementSpec.interpret (some e) f).IsFilled) :
    ∃ g, ReadsBack (ElementSpec.interpret (some e)) (rules.element (some e)) f g := by
  rw [interpret_of_qualifiers hq] at hfilled
  have hwritten := (rules.element_texts_of_qualifiers hq _).trans
    (rules.qualified_objectFirst e.qualifiers hfilled)
  rw [← interpret_of_qualifiers hq] at hwritten
  obtain ⟨r, hr, hneat⟩ := rules.exists_element (some e) (isElementPart_interpret (some e) hf)
  obtain rfl := Except.ok.inj (hr.symm.trans hwritten)
  refine ⟨_, hneat.isUndivided (rules.joined_nameParts_ne_nil e.qualifiers hfilled), hwritten, ?_⟩
  rw [interpret_of_qualifiers hq, interpret_of_qualifiers hq]
  exact rules.literal_objectFirst_joined e.qualifiers hfilled

/-- A list in parentheses is read back as a list in parentheses. -/
theorem readsBack_list {e : ElementSpec} (hq : e.qualifiers = []) (hne : e.elements ≠ [])
    (hplain : ∀ f ∈ e.elements, f.qualifiers = []) (hhead : f.head? = some '(')
    (hfilled : (ElementSpec.interpret (some e) f).IsFilled) :
    ∃ g, ReadsBack (ElementSpec.interpret (some e)) (rules.element (some e)) f g := by
  rw [interpret_eq_texts hq hne hhead, isFilled_texts] at hfilled
  have htext : ∀ spec f, (∀ e ∈ spec, e.qualifiers = []) → IsUndivided f →
      (ElementReader.asText spec f).IsFilled →
      ∃ g, ReadsBack (ElementReader.asText spec) (rules.element spec) f g :=
    fun _ _ hspec hf hfilled ↦ rules.readsBack_text hf hspec rfl rfl (isFilled_text.1 hfilled)
  have hparts : ∀ v ∈ ElementReader.asText.readAll e.elements (Part.occurrences (unwrapped f)),
      v.IsFilled := by
    rw [ElementReader.readAll_asText]
    exact List.forall_mem_map.2 fun o ho ↦ .text (hfilled.2 o ho)
  obtain ⟨gs, hgs, hwritten, hliteral⟩ := rules.exists_elementTexts_readsBack
    (P := fun e ↦ e.qualifiers = []) htext hplain
    (fun o ho ↦ hf.isWellNested.unwrapped.isUndivided ho) hparts
  rw [ElementReader.readAll_asText, ElementReader.readAll_asText] at hliteral
  have hnested : IsWellNested (joinBlank gs) := .joinBlank fun g hg ↦ (hgs g hg).isWellNested
  have hread : ElementSpec.interpret (some e) (parenthesised (joinBlank gs)) = .texts gs := by
    rw [interpret_eq_texts hq hne rfl, unwrapped_parenthesised_of_isWellNested hnested,
      trim_joinBlank_of_isUndivided hgs, occurrences_joinBlank_of_isUndivided hgs]
  refine ⟨_, (IsNeat.parenthesised hnested).isUndivided (List.cons_ne_nil _ _), ?_, ?_⟩
  · rw [rules.element_interpret_of_head? hq hne hhead, listTexts, hwritten,
      ← joinElements_eq fun g hg ↦ (hgs g hg).ne_nil]
    rfl
  · rw [hread, interpret_eq_texts hq hne hhead]
    exact ParameterValue.literal_list_congr hliteral

/-- **An element is read back** as a name, a list or a text. -/
theorem readsBack_interpret (hspec : ∀ e ∈ spec, e.HasPlainList)
    (hfilled : (ElementSpec.interpret spec f).IsFilled) :
    ∃ g, ReadsBack (ElementSpec.interpret spec) (rules.element spec) f g := by
  rcases interpret_cases spec f with ⟨e, rfl, hq⟩ | ⟨e, rfl, hq, hne, hhead⟩ | ⟨hq, hhead⟩
  · exact rules.readsBack_name hf hq hfilled
  · exact rules.readsBack_list hf hq hne (hspec e rfl hq) hhead hfilled
  · have hread := interpret_eq_text hq hhead
    rw [hread, isFilled_text] at hfilled
    refine rules.readsBack_text hf hq hread (interpret_eq_text hq ?_) hfilled
    exact fun e he hne hparen ↦ hhead e he hne
      (head?_of_writtenText _ hf.trim_eq hfilled.1 hfilled.2 hparen)

end Element

/-! ### Lists of elements -/

section ElementList

variable {elements : List ElementSpec} (helements : ∀ e ∈ elements, e.HasPlainList)

include helements

/-- **A list of filled elements is read back**, element by element. -/
theorem exists_elementList_readsBack {t : Text} (ht : IsWellNested t)
    (hfilled : (ElementSpec.interpretList elements t).IsFilled) :
    ∃ gs, (∀ g ∈ gs, IsUndivided g) ∧
      rules.elementList elements (ElementSpec.interpretList elements t) = .ok (joinBlank gs) ∧
      (ElementSpec.interpretList elements (joinBlank gs)).literal =
        (ElementSpec.interpretList elements t).literal := by
  have hlist : ∀ os, ElementSpec.interpretParts elements os =
      ElementReader.readAll ElementSpec.interpret elements os :=
    fun os ↦ (ElementReader.readAll_interpret elements os).symm
  rw [ElementSpec.interpretList, isFilled_list, hlist] at hfilled
  obtain ⟨gs, hgs, hwritten, hliteral⟩ := rules.exists_elementTexts_readsBack
    (fun _ _ hspec hf hfilled ↦ rules.readsBack_interpret hf hspec hfilled) helements
    (fun o ho ↦ ht.isUndivided ho) hfilled.2
  refine ⟨gs, hgs, ?_, ?_⟩
  · rw [elementList_interpretList, hwritten, ← joinElements_eq fun g hg ↦ (hgs g hg).ne_nil]
    rfl
  · rw [ElementSpec.interpretList, ElementSpec.interpretList,
      occurrences_joinBlank_of_isUndivided hgs, hlist, hlist]
    exact ParameterValue.literal_list_congr hliteral

/-- One of several lists of elements is read back in parentheses. -/
theorem readsBack_elementOccurrence {o : Text} (ho : IsUndivided o)
    (hfilled : (ElementSpec.interpretList elements (unwrapped o)).IsFilled) :
    ∃ g, ReadsBack (fun o ↦ ElementSpec.interpretList elements (unwrapped o))
      (rules.elementOccurrence elements) o g := by
  obtain ⟨gs, hgs, hwritten, hliteral⟩ :=
    rules.exists_elementList_readsBack helements ho.isWellNested.unwrapped hfilled
  have hnested : IsWellNested (joinBlank gs) := .joinBlank fun g hg ↦ (hgs g hg).isWellNested
  refine ⟨_, (IsNeat.parenthesised hnested).isUndivided (List.cons_ne_nil _ _), ?_, ?_⟩
  · show parenthesised <$> rules.elementList elements _ = _
    rw [hwritten]
    rfl
  · rw [unwrapped_parenthesised_of_isWellNested hnested, trim_joinBlank_of_isUndivided hgs]
    exact hliteral

end ElementList

/-- What is read back occurrence by occurrence is read back as a list. -/
theorem exists_mapM_readsBack {read : Text → ParameterValue}
    {write : ParameterValue → Except NoParts Text} {os : List Text}
    (h : ∀ o ∈ os, ∃ g, ReadsBack read write o g) :
    ∃ gs, (∀ g ∈ gs, IsUndivided g) ∧ (os.map read).mapM write = .ok gs ∧
      (gs.map read).map literal = (os.map read).map literal := by
  induction os with
  | nil => exact ⟨[], nofun, rfl, rfl⟩
  | cons o os ih =>
    obtain ⟨⟨g, hg⟩, hos⟩ := List.forall_mem_cons.1 h
    obtain ⟨gs, hgs, hwritten, hliteral⟩ := ih hos
    refine ⟨g :: gs, List.forall_mem_cons.2 ⟨hg.isUndivided, hgs⟩, ?_, ?_⟩
    · rw [List.map_cons, List.mapM_cons, hg.written, hwritten]
      rfl
    · rw [List.map_cons, List.map_cons, hg.literal_eq, hliteral, List.map_cons, List.map_cons]

end ValueRules

/-! ### Parameters -/

namespace ParameterSpec

/-- The value of `t` shows in what is written for it. -/
structure IsLegible (p : ParameterSpec) (t : Text) : Prop where
  /-- There are no empty parts, for which nothing would be written. -/
  filled : (p.interpret t).IsFilled
  /-- No blank stands free in one of several names, where it would end the name. -/
  names : p.isElementList = false → p.isQualified = true → p.isMultiple = true →
    ∀ u ∈ (p.interpret t).parts, IsUnbroken u
  /-- A list of elements is closed. -/
  closed : p.isElementList = true → IsWellNested t
  /-- No list inside the list has names: they are written part by part, but read whole. -/
  lists : ∀ e ∈ p.elements, e.HasPlainList

/-- The value of a text that was written. It is read as any other text, but one of several names is
not taken out of parentheses again. -/
def readAgain (p : ParameterSpec) (r : Text) : ParameterValue :=
  if p.isElementList = false ∧ p.isQualified = true ∧ p.isMultiple = true then
    .list ((Part.occurrences r).map fun o ↦ .texts (objectFirst p.qualifiers.length o))
  else p.interpret r

/-- Reading again leaves the case alone. -/
theorem readAgain_upper (p : ParameterSpec) (r : Text) :
    p.readAgain r.upper = (p.readAgain r).upper := by
  rw [readAgain, readAgain]
  split_ifs
  · rw [occurrences_upper, ParameterValue.upper, ParameterValue.mapTexts_list, List.map_map,
      List.map_map]
    refine congrArg ParameterValue.list (List.map_congr_left fun o _ ↦ ?_)
    simp only [Function.comp, objectFirst_upper, ParameterValue.mapTexts_texts]
  · exact p.interpret_upper r

end ParameterSpec

namespace ValueRules

variable (rules : ValueRules) {p : ParameterSpec} {t r : Text}

theorem literal_map_writtenText {ts : List Text} (htrim : ∀ t ∈ ts, t.trim = t)
    (hfilled : ∀ t ∈ ts, t.IsFilled) :
    (texts (ts.map rules.writtenText)).literal = (texts ts).literal := by
  rw [texts, List.map_map]
  refine ParameterValue.literal_list_congr ?_
  rw [List.map_map, List.map_map]
  exact List.map_congr_left fun t ht ↦ rules.literal_of_isFilled (htrim t ht) (hfilled t ht)

section Plain

variable (hlist : p.isElementList = false) (hqualified : p.isQualified = false)
  (hfilled : (p.interpret t).IsFilled)

include hlist hqualified hfilled

/-- One value is read back. -/
theorem literal_interpret_value (hmultiple : p.isMultiple = false)
    (hr : rules.render p (p.interpret t) = .ok r) :
    (p.interpret r).literal = (p.interpret t).literal := by
  have hread := ParameterSpec.interpret_value hlist hqualified hmultiple
  rw [hread, isFilled_text] at hfilled
  rw [hread, render_value hlist hqualified hmultiple] at hr
  obtain rfl := Except.ok.inj hr
  rw [hread, hread, rules.trim_writtenText]
  exact rules.literal_of_isFilled (trim_trim t) hfilled

/-- So are several values. -/
theorem literal_interpret_values (hmultiple : p.isMultiple = true)
    (hr : rules.render p (p.interpret t) = .ok r) :
    (p.interpret r).literal = (p.interpret t).literal := by
  have hread := ParameterSpec.interpret_values hlist hqualified hmultiple
  have htrim : ∀ o ∈ Part.occurrences t, o.trim = o := fun o ho ↦ trim_of_mem_occurrences ho
  rw [hread, isFilled_texts] at hfilled
  rw [hread, rules.render_values hlist hqualified hmultiple fun o ho ↦
    ParameterValue.isEmpty_text_eq_false (htrim o ho) (hfilled.2 o ho).1] at hr
  obtain rfl := Except.ok.inj hr
  have hwritten : ∀ u ∈ (Part.occurrences t).map rules.writtenText, u ≠ [] :=
    List.forall_mem_map.2 fun o ho ↦
      rules.writtenText_ne_nil (htrim o ho) (hfilled.2 o ho).1 (hfilled.2 o ho).2
  rw [hread, hread, rules.occurrences_joinBlank_writtenText, filter_not_isEmpty hwritten]
  exact rules.literal_map_writtenText htrim hfilled.2

end Plain

/-- What is written for one of several names. -/
def nameText (qualifiers : List QualifierSpec) (o : Text) : Text :=
  qualified.joined (rules.nameParts qualifiers (objectFirst qualifiers.length (unwrapped o)))

section Names

variable (hlist : p.isElementList = false) (hqualified : p.isQualified = true)
  (hfilled : (p.interpret t).IsFilled)

include hlist hqualified hfilled

/-- So is one name. -/
theorem literal_interpret_name (hmultiple : p.isMultiple = false)
    (hr : rules.render p (p.interpret t) = .ok r) :
    (p.interpret r).literal = (p.interpret t).literal := by
  have hread := ParameterSpec.interpret_name hlist hqualified hmultiple
  rw [hread] at hfilled
  rw [hread, render_name hlist hqualified hmultiple, rules.qualified_objectFirst _ hfilled] at hr
  obtain rfl := Except.ok.inj hr
  rw [hread, hread]
  exact rules.literal_objectFirst_joined p.qualifiers hfilled

variable (hmultiple : p.isMultiple = true)
  (hunbroken : ∀ u ∈ (p.interpret t).parts, IsUnbroken u)

include hmultiple

omit hfilled in
/-- The parts of each name are parts of the value. -/
theorem mem_parts_of_mem_objectFirst {o u : Text} (ho : o ∈ Part.occurrences t)
    (hu : u ∈ objectFirst p.qualifiers.length (unwrapped o)) : u ∈ (p.interpret t).parts := by
  rw [ParameterSpec.interpret_names hlist hqualified hmultiple, ParameterValue.mem_parts_list]
  exact ⟨_, List.mem_map_of_mem ho,
    ParameterValue.mem_parts_list.2 ⟨_, List.mem_map_of_mem hu, List.mem_singleton_self u⟩⟩

theorem isFilled_of_mem_occurrences {o : Text} (ho : o ∈ Part.occurrences t) :
    (texts (objectFirst p.qualifiers.length (unwrapped o))).IsFilled := by
  rw [ParameterSpec.interpret_names hlist hqualified hmultiple, isFilled_list] at hfilled
  exact hfilled.2 _ (List.mem_map_of_mem ho)

include hunbroken in
/-- What is written for a name among several is one part. -/
theorem isUndivided_nameText {o : Text} (ho : o ∈ Part.occurrences t) :
    IsUndivided (rules.nameText p.qualifiers o) := by
  refine IsNeat.isUndivided (.joined fun u hu ↦ ?_) (rules.joined_nameParts_ne_nil p.qualifiers
    (isFilled_of_mem_occurrences hlist hqualified hfilled hmultiple ho))
  obtain ⟨i, hi, rfl⟩ := List.mem_mapIdx.1 hu
  have hpart := hunbroken _
    (mem_parts_of_mem_objectFirst hlist hqualified hmultiple ho (List.getElem_mem hi))
  exact IsNeat.writtenText ⟨hpart.trim, trim_trim _⟩ _

/-- Several names are written one after the other. -/
theorem render_interpret_of_isFilled : rules.render p (p.interpret t) =
    .ok (joinBlank ((Part.occurrences t).map (rules.nameText p.qualifiers))) := by
  have hname : ∀ {o : Text}, o ∈ Part.occurrences t →
      (texts (objectFirst p.qualifiers.length (unwrapped o))).IsFilled :=
    isFilled_of_mem_occurrences hlist hqualified hfilled hmultiple
  have hfull : ∀ q ∈ (Part.occurrences t).map (rules.nameText p.qualifiers), q ≠ [] :=
    List.forall_mem_map.2 fun o ho ↦ rules.joined_nameParts_ne_nil p.qualifiers (hname ho)
  have hread := ParameterSpec.interpret_names hlist hqualified hmultiple t
  rw [hread, isFilled_list] at hfilled
  obtain ⟨o, os, ho⟩ := List.exists_cons_of_ne_nil (mt List.map_eq_nil_iff.2 hfilled.1)
  rw [hread, render_names hlist hqualified hmultiple rules (by rw [ho]; rfl),
    mapM_map_eq_ok fun o ho ↦ rules.qualified_objectFirst p.qualifiers (hname ho)]
  exact congrArg (fun qs ↦ Except.ok (joinBlank qs)) (filter_not_isEmpty hfull)

include hunbroken in
/-- And they are read back, each from its own text. -/
theorem literal_readAgain_names (hr : rules.render p (p.interpret t) = .ok r) :
    (p.readAgain r).literal = (p.interpret t).literal := by
  have hundivided := List.forall_mem_map.2 fun o ho ↦
    rules.isUndivided_nameText hlist hqualified hfilled hmultiple hunbroken (o := o) ho
  rw [rules.render_interpret_of_isFilled hlist hqualified hfilled hmultiple] at hr
  obtain rfl := Except.ok.inj hr
  rw [ParameterSpec.readAgain, if_pos ⟨hlist, hqualified, hmultiple⟩,
    ParameterSpec.interpret_names hlist hqualified hmultiple,
    occurrences_joinBlank_of_isUndivided hundivided, List.map_map]
  refine ParameterValue.literal_list_congr ?_
  rw [List.map_map, List.map_map]
  exact List.map_congr_left fun o ho ↦ rules.literal_objectFirst_joined p.qualifiers
    (isFilled_of_mem_occurrences hlist hqualified hfilled hmultiple ho)

end Names

section Elements

variable (hlist : p.isElementList = true) (h : p.IsLegible t)

include hlist h

/-- One list of elements is read back. -/
theorem literal_interpret_elements (hmultiple : p.isMultiple = false)
    (hr : rules.render p (p.interpret t) = .ok r) :
    (p.interpret r).literal = (p.interpret t).literal := by
  have hread := ParameterSpec.interpret_elements hlist hmultiple
  have hfilled := h.filled
  rw [hread] at hfilled
  obtain ⟨gs, -, hwritten, hliteral⟩ :=
    rules.exists_elementList_readsBack h.lists (h.closed hlist) hfilled
  rw [hread, render_elements hlist hmultiple, hwritten] at hr
  obtain rfl := Except.ok.inj hr
  rw [hread, hread, hliteral]

/-- So are several lists, each of them in parentheses. -/
theorem literal_interpret_lists (hmultiple : p.isMultiple = true)
    (hr : rules.render p (p.interpret t) = .ok r) :
    (p.interpret r).literal = (p.interpret t).literal := by
  have hread := ParameterSpec.interpret_lists hlist hmultiple
  have hfilled := h.filled
  rw [hread, isFilled_list, List.forall_mem_map] at hfilled
  obtain ⟨gs, hgs, hwritten, hliteral⟩ := exists_mapM_readsBack fun o ho ↦
    rules.readsBack_elementOccurrence h.lists ((h.closed hlist).isUndivided ho) (hfilled.2 o ho)
  rw [hread, render_lists hlist hmultiple, hwritten] at hr
  obtain rfl := Except.ok.inj hr
  rw [hread, hread, occurrences_joinBlank_of_isUndivided hgs]
  exact ParameterValue.literal_list_congr hliteral

end Elements

/-- **The literal of a value is read from what is written for it**, for every shape of value. -/
theorem literal_readAgain (h : p.IsLegible t) (hr : rules.render p (p.interpret t) = .ok r) :
    (p.readAgain r).literal = (p.interpret t).literal := by
  by_cases hnames : p.isElementList = false ∧ p.isQualified = true ∧ p.isMultiple = true
  · obtain ⟨hlist, hqualified, hmultiple⟩ := hnames
    exact rules.literal_readAgain_names hlist hqualified h.filled hmultiple
      (h.names hlist hqualified hmultiple) hr
  rw [ParameterSpec.readAgain, if_neg hnames]
  rcases hlist : p.isElementList with _ | _ <;> rcases hmultiple : p.isMultiple with _ | _
  · rcases hqualified : p.isQualified with _ | _
    · exact rules.literal_interpret_value hlist hqualified h.filled hmultiple hr
    · exact rules.literal_interpret_name hlist hqualified h.filled hmultiple hr
  · rcases hqualified : p.isQualified with _ | _
    · exact rules.literal_interpret_values hlist hqualified h.filled hmultiple hr
    · exact absurd ⟨hlist, hqualified, hmultiple⟩ hnames
  · exact rules.literal_interpret_elements hlist h hmultiple hr
  · exact rules.literal_interpret_lists hlist h hmultiple hr

/-! ### Something is written for the value of a text -/

/-- Where each item is written, all of them are. -/
theorem exists_mapM_eq_ok {read : Text → ParameterValue}
    {write : ParameterValue → Except NoParts Text} (h : ∀ o, ∃ r, write (read o) = .ok r)
    (os : List Text) : ∃ rs, (os.map read).mapM write = .ok rs := by
  obtain ⟨f, hf⟩ := Classical.skolem.1 h
  exact ⟨os.map f, mapM_map_eq_ok fun o _ ↦ hf o⟩

theorem exists_element_of_text (spec : Option ElementSpec) (t : Text) :
    ∃ r, rules.element spec (.text t) = .ok r := by
  rcases hqualified : isQualifiedElement spec (.text t) with _ | _
  · exact ⟨_, rules.element_of_isList_eq_false hqualified rfl⟩
  · exact ⟨_, rules.element_of_isQualified hqualified⟩

theorem exists_element_of_texts (spec : Option ElementSpec) (ts : List Text) :
    ∃ r, rules.element spec (.texts ts) = .ok r := by
  rcases hqualified : isQualifiedElement spec (.texts ts) with _ | _
  · obtain ⟨rs, -, heq, -⟩ := rules.exists_elementTexts_of_forall (P := fun _ ↦ True)
      (List.forall_mem_map.2 fun t _ spec ↦
        (rules.exists_element_of_text spec t).imp fun _ hr ↦ ⟨hr, trivial⟩)
      (spec.elim [] (·.elements))
    refine ⟨parenthesised (joinElements rs), ?_⟩
    rw [texts, rules.element_of_list hqualified, heq]
    rfl
  · exact ⟨_, rules.element_of_isQualified hqualified⟩

/-- An element is written whatever was read for it, also under another declaration. -/
theorem exists_element_interpret (spec spec' : Option ElementSpec) (f : Text) :
    ∃ r, rules.element spec (ElementSpec.interpret spec' f) = .ok r := by
  rw [ElementSpec.interpret.eq_def]
  rcases spec' with _ | e
  · exact rules.exists_element_of_text spec f
  · dsimp only
    split_ifs
    · exact rules.exists_element_of_texts spec _
    · exact rules.exists_element_of_texts spec _
    · exact rules.exists_element_of_text spec f

theorem exists_elementList_interpretList (elements : List ElementSpec) (t : Text) :
    ∃ r, rules.elementList elements (ElementSpec.interpretList elements t) = .ok r := by
  have hparts : ∀ v ∈ ElementReader.readAll ElementSpec.interpret elements (Part.occurrences t),
      ∀ spec, ∃ r, rules.element spec v = .ok r ∧ True := by
    intro v hv spec
    rw [readAll_eq_mapIdx] at hv
    obtain ⟨i, hi, rfl⟩ := List.mem_mapIdx.1 hv
    exact (rules.exists_element_interpret spec elements[i]? _).imp fun _ hr ↦ ⟨hr, trivial⟩
  obtain ⟨rs, -, heq, -⟩ := rules.exists_elementTexts_of_forall hparts elements
  refine ⟨joinElements rs, ?_⟩
  rw [elementList_interpretList, heq]
  rfl

/-- **Something is written for the value of any text**, for every shape of value. -/
theorem exists_render_interpret (p : ParameterSpec) (t : Text) :
    ∃ r, rules.render p (p.interpret t) = .ok r := by
  rcases hlist : p.isElementList with _ | _ <;> rcases hmultiple : p.isMultiple with _ | _
  · rcases hqualified : p.isQualified with _ | _
    · exact ⟨_, render_plain hlist hqualified rules _⟩
    · rw [ParameterSpec.interpret_name hlist hqualified hmultiple]
      exact ⟨_, render_name hlist hqualified hmultiple rules _⟩
  · rcases hqualified : p.isQualified with _ | _
    · exact ⟨_, render_plain hlist hqualified rules _⟩
    · rw [ParameterSpec.interpret_names hlist hqualified hmultiple]
      rcases Part.occurrences t with _ | ⟨o, os⟩
      · exact ⟨_, (render_list _ _ _).trans (by rw [hlist, hqualified, hmultiple]; rfl)⟩
      · have hone : ∀ o, ∃ r, rules.qualified p.qualifiers
            (.texts (objectFirst p.qualifiers.length (unwrapped o))) = .ok r :=
          fun o ↦ ⟨_, rfl⟩
        obtain ⟨rs, hrs⟩ := exists_mapM_eq_ok hone (o :: os)
        rw [render_names hlist hqualified hmultiple rules rfl, hrs]
        exact ⟨_, rfl⟩
  · rw [ParameterSpec.interpret_elements hlist hmultiple, render_elements hlist hmultiple]
    exact rules.exists_elementList_interpretList p.elements t
  · rw [ParameterSpec.interpret_lists hlist hmultiple, render_lists hlist hmultiple]
    have hone : ∀ o, ∃ r, rules.elementOccurrence p.elements
        (ElementSpec.interpretList p.elements (unwrapped o)) = .ok r := by
      intro o
      obtain ⟨r, hr⟩ := rules.exists_elementList_interpretList p.elements (unwrapped o)
      exact ⟨parenthesised r, congrArg (parenthesised <$> ·) hr⟩
    obtain ⟨rs, hrs⟩ := exists_mapM_eq_ok hone (Part.occurrences t)
    exact ⟨joinBlank rs, congrArg (joinBlank <$> ·) hrs⟩

end ValueRules

end ControlLanguage
