import ControlLanguage.Parameter.Default
import ControlLanguage.Parameter.Interpretation
import ControlLanguage.Proofs.Parameter.Texts
import ControlLanguage.Proofs.Part.LetterCase

/-!
# Letter case and the value of a parameter

What a text says as the value of a parameter does not depend on its letter case. **The upper case of
a text has the upper case of its value** (`ParameterSpec.interpret_upper`), a value and its upper
case have the same normal form (`ParameterValue.normal_upper`), and they are rendered alike, letter
case apart (`ValueRules.upper_render`).

All of this is said with `ParameterValue.mapTexts`, which changes the texts of a value and keeps
everything else.
-/

namespace ControlLanguage

open Text

/-! ### Normal forms -/

namespace ParameterValue

/-- Values are all empty if each of them is. -/
theorem allEmpty_eq_all (vs : List ParameterValue) : allEmpty vs = (vs.map isEmpty).all id := by
  induction vs with
  | nil => rfl
  | cons v vs ih => rw [allEmpty, ih, List.map_cons, List.all_cons, id_eq]

theorem normals_eq_map (vs : List ParameterValue) : normals vs = vs.map normal := by
  induction vs with
  | nil => rfl
  | cons v vs ih => rw [normals, ih, List.map_cons]

/-- Letter case does not make a value empty. -/
theorem isEmpty_upper (v : ParameterValue) : v.upper.isEmpty = v.isEmpty := by
  induction v using induct with
  | text t => rw [upper, mapTexts_text, isEmpty, isEmpty, trim_upper, Part.isEmpty_upper]
  | list items ih =>
    rw [upper, mapTexts_list, isEmpty, isEmpty, allEmpty_eq_all, allEmpty_eq_all, List.map_map]
    exact congrArg (List.all · id) (List.map_congr_left ih)
  | _ => rfl

theorem normalText_upper (t : Text) : normalText t.upper = normalText t := by
  rw [normalText, normalText, trim_upper, upper_upper]

/-- **Letter case does not matter for the normal form.** -/
theorem normal_upper (v : ParameterValue) : v.upper.normal = v.normal := by
  induction v using induct with
  | text t => exact normalText_upper t
  | list items ih =>
    rw [upper, mapTexts_list, normal, normal, normals_eq_map, normals_eq_map, List.map_map]
    exact congrArg normalList (List.map_congr_left ih)
  | _ => rfl

end ParameterValue

/-! ### The value of a text -/

open ParameterValue

namespace ElementSpec

/-- The upper case of a part has the upper case of its value. -/
theorem interpret_upper (spec : Option ElementSpec) (part : Text) :
    interpret spec part.upper = (interpret spec part).upper := by
  cases spec with
  | none => rfl
  | some e =>
    have hhead : (part.upper.head? = some '(') = (part.head? = some '(') :=
      propext (head?_upper (by decide) (by decide))
    rw [interpret, interpret, Part.objectFirst_upper, Part.unwrapped_upper, Part.occurrences_upper]
    simp only [hhead]
    split_ifs
    · rw [ParameterValue.upper, mapTexts_texts]
    · rw [ParameterValue.upper, mapTexts_texts]
    · rfl

/-- Parts in upper case have their values in upper case, position by position. -/
theorem interpretParts_upper (elements : List ElementSpec) (parts : List Text) :
    interpretParts elements (parts.map Text.upper) =
      (interpretParts elements parts).map ParameterValue.upper := by
  induction parts generalizing elements with
  | nil => cases elements <;> rfl
  | cons part parts ih =>
    cases elements with
    | nil =>
      rw [List.map_cons, interpretParts, interpretParts, ih, interpret_upper, List.map_cons]
    | cons e elements =>
      rw [List.map_cons, interpretParts, interpretParts, ih, interpret_upper, List.map_cons]

/-- So does a list of elements. -/
theorem interpretList_upper (elements : List ElementSpec) (t : Text) :
    interpretList elements t.upper = (interpretList elements t).upper := by
  rw [interpretList, interpretList, Part.occurrences_upper, interpretParts_upper,
    ParameterValue.upper, mapTexts_list]

end ElementSpec

namespace ParameterSpec

/-- **The upper case of a text has the upper case of its value.** -/
theorem interpret_upper (p : ParameterSpec) (t : Text) :
    p.interpret t.upper = (p.interpret t).upper := by
  rw [interpret, interpret, Part.occurrences_upper, Part.objectFirst_upper,
    ElementSpec.interpretList_upper, trim_upper]
  split_ifs
  · rw [ParameterValue.upper, mapTexts_list, List.map_map, List.map_map]
    refine congrArg ParameterValue.list (List.map_congr_left fun o _ ↦ ?_)
    simp only [Function.comp, Part.unwrapped_upper, ElementSpec.interpretList_upper]
  · rfl
  · rw [ParameterValue.upper, mapTexts_list, List.map_map, List.map_map]
    refine congrArg ParameterValue.list (List.map_congr_left fun o _ ↦ ?_)
    simp only [Function.comp, Part.unwrapped_upper, Part.objectFirst_upper, mapTexts_texts]
  · rw [ParameterValue.upper, mapTexts_texts]
  · rw [ParameterValue.upper, mapTexts_texts]
  · rfl

end ParameterSpec

/-! ### Rendered values -/

/-- Each character of the texts of the value has one capital. -/
def ParameterValue.HasCapitals (v : ParameterValue) : Prop :=
  ∀ t ∈ v.parts, t.HasCapitals

instance ParameterValue.HasCapitals.decidable (v : ParameterValue) : Decidable v.HasCapitals :=
  List.decidableBAll Text.HasCapitals v.parts

/-- A list has capitals if its members do. -/
theorem ParameterValue.hasCapitals_list {vs : List ParameterValue} :
    (list vs).HasCapitals ↔ ∀ v ∈ vs, v.HasCapitals := by
  simp only [HasCapitals, mem_parts_list]
  exact ⟨fun h v hv t ht ↦ h t ⟨v, hv, ht⟩, fun h t ⟨v, hv, ht⟩ ↦ h v hv t ht⟩

theorem ParameterValue.hasCapitals_text {t : Text} : (text t).HasCapitals ↔ t.HasCapitals :=
  List.forall_mem_singleton

theorem ParameterValue.hasCapitals_map_text {ts : List Text} (h : ∀ t ∈ ts, t.HasCapitals) :
    ∀ v ∈ ts.map text, v.HasCapitals := by
  intro v hv
  obtain ⟨t, ht, rfl⟩ := List.mem_map.1 hv
  exact hasCapitals_text.2 (h t ht)

theorem ParameterValue.map_text_upper (ts : List Text) :
    (ts.map Text.upper).map text = (ts.map text).map ParameterValue.upper := by
  rw [List.map_map, List.map_map]
  rfl

namespace ValueRules

theorem upper_joinBlank (ts : List Text) : (joinBlank ts).upper = joinBlank (ts.map Text.upper) :=
  Part.upper_intercalate (by decide) ts

/-- The parts of a name may be put in upper case before they are joined or after. -/
theorem upper_joined (ts : List Text) :
    (qualified.joined ts).upper = qualified.joined (ts.map Text.upper) := by
  rw [qualified.joined, Part.upper_intercalate (by decide), List.map_reverse]
  rfl

/-- The elements of a list may, too: the placeholder is in upper case already. -/
theorem upper_joinElements (ts : List Text) :
    (joinElements ts).upper = joinElements (ts.map Text.upper) := by
  rw [joinElements, joinElements, upper_joinBlank, Part.dropEmptyEnd_upper, List.map_map,
    List.map_map]
  refine congrArg joinBlank (List.map_congr_left fun t _ ↦ ?_)
  simp only [Function.comp, Part.isEmpty_upper]
  split_ifs
  · decide
  · rfl

variable (rules : ValueRules)

theorem writtenAll_eq_map (vs : List ParameterValue) :
    rules.writtenAll vs = vs.map rules.written := by
  induction vs with
  | nil => rfl
  | cons v vs ih => rw [writtenAll, ih, List.map_cons]

/-- What is written for a value does not depend on its letter case, letter case apart. -/
theorem upper_written {v : ParameterValue} (hv : v.HasCapitals) :
    (rules.written v.upper).upper = (rules.written v).upper := by
  induction v using ParameterValue.induct with
  | text t => exact rules.upper_writtenText_upper (hasCapitals_text.1 hv)
  | list items ih =>
    rw [ParameterValue.upper, mapTexts_list, written, written, writtenAll_eq_map,
      writtenAll_eq_map, upper_joinBlank, upper_joinBlank, List.map_map, List.map_map, List.map_map]
    exact congrArg joinBlank
      (List.map_congr_left fun v hv' ↦ ih v hv' (hasCapitals_list.1 hv v hv'))
  | _ => rfl

/-- The same parts of a name are written, whatever their letter case. -/
theorem upper_qualifierTexts {vs : List ParameterValue} (hvs : ∀ v ∈ vs, v.HasCapitals)
    (qualifiers : List QualifierSpec) :
    (rules.qualifierTexts qualifiers (vs.map ParameterValue.upper)).map Text.upper =
      (rules.qualifierTexts qualifiers vs).map Text.upper := by
  induction vs generalizing qualifiers with
  | nil => rfl
  | cons v vs ih =>
    have hrest := ih (fun w hw ↦ hvs w (List.mem_cons_of_mem v hw)) qualifiers.tail
    rw [List.map_cons, qualifierTexts, qualifierTexts, isEmpty_upper]
    split_ifs
    · exact hrest
    · rw [List.map_cons, List.map_cons, hrest, upper_written _ (hvs v List.mem_cons_self)]

/-- Names that differ in letter case are written alike. -/
theorem upper_qualified (qualifiers : List QualifierSpec) {v : ParameterValue}
    (hv : v.HasCapitals) :
    Text.upper <$> rules.qualified qualifiers v.upper =
      Text.upper <$> rules.qualified qualifiers v := by
  have hjoined : ∀ {vs : List ParameterValue}, (∀ w ∈ vs, w.HasCapitals) →
      (qualified.joined (rules.qualifierTexts qualifiers (vs.map ParameterValue.upper))).upper =
        (qualified.joined (rules.qualifierTexts qualifiers vs)).upper := by
    intro vs hvs
    rw [upper_joined, upper_joined, upper_qualifierTexts rules hvs]
  cases v with
  | text t =>
    rw [ParameterValue.upper, mapTexts_text, qualified, qualified, Part.objectFirst_upper,
      map_text_upper]
    exact congrArg Except.ok (hjoined (hasCapitals_map_text fun u hu ↦
      Part.hasCapitals_of_mem_objectFirst (hasCapitals_text.1 hv) hu))
  | list items =>
    rw [ParameterValue.upper, mapTexts_list]
    exact congrArg Except.ok (hjoined (hasCapitals_list.1 hv))
  | _ => rfl

/-- Letter case does not decide whether an element is written as a name. -/
theorem isQualifiedElement_upper (spec : Option ElementSpec) (v : ParameterValue) :
    isQualifiedElement spec v.upper = isQualifiedElement spec v := by
  cases v with
  | text t =>
    rw [ParameterValue.upper, mapTexts_text, isQualifiedElement, isQualifiedElement,
      Part.isWrapped_upper]
  | _ => rfl

/-- A text and more texts, each of them written or not. -/
theorem upper_bind_cons {a b : Except NoParts Text} {as bs : Except NoParts (List Text)}
    (h : Text.upper <$> a = Text.upper <$> b)
    (hs : List.map Text.upper <$> as = List.map Text.upper <$> bs) :
    List.map Text.upper <$> (do let t ← a; let ts ← as; .ok (t :: ts)) =
      List.map Text.upper <$> (do let t ← b; let ts ← bs; .ok (t :: ts)) := by
  cases a with
  | error e =>
    cases b with
    | error e' => exact congrArg Except.error (Except.error.inj h)
    | ok u => exact absurd h nofun
  | ok t =>
    cases b with
    | error e => exact absurd h nofun
    | ok u =>
      have hhead : t.upper = u.upper := Except.ok.inj h
      cases as with
      | error e =>
        cases bs with
        | error e' => exact congrArg Except.error (Except.error.inj hs)
        | ok us => exact absurd hs nofun
      | ok ts =>
        cases bs with
        | error e => exact absurd hs nofun
        | ok us =>
          have htail : ts.map Text.upper = us.map Text.upper := Except.ok.inj hs
          refine congrArg Except.ok ?_
          rw [List.map_cons, List.map_cons, hhead, htail]

/-- A list that is written member by member. -/
theorem upper_mapM {write : ParameterValue → Except NoParts Text} {vs : List ParameterValue}
    (h : ∀ v ∈ vs, Text.upper <$> write v.upper = Text.upper <$> write v) :
    List.map Text.upper <$> (vs.map ParameterValue.upper).mapM write =
      List.map Text.upper <$> vs.mapM write := by
  induction vs with
  | nil => rfl
  | cons v vs ih =>
    rw [List.map_cons, List.mapM_cons, List.mapM_cons]
    exact upper_bind_cons (h v List.mem_cons_self) (ih fun w hw ↦ h w (List.mem_cons_of_mem v hw))

/-- What holds of each member of a list holds of the list. -/
theorem upper_elementTexts {vs : List ParameterValue}
    (h : ∀ v ∈ vs, ∀ spec, Text.upper <$> rules.element spec v.upper =
      Text.upper <$> rules.element spec v) (elements : List ElementSpec) :
    List.map Text.upper <$> rules.elementTexts elements (vs.map ParameterValue.upper) =
      List.map Text.upper <$> rules.elementTexts elements vs := by
  induction vs generalizing elements with
  | nil => rfl
  | cons v vs ih =>
    rw [List.map_cons, elementTexts, elementTexts]
    exact upper_bind_cons (h v List.mem_cons_self _)
      (ih (fun w hw ↦ h w (List.mem_cons_of_mem v hw)) _)

/-- What is made of texts that agree, letter case apart. -/
theorem upper_map_congr {as bs : Except NoParts (List Text)} {f : List Text → Text}
    (hf : ∀ ts, (f ts).upper = f (ts.map Text.upper))
    (h : List.map Text.upper <$> as = List.map Text.upper <$> bs) :
    Text.upper <$> (f <$> as) = Text.upper <$> (f <$> bs) := by
  have hcomp : ∀ x : Except NoParts (List Text),
      Text.upper <$> (f <$> x) = f <$> (List.map Text.upper <$> x) := by
    intro x
    cases x with
    | error e => rfl
    | ok ts => exact congrArg Except.ok (hf ts)
  rw [hcomp, hcomp, h]

theorem upper_parenthesised (t : Text) : (parenthesised t).upper = parenthesised t.upper :=
  Part.upper_parenthesised t

/-- Elements that differ in letter case are written alike, by induction on the value. -/
theorem upper_element {v : ParameterValue} (hv : v.HasCapitals) (spec : Option ElementSpec) :
    Text.upper <$> rules.element spec v.upper = Text.upper <$> rules.element spec v := by
  have hqualified : ∀ {v : ParameterValue} {spec : Option ElementSpec}, v.HasCapitals →
      isQualifiedElement spec v = true →
        Text.upper <$> rules.element spec v.upper = Text.upper <$> rules.element spec v := by
    intro v spec hv h
    rw [rules.element_of_isQualified h,
      rules.element_of_isQualified ((isQualifiedElement_upper spec v).trans h)]
    exact rules.upper_qualified _ hv
  have hsingle : ∀ {v : ParameterValue}, v.isList = false → v.HasCapitals → ∀ spec,
      Text.upper <$> rules.element spec v.upper = Text.upper <$> rules.element spec v := by
    intro v hlist hv spec
    by_cases h : isQualifiedElement spec v = true
    · exact hqualified hv h
    · rw [Bool.not_eq_true] at h
      rw [rules.element_of_isList_eq_false h hlist, rules.element_of_isList_eq_false
        ((isQualifiedElement_upper spec v).trans h) ((isList_mapTexts _ v).trans hlist)]
      exact congrArg Except.ok ((rules.forElement spec).upper_written hv)
  induction v using ParameterValue.induct generalizing spec with
  | list items ih =>
    by_cases h : isQualifiedElement spec (.list items) = true
    · exact hqualified hv h
    · rw [Bool.not_eq_true] at h
      have h' : isQualifiedElement spec (.list (items.map ParameterValue.upper)) = false := h
      rw [ParameterValue.upper, mapTexts_list, rules.element_of_list h, rules.element_of_list h']
      refine upper_map_congr (fun ts ↦ ?_) (rules.upper_elementTexts
        (fun v hmem spec ↦ ih v hmem (hasCapitals_list.1 hv v hmem) spec) _)
      rw [upper_parenthesised, upper_joinElements]
  | _ => exact hsingle rfl hv spec

/-! ### Lists of elements and parameters -/

/-- So are lists of elements. -/
theorem upper_elementList (elements : List ElementSpec) {v : ParameterValue}
    (hv : v.HasCapitals) :
    Text.upper <$> rules.elementList elements v.upper =
      Text.upper <$> rules.elementList elements v := by
  have hjoined : ∀ {vs : List ParameterValue}, (∀ w ∈ vs, w.HasCapitals) →
      Text.upper <$> (joinElements <$> rules.elementTexts elements (vs.map ParameterValue.upper)) =
        Text.upper <$> (joinElements <$> rules.elementTexts elements vs) := fun hvs ↦
    upper_map_congr upper_joinElements
      (rules.upper_elementTexts (fun w hw ↦ rules.upper_element (hvs w hw)) _)
  cases v with
  | text t =>
    rw [ParameterValue.upper, mapTexts_text, elementList, elementList, Part.occurrences_upper,
      map_text_upper]
    exact hjoined (hasCapitals_map_text fun u hu ↦
      Part.hasCapitals_of_mem_occurrences (hasCapitals_text.1 hv) hu)
  | list items =>
    rw [ParameterValue.upper, mapTexts_list]
    exact hjoined (hasCapitals_list.1 hv)
  | _ => rfl

/-- One of several lists of elements has the same parentheses in upper case. -/
theorem upper_elementOccurrence (elements : List ElementSpec) {v : ParameterValue}
    (hv : v.HasCapitals) :
    Text.upper <$> rules.elementOccurrence elements v.upper =
      Text.upper <$> rules.elementOccurrence elements v := by
  have hparen : ∀ {x y : Except NoParts Text}, Text.upper <$> x = Text.upper <$> y →
      Text.upper <$> (parenthesised <$> x) = Text.upper <$> (parenthesised <$> y) := by
    intro x y h
    have hcomp : ∀ z : Except NoParts Text,
        Text.upper <$> (parenthesised <$> z) = parenthesised <$> (Text.upper <$> z) := by
      intro z
      cases z with
      | error e => rfl
      | ok t => exact congrArg Except.ok (upper_parenthesised t)
    rw [hcomp, hcomp, h]
  cases v with
  | text t =>
    have ht : (ParameterValue.text t.trim).HasCapitals :=
      hasCapitals_text.2 (hasCapitals_text.1 hv).trim
    rw [ParameterValue.upper, mapTexts_text, elementOccurrence, elementOccurrence,
      Part.isWrapped_upper, trim_upper]
    split_ifs
    · exact congrArg Except.ok (upper_upper t.trim)
    · exact hparen (rules.upper_elementList elements ht)
  | _ => exact hparen (rules.upper_elementList elements hv)

/-- The same occurrences are empty, and the others are written alike. -/
theorem upper_writtenOccurrences {vs : List ParameterValue} (hvs : ∀ v ∈ vs, v.HasCapitals) :
    (rules.writtenOccurrences (vs.map ParameterValue.upper)).upper =
      (rules.writtenOccurrences vs).upper := by
  have hempty : (fun v : ParameterValue ↦ !v.isEmpty) ∘ ParameterValue.upper = (!·.isEmpty) :=
    funext fun v ↦ congrArg (!·) (isEmpty_upper v)
  rw [writtenOccurrences, writtenOccurrences, upper_joinBlank, upper_joinBlank, List.filter_map,
    hempty, List.map_map, List.map_map, List.map_map]
  exact congrArg joinBlank (List.map_congr_left fun v hv ↦
    rules.upper_written (hvs v (List.mem_filter.1 hv).1))

/-- Plain values that differ in letter case are written alike, whether there is one or more. -/
theorem upper_plain (isMultiple : Bool) {v : ParameterValue} (hv : v.HasCapitals) :
    (rules.plain isMultiple v.upper).upper = (rules.plain isMultiple v).upper := by
  cases v with
  | text t =>
    cases isMultiple with
    | false => exact rules.upper_written hv
    | true =>
      show (rules.writtenOccurrences ((Part.occurrences t.upper).map ParameterValue.text)).upper = _
      rw [Part.occurrences_upper, map_text_upper]
      exact rules.upper_writtenOccurrences (hasCapitals_map_text fun u hu ↦
        Part.hasCapitals_of_mem_occurrences (hasCapitals_text.1 hv) hu)
  | list items =>
    rw [ParameterValue.upper, mapTexts_list]
    rcases items with _ | ⟨v, _ | ⟨w, items⟩⟩
    · rfl
    · cases isMultiple with
      | false => exact rules.upper_written (hasCapitals_list.1 hv v List.mem_cons_self)
      | true => exact rules.upper_writtenOccurrences (hasCapitals_list.1 hv)
    · exact rules.upper_writtenOccurrences (hasCapitals_list.1 hv)
  | _ => rfl

theorem any_isList_upper (vs : List ParameterValue) :
    (vs.map ParameterValue.upper).any ParameterValue.isList = vs.any ParameterValue.isList := by
  rw [List.any_map]
  exact List.any_congr rfl fun v ↦ isList_mapTexts _ v

section Render

variable (p : ParameterSpec)

/-- A value that is not a list is rendered by the kind of the parameter, and it does not matter how
often that occurs. -/
theorem render_of_isList_eq_false {v : ParameterValue} (hv : v.isList = false) :
    rules.render p v =
      if p.isElementList then rules.elementList p.elements v
      else if p.isQualified then rules.qualified p.qualifiers v
      else .ok (rules.plain p.isMultiple v) := by
  cases v with
  | list items => exact Bool.noConfusion hv
  | _ =>
    rw [render.eq_def]
    cases p.isMultiple <;> rfl

/-- A list is rendered by the kind of the parameter and by whether that occurs several times. -/
theorem render_list (items : List ParameterValue) :
    rules.render p (.list items) =
      if p.isElementList then
        if p.isMultiple then joinBlank <$> items.mapM (rules.elementOccurrence p.elements)
        else rules.elementList p.elements (.list items)
      else if p.isQualified then
        if p.isMultiple then
          if items.any ParameterValue.isList then
            (fun texts ↦ joinBlank (texts.filter (!·.isEmpty))) <$>
              items.mapM (rules.qualified p.qualifiers)
          else rules.qualified p.qualifiers (.list items)
        else rules.qualified p.qualifiers (.list items)
      else .ok (rules.plain p.isMultiple (.list items)) := by
  rw [render.eq_def]
  cases p.isMultiple <;> rfl

/-- **Values that differ in letter case are rendered alike**, letter case apart. -/
theorem upper_render {v : ParameterValue} (hv : v.HasCapitals) :
    Text.upper <$> rules.render p v.upper = Text.upper <$> rules.render p v := by
  by_cases hlist : v.isList = true
  · cases v with
    | list items =>
      have hitems := hasCapitals_list.1 hv
      have helements := rules.upper_elementList p.elements hv
      have hqualified := rules.upper_qualified p.qualifiers hv
      have hplain := rules.upper_plain p.isMultiple hv
      rw [ParameterValue.upper, mapTexts_list] at helements hqualified hplain ⊢
      rw [render_list, render_list, any_isList_upper]
      split_ifs
      · exact upper_map_congr upper_joinBlank
          (upper_mapM fun w hw ↦ rules.upper_elementOccurrence p.elements (hitems w hw))
      · exact helements
      · refine upper_map_congr (fun ts ↦ ?_)
          (upper_mapM fun w hw ↦ rules.upper_qualified p.qualifiers (hitems w hw))
        have hempty : (fun t : Text ↦ !t.isEmpty) ∘ Text.upper = (!·.isEmpty) :=
          funext fun t ↦ congrArg (!·) (Part.isEmpty_upper t)
        rw [upper_joinBlank, List.filter_map, hempty]
      · exact hqualified
      · exact hqualified
      · exact congrArg Except.ok hplain
    | _ => exact Bool.noConfusion hlist
  · rw [Bool.not_eq_true] at hlist
    rw [rules.render_of_isList_eq_false p hlist,
      rules.render_of_isList_eq_false p ((isList_mapTexts _ v).trans hlist)]
    split_ifs
    · exact rules.upper_elementList p.elements hv
    · exact rules.upper_qualified p.qualifiers hv
    · exact congrArg Except.ok (rules.upper_plain p.isMultiple hv)

end Render

end ValueRules

end ControlLanguage
