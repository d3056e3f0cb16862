import ControlLanguage.Proofs.Parameter.Shapes
import ControlLanguage.Proofs.Parameter.Texts
import ControlLanguage.Proofs.Part.Unwrapping

/-!
# Values settle when they are written

Each shape of a value has its own way from text to value and its own way back, but no way back gives
the text that it came from: values are written in canonical form. What holds instead is that **the
new text is read and written as itself**, and that it has the same value, letter case and quotes
aside (`Settles`). This is shown from the inside out, for a single element, for a list of elements,
and for the value of a parameter.

Qualified names do not occur here.
-/

namespace ControlLanguage

open Text ControlLanguage.Part

/-- Neither the element nor an element of its list is a qualified name. -/
def ElementSpec.IsUnqualified (e : ElementSpec) : Prop :=
  e.qualifiers = [] ∧ ∀ f ∈ e.elements, f.qualifiers = []

/-- Neither the parameter nor one of its elements is a qualified name. -/
structure ParameterSpec.IsUnqualified (p : ParameterSpec) : Prop where
  qualifiers : p.qualifiers = []
  elements : ∀ e ∈ p.elements, e.IsUnqualified

/-- The value of `t` is written as `u`, and so is the value of `u` itself; one value is empty if the
other one is, and they have the same literal. -/
structure Settles (read : Text → ParameterValue) (write : ParameterValue → Except NoParts Text)
    (t u : Text) : Prop where
  first : write (read t) = .ok u
  again : write (read u) = .ok u
  isEmpty_eq : (read u).isEmpty = (read t).isEmpty
  literal_eq : (read u).literal = (read t).literal

/-- An element is read by its description. -/
abbrev ElementReader :=
  Option ElementSpec → Text → ParameterValue

namespace ElementReader

/-- The values of parts by position. -/
def readAll (read : ElementReader) : List ElementSpec → List Text → List ParameterValue
  | _, [] => []
  | elements, part :: parts => read elements.head? part :: readAll read elements.tail parts

/-- Every part is its own value. -/
def asText : ElementReader :=
  fun _ part ↦ .text part

/-- A reader that takes texts as they are makes no lists. -/
theorem readAll_asText (elements : List ElementSpec) (parts : List Text) :
    asText.readAll elements parts = parts.map .text := by
  induction parts generalizing elements with
  | nil => rfl
  | cons part parts ih => rw [readAll, ih, List.map_cons, asText]

theorem readAll_interpret (elements : List ElementSpec) (parts : List Text) :
    readAll ElementSpec.interpret elements parts = ElementSpec.interpretParts elements parts := by
  induction parts generalizing elements with
  | nil => cases elements <;> rfl
  | cons part parts ih =>
    cases elements <;> rw [readAll, ih, ElementSpec.interpretParts] <;> rfl

end ElementReader

namespace ParameterValue

theorem isEmpty_text_eq_false {t : Text} (htrim : t.trim = t) (hne : t ≠ []) :
    (text t).isEmpty = false := by
  rw [isEmpty, htrim]
  exact List.isEmpty_eq_false_iff.2 hne

theorem isEmpty_text {t : Text} (h : IsPart t) : (text t).isEmpty = false :=
  isEmpty_text_eq_false h.trim_eq h.ne_nil

/-- Parts are all empty only if there are none. -/
theorem allEmpty_map_text {ts : List Text} (h : ∀ t ∈ ts, IsPart t) :
    allEmpty (ts.map .text) = ts.isEmpty := by
  rcases ts with _ | ⟨t, ts⟩
  · rfl
  · rw [List.map_cons, allEmpty, isEmpty_text (h t List.mem_cons_self)]
    rfl

end ParameterValue

namespace ValueRules

open ParameterValue ElementReader

variable (rules : ValueRules)

/-! ### Elements -/

section List

variable {read : ElementReader} {P : ElementSpec → Prop}

/-- **What settles element by element settles as a list.** -/
theorem exists_elementTexts
    (h : ∀ spec f, (∀ e ∈ spec, P e) → IsPart f →
      ∃ g, IsPart g ∧ Settles (read spec) (rules.element spec) f g)
    {elements : List ElementSpec} (hP : ∀ e ∈ elements, P e) {fs : List Text}
    (hfs : ∀ f ∈ fs, IsPart f) :
    ∃ gs, (∀ g ∈ gs, IsPart g) ∧ gs.isEmpty = fs.isEmpty ∧
      rules.elementTexts elements (readAll read elements fs) = .ok gs ∧
      rules.elementTexts elements (readAll read elements gs) = .ok gs ∧
      allEmpty (readAll read elements gs) = allEmpty (readAll read elements fs) ∧
      (readAll read elements gs).map literal = (readAll read elements fs).map literal := by
  induction fs generalizing elements with
  | nil => exact ⟨[], nofun, rfl, rfl, rfl, rfl, rfl⟩
  | cons f fs ih =>
    obtain ⟨g, hg, hsettles⟩ := h elements.head? f
      (fun e he ↦ hP e (List.mem_of_mem_head? he)) (hfs f List.mem_cons_self)
    obtain ⟨gs, hgs, -, hfirst, hagain, hempty, hliteral⟩ := ih
      (fun e he ↦ hP e (List.mem_of_mem_tail he)) fun f' hf' ↦ hfs f' (List.mem_cons_of_mem f hf')
    refine ⟨g :: gs, ?_, rfl, ?_, ?_, ?_, ?_⟩
    · rintro g' hg'
      rcases List.mem_cons.1 hg' with rfl | hg'
      · exact hg
      · exact hgs g' hg'
    · rw [readAll, elementTexts, hsettles.first, hfirst]
      rfl
    · rw [readAll, elementTexts, hsettles.again, hagain]
      rfl
    · rw [readAll, allEmpty, hsettles.isEmpty_eq, hempty, readAll, allEmpty]
    · rw [readAll, List.map_cons, hsettles.literal_eq, hliteral, readAll, List.map_cons]

end List

/-- Nothing is left out where no element is empty. -/
theorem joinElements_eq {gs : List Text} (h : ∀ g ∈ gs, g ≠ []) :
    joinElements gs = joinBlank gs := by
  have hfull : ∀ g ∈ gs, g.isEmpty = false := fun g hg ↦ by simpa using h g hg
  rw [joinElements, dropEmptyEnd_eq_self fun g hg ↦ h g (List.mem_of_getLast? hg),
    List.map_congr_left (g := id) fun g hg ↦ by simp [hfull g hg], List.map_id]

/-- An element without qualifiers is written like any text. -/
theorem element_text {spec : Option ElementSpec} (hspec : ∀ e ∈ spec, e.qualifiers = [])
    (f : Text) : rules.element spec (.text f) = .ok ((rules.forElement spec).writtenText f) := by
  have hqualified : isQualifiedElement spec (.text f) = false := by
    cases spec with
    | none => rfl
    | some e => simp [isQualifiedElement, hspec e rfl]
  exact rules.element_of_isList_eq_false hqualified rfl

/-- What is written for a part has its literal. -/
theorem literal_writtenText {f : Text} (hf : IsPart f) :
    (text (rules.writtenText f)).literal = (text f).literal :=
  congrArg text (rules.asLiteral_writtenText hf.trim_eq hf.ne_nil (ne_of_tidy hf.tidy))

/-- So it settles. -/
theorem settles_asText {spec : Option ElementSpec} (hspec : ∀ e ∈ spec, e.qualifiers = [])
    {f : Text} (hf : IsPart f) :
    ∃ g, IsPart g ∧ Settles (asText spec) (rules.element spec) f g := by
  refine ⟨_, (rules.forElement spec).isPart_writtenText hf, rules.element_text hspec f, ?_, ?_, ?_⟩
  · rw [asText, rules.element_text hspec, writtenText_writtenText]
  · rw [asText, asText, isEmpty_text hf, isEmpty_text (isPart_writtenText _ hf)]
  · exact literal_writtenText _ hf

theorem element_list {e : ElementSpec} (he : e.qualifiers = []) {items : List ParameterValue}
    {gs : List Text} (h : rules.elementTexts e.elements items = .ok gs) (hgs : ∀ g ∈ gs, IsPart g) :
    rules.element (some e) (.list items) = .ok (parenthesised (joinBlank gs)) := by
  have hqualified : isQualifiedElement (some e) (.list items) = false := by
    simp [isQualifiedElement, he]
  have hparts : rules.elementTexts ((some e).elim [] (·.elements)) items = .ok gs := h
  rw [rules.element_of_list hqualified, hparts, ← joinElements_eq fun g hg ↦ (hgs g hg).ne_nil]
  rfl

/-- An element that is not a list in parentheses is its text. -/
theorem interpret_eq_text {spec : Option ElementSpec} (hspec : ∀ e ∈ spec, e.qualifiers = [])
    {f : Text} (hf : ∀ e ∈ spec, e.elements ≠ [] → f.head? ≠ some '(') :
    ElementSpec.interpret spec f = .text f := by
  cases spec with
  | none => rfl
  | some e =>
    rw [ElementSpec.interpret, if_neg (by simp [hspec e rfl]), if_neg]
    have hhead := hf e rfl
    simpa using hhead

/-- A list inside a list is read part by part. -/
theorem interpret_eq_texts {e : ElementSpec} (he : e.qualifiers = []) (hlist : e.elements ≠ [])
    {f : Text} (hf : f.head? = some '(') :
    ElementSpec.interpret (some e) f = .texts (occurrences (unwrapped f)) := by
  rw [ElementSpec.interpret, if_neg (by simp [he]), if_pos (by simp [hlist, hf])]

/-- A list in parentheses settles as a list in parentheses. -/
theorem exists_settles_list {e : ElementSpec} (he : e.IsUnqualified) (hne : e.elements ≠ [])
    {f : Text} (hf : IsPart f) (hhead : f.head? = some '(') :
    ∃ g, IsPart g ∧ Settles (ElementSpec.interpret (some e)) (rules.element (some e)) f g := by
  obtain ⟨hplain, helements⟩ := he
  obtain ⟨gs, hgs, -, hfirst, hagain, hempty, hliteral⟩ := rules.exists_elementTexts
    (P := fun e ↦ e.qualifiers = []) (fun _ _ hspec hf ↦ rules.settles_asText hspec hf) helements
    fun o ho ↦ isPart_of_mem_occurrences (tidy_unwrapped hf) ho
  rw [readAll_asText, readAll_asText] at hempty hliteral
  rw [readAll_asText] at hfirst hagain
  have hread : ElementSpec.interpret (some e) (parenthesised (joinBlank gs)) = .texts gs := by
    rw [interpret_eq_texts hplain hne rfl,
      unwrapped_parenthesised (tidy_opening_joinBlank hgs) (trim_joinBlank hgs),
      occurrences_joinBlank hgs]
  refine ⟨_, isPart_parenthesised (tidy_opening_joinBlank hgs), ?_, ?_, ?_, ?_⟩
  · rw [interpret_eq_texts hplain hne hhead]
    exact rules.element_list hplain hfirst hgs
  · rw [hread]
    exact rules.element_list hplain hagain hgs
  · rw [hread, interpret_eq_texts hplain hne hhead]
    exact hempty
  · rw [hread, interpret_eq_texts hplain hne hhead]
    exact literal_list_congr hliteral

/-- Anything else settles as a text. -/
theorem exists_settles_text {spec : Option ElementSpec} (hspec : ∀ e ∈ spec, e.qualifiers = [])
    {f : Text} (hf : IsPart f) (hhead : ∀ e ∈ spec, e.elements ≠ [] → f.head? ≠ some '(') :
    ∃ g, IsPart g ∧ Settles (ElementSpec.interpret spec) (rules.element spec) f g := by
  have hpart := (rules.forElement spec).isPart_writtenText hf
  have hread : ElementSpec.interpret spec ((rules.forElement spec).writtenText f) =
      .text ((rules.forElement spec).writtenText f) :=
    interpret_eq_text hspec fun e he hne hparen ↦
      hhead e he hne (head?_of_writtenText _ hf.trim_eq hf.ne_nil (ne_of_tidy hf.tidy) hparen)
  refine ⟨_, hpart, ?_, ?_, ?_, ?_⟩
  · rw [interpret_eq_text hspec hhead, rules.element_text hspec]
  · rw [hread, rules.element_text hspec, writtenText_writtenText]
  · rw [hread, interpret_eq_text hspec hhead, isEmpty_text hf, isEmpty_text hpart]
  · rw [hread, interpret_eq_text hspec hhead]
    exact literal_writtenText _ hf

/-- **An element settles**, as a text or as a list in parentheses. -/
theorem settles_interpret {spec : Option ElementSpec} (hspec : ∀ e ∈ spec, e.IsUnqualified)
    {f : Text} (hf : IsPart f) :
    ∃ g, IsPart g ∧ Settles (ElementSpec.interpret spec) (rules.element spec) f g := by
  by_cases hlist : ∃ e, spec = some e ∧ e.elements ≠ [] ∧ f.head? = some '('
  · obtain ⟨e, rfl, hne, hhead⟩ := hlist
    exact rules.exists_settles_list (hspec e rfl) hne hf hhead
  · exact rules.exists_settles_text (fun e he ↦ (hspec e he).1) hf
      fun e he hne hhead ↦ hlist ⟨e, he, hne, hhead⟩

/-! ### Lists of elements -/

section ElementList

variable {elements : List ElementSpec} (helements : ∀ e ∈ elements, e.IsUnqualified)

include helements

/-- **A list of elements settles if each of its elements does.** -/
theorem exists_elementList {t : Text} (ht : Tidy true .opening 0 t) :
    ∃ gs, (∀ g ∈ gs, IsPart g) ∧ gs.isEmpty = (Part.occurrences t).isEmpty ∧
      Settles (ElementSpec.interpretList elements) (rules.elementList elements) t
        (joinBlank gs) := by
  obtain ⟨gs, hgs, hlength, hfirst, hagain, hempty, hliteral⟩ := rules.exists_elementTexts
    (P := ElementSpec.IsUnqualified) (fun _ _ hspec hf ↦ rules.settles_interpret hspec hf) helements
    fun o ho ↦ isPart_of_mem_occurrences ht ho
  rw [readAll_interpret, readAll_interpret] at hempty hliteral
  rw [readAll_interpret] at hfirst hagain
  have hread : ElementSpec.interpretList elements (joinBlank gs) =
      .list (ElementSpec.interpretParts elements gs) := by
    rw [ElementSpec.interpretList, occurrences_joinBlank hgs]
  refine ⟨gs, hgs, hlength, ?_, ?_, ?_, ?_⟩
  · rw [ElementSpec.interpretList, elementList, hfirst,
      ← joinElements_eq fun g hg ↦ (hgs g hg).ne_nil]
    rfl
  · rw [hread, elementList, hagain, ← joinElements_eq fun g hg ↦ (hgs g hg).ne_nil]
    rfl
  · rw [hread]
    exact hempty
  · rw [hread]
    exact literal_list_congr hliteral

/-- One occurrence of an element list settles in parentheses. -/
theorem exists_elementOccurrence {o : Text} (ho : IsPart o) :
    ∃ g, IsPart g ∧ Settles (fun o ↦ ElementSpec.interpretList elements (unwrapped o))
      (rules.elementOccurrence elements) o g := by
  obtain ⟨gs, hgs, -, hsettles⟩ := rules.exists_elementList helements (tidy_unwrapped ho)
  have hread : unwrapped (parenthesised (joinBlank gs)) = joinBlank gs :=
    unwrapped_parenthesised (tidy_opening_joinBlank hgs) (trim_joinBlank hgs)
  refine ⟨_, isPart_parenthesised (tidy_opening_joinBlank hgs), ?_, ?_, ?_, ?_⟩
  · show (parenthesised <$> rules.elementList elements _) = _
    rw [hsettles.first]
    rfl
  · rw [hread]
    show (parenthesised <$> rules.elementList elements _) = _
    rw [hsettles.again]
    rfl
  · rw [hread]
    exact hsettles.isEmpty_eq
  · rw [hread]
    exact hsettles.literal_eq

end ElementList

/-- What settles occurrence by occurrence settles as a list. -/
theorem exists_mapM {read : Text → ParameterValue} {write : ParameterValue → Except NoParts Text}
    (h : ∀ o, IsPart o → ∃ g, IsPart g ∧ Settles read write o g) {os : List Text}
    (hos : ∀ o ∈ os, IsPart o) :
    ∃ gs, (∀ g ∈ gs, IsPart g) ∧ gs.isEmpty = os.isEmpty ∧ (os.map read).mapM write = .ok gs ∧
      (gs.map read).mapM write = .ok gs ∧ allEmpty (gs.map read) = allEmpty (os.map read) ∧
      (gs.map read).map literal = (os.map read).map literal := by
  induction os with
  | nil => exact ⟨[], nofun, rfl, rfl, rfl, rfl, rfl⟩
  | cons o os ih =>
    obtain ⟨g, hg, hsettles⟩ := h o (hos o List.mem_cons_self)
    obtain ⟨gs, hgs, -, hfirst, hagain, hempty, hliteral⟩ :=
      ih fun o' ho' ↦ hos o' (List.mem_cons_of_mem o ho')
    refine ⟨g :: gs, ?_, rfl, ?_, ?_, ?_, ?_⟩
    · rintro g' hg'
      rcases List.mem_cons.1 hg' with rfl | hg'
      · exact hg
      · exact hgs g' hg'
    · rw [List.map_cons, List.mapM_cons, hsettles.first, hfirst]
      rfl
    · rw [List.map_cons, List.mapM_cons, hsettles.again, hagain]
      rfl
    · rw [List.map_cons, List.map_cons, allEmpty, allEmpty, hsettles.isEmpty_eq, hempty]
    · rw [List.map_cons, List.map_cons, List.map_cons, List.map_cons, hsettles.literal_eq, hliteral]

/-! ### Parameters -/

theorem plain_true (items : List ParameterValue) :
    rules.plain true (.list items) = rules.writtenOccurrences items := by
  rcases items with _ | ⟨v, _ | ⟨w, items⟩⟩ <;> rfl

theorem writtenOccurrences_texts {os : List Text} (h : ∀ o ∈ os, (text o).isEmpty = false) :
    rules.writtenOccurrences (os.map .text) = joinBlank (os.map rules.writtenText) := by
  rw [writtenOccurrences, List.filter_eq_self.2, List.map_map]
  · rfl
  · rintro v hv
    obtain ⟨o, ho, rfl⟩ := List.mem_map.1 hv
    rw [h o ho]
    rfl

/-- Several values are written one after the other. -/
theorem render_values {p : ParameterSpec} (hlist : p.isElementList = false)
    (hqualified : p.isQualified = false) (hmultiple : p.isMultiple = true) {os : List Text}
    (h : ∀ o ∈ os, (text o).isEmpty = false) :
    rules.render p (.texts os) = .ok (joinBlank (os.map rules.writtenText)) := by
  rw [render_plain hlist hqualified, hmultiple, texts, plain_true,
    rules.writtenOccurrences_texts h]

section Shapes

variable {p : ParameterSpec} {t : Text} (ht : Tidy true .opening 0 t)
  (hne : (p.interpret t).isEmpty = false)

include ht hne

/-- One value settles. -/
theorem exists_render_single (hlist : p.isElementList = false) (hqualified : p.isQualified = false)
    (hmultiple : p.isMultiple = false) :
    ∃ u, IsValue u ∧ Settles p.interpret (rules.render p) t u := by
  have hread := ParameterSpec.interpret_value hlist hqualified hmultiple
  have hwrite := render_value hlist hqualified hmultiple rules
  have hempty : ∀ t : Text, t.trim ≠ [] → (p.interpret t).isEmpty = false := by
    intro t h
    rw [hread, isEmpty, trim_trim]
    simpa using h
  have hvalue : IsValue t.trim := by
    refine ⟨ht.trim, trim_trim t, fun h ↦ ?_⟩
    rw [hread, isEmpty, trim_trim, h] at hne
    exact Bool.noConfusion hne
  have hvalue' := rules.isValue_writtenText hvalue
  refine ⟨rules.writtenText t.trim, hvalue', ?_, ?_, ?_, ?_⟩
  · rw [hread, hwrite]
  · rw [hread, hwrite, hvalue'.trim_eq, writtenText_writtenText]
  · rw [hne, hempty]
    exact hvalue'.trim_eq.symm ▸ hvalue'.ne_nil
  · rw [hread, hread, hvalue'.trim_eq]
    exact congrArg ParameterValue.text (rules.asLiteral_writtenText hvalue.trim_eq hvalue.ne_nil
      (ne_of_tidy hvalue.tidy))

/-- Several values settle, part by part. -/
theorem exists_render_occurrences (hlist : p.isElementList = false)
    (hqualified : p.isQualified = false) (hmultiple : p.isMultiple = true) :
    ∃ u, IsValue u ∧ Settles p.interpret (rules.render p) t u := by
  have hread : ∀ t, p.interpret t = .list ((Part.occurrences t).map .text) :=
    ParameterSpec.interpret_values hlist hqualified hmultiple
  have hparts : ∀ o ∈ Part.occurrences t, IsPart o := fun o ho ↦ isPart_of_mem_occurrences ht ho
  have hwrite : ∀ {os : List Text}, (∀ o ∈ os, IsPart o) →
      rules.render p (.list (os.map .text)) = .ok (joinBlank (os.map rules.writtenText)) :=
    fun hos ↦ rules.render_values hlist hqualified hmultiple fun o ho ↦ isEmpty_text (hos o ho)
  have hgs : ∀ g ∈ (Part.occurrences t).map rules.writtenText, IsPart g := by
    rintro g hg
    obtain ⟨o, ho, rfl⟩ := List.mem_map.1 hg
    exact rules.isPart_writtenText (hparts o ho)
  have hocc : (Part.occurrences t).map rules.writtenText ≠ [] := by
    intro h
    rw [hread, List.map_eq_nil_iff.1 h] at hne
    exact Bool.noConfusion hne
  refine ⟨_, isValue_joinBlank hgs hocc, ?_, ?_, ?_, ?_⟩
  · rw [hread, hwrite hparts]
  · rw [hread, occurrences_joinBlank hgs, hwrite hgs, List.map_map]
    exact congrArg _ (congrArg joinBlank (List.map_congr_left fun o _ ↦
      rules.writtenText_writtenText o))
  · rw [hread, hread, occurrences_joinBlank hgs, isEmpty, isEmpty, allEmpty_map_text hgs,
      allEmpty_map_text hparts, List.isEmpty_map]
  · rw [hread, hread, occurrences_joinBlank hgs]
    refine literal_list_congr ?_
    rw [List.map_map, List.map_map, List.map_map]
    exact List.map_congr_left fun o ho ↦ rules.literal_writtenText (hparts o ho)

/-- One list of elements settles. -/
theorem exists_render_elements (helements : ∀ e ∈ p.elements, e.IsUnqualified)
    (hlist : p.isElementList = true) (hmultiple : p.isMultiple = false) :
    ∃ u, IsValue u ∧ Settles p.interpret (rules.render p) t u := by
  have hread : p.interpret = ElementSpec.interpretList p.elements :=
    funext (ParameterSpec.interpret_elements hlist hmultiple)
  have hwrite : rules.render p = rules.elementList p.elements :=
    funext (render_elements hlist hmultiple rules)
  rw [hread] at hne
  rw [hread, hwrite]
  obtain ⟨gs, hgs, hlength, hsettles⟩ := rules.exists_elementList helements ht
  have hocc : gs ≠ [] := by
    rintro rfl
    rw [ElementSpec.interpretList, List.isEmpty_iff.1 hlength.symm, ← readAll_interpret] at hne
    exact Bool.noConfusion hne
  exact ⟨_, isValue_joinBlank hgs hocc, hsettles⟩

/-- Several lists of elements settle, each of them in parentheses. -/
theorem exists_render_elementOccurrences (helements : ∀ e ∈ p.elements, e.IsUnqualified)
    (hlist : p.isElementList = true) (hmultiple : p.isMultiple = true) :
    ∃ u, IsValue u ∧ Settles p.interpret (rules.render p) t u := by
  have hread := ParameterSpec.interpret_lists hlist hmultiple
  have hwrite := render_lists hlist hmultiple rules
  obtain ⟨gs, hgs, hlength, hfirst, hagain, hempty, hliteral⟩ := exists_mapM
    (fun o ho ↦ rules.exists_elementOccurrence helements ho)
    fun o ho ↦ isPart_of_mem_occurrences ht ho
  have hocc : gs ≠ [] := by
    rintro rfl
    rw [hread, List.isEmpty_iff.1 hlength.symm] at hne
    exact Bool.noConfusion hne
  refine ⟨_, isValue_joinBlank hgs hocc, ?_, ?_, ?_, ?_⟩
  · rw [hread, hwrite, hfirst]
    rfl
  · rw [hread, hwrite, occurrences_joinBlank hgs, hagain]
    rfl
  · rw [hread, hread, isEmpty, isEmpty, occurrences_joinBlank hgs, hempty]
  · rw [hread, hread, occurrences_joinBlank hgs]
    exact literal_list_congr hliteral

/-- **The value of a parameter settles** as a text that is there, if the value is not empty. -/
theorem exists_render (hp : p.IsUnqualified) :
    ∃ u, IsValue u ∧ Settles p.interpret (rules.render p) t u := by
  have hqualified : p.isQualified = false := by simp [ParameterSpec.isQualified, hp.qualifiers]
  cases hlist : p.isElementList <;> cases hmultiple : p.isMultiple
  · exact rules.exists_render_single ht hne hlist hqualified hmultiple
  · exact rules.exists_render_occurrences ht hne hlist hqualified hmultiple
  · exact rules.exists_render_elements ht hne hp.elements hlist hmultiple
  · exact rules.exists_render_elementOccurrences ht hne hp.elements hlist hmultiple

end Shapes

end ValueRules

end ControlLanguage
