import ControlLanguage.Proofs.Part.Padding
import ControlLanguage.Proofs.Statement.Occurrences

/-!
# Positions of elements

Elements are told apart by their positions, so a list has to be read with its elements where they
were written. The parts of a list are undivided texts, blank texts for elements that are left out,
and lists of these. **Whatever is written for a part is empty or undivided** (`exists_element`): it
may be put in upper case or in quotes, joined with slashes or put in parentheses, but no blank comes
to stand outside of quotes and parentheses. With a placeholder for each empty text but those at the
end, the list is cut apart into what was written for its parts (`exists_occurrences_elementList`).
-/

namespace ControlLanguage

open Text ValueRules

namespace Part

/-- A text that is read as one part: it is well-nested, trimmed and not empty, and each of its
blanks stands inside quotes or parentheses. -/
structure IsUndivided (t : Text) : Prop where
  isWellNested : IsWellNested t
  trim_eq : t.trim = t
  ne_nil : t ≠ []
  afterText_ne : ∀ {u c v}, t = u ++ c :: v → isBlank c = true →
    Nesting.outside.afterText u ≠ .outside

/-- Empty or undivided. -/
structure IsNeat (t : Text) : Prop where
  isUnbroken : IsUnbroken t
  trim_eq : t.trim = t

/-- What is one part is neat. -/
theorem IsUndivided.isNeat {t : Text} (h : IsUndivided t) : IsNeat t :=
  ⟨⟨h.isWellNested, isWhole_blank_iff.2 h.afterText_ne⟩, h.trim_eq⟩

/-- And a neat text is one part or empty. -/
theorem IsNeat.isUndivided {t : Text} (h : IsNeat t) (hne : t ≠ []) : IsUndivided t :=
  ⟨h.isUnbroken.isWellNested, h.trim_eq, hne, isWhole_blank_iff.1 h.isUnbroken.isWhole⟩

/-- A text is undivided if and only if it is neat and not empty. -/
theorem isUndivided_iff {t : Text} : IsUndivided t ↔ (IsUnbroken t ∧ t.trim = t) ∧ t ≠ [] :=
  ⟨fun h ↦ ⟨⟨h.isNeat.isUnbroken, h.trim_eq⟩, h.ne_nil⟩,
    fun h ↦ IsNeat.isUndivided ⟨h.1.1, h.1.2⟩ h.2⟩

instance IsUndivided.decidable (t : Text) : Decidable (IsUndivided t) :=
  decidable_of_iff' _ isUndivided_iff

namespace IsNeat

variable {t u : Text}

theorem nil : IsNeat [] :=
  ⟨.nil, rfl⟩

theorem upper (h : IsNeat t) : IsNeat t.upper :=
  ⟨h.isUnbroken.upper, by rw [trim_upper, h.trim_eq]⟩

/-- A slash joins neat texts to a neat one. -/
theorem append_slash (ht : IsNeat t) (hu : IsNeat u) : IsNeat (t ++ '/' :: u) := by
  have hslash : isWhiteSpace '/' = false := by decide
  have hink : ∀ {v : Text}, v.trim = v → v = [] ∨ BeginsInk v ∧ EndsInk v :=
    fun {v} hv ↦ hv ▸ trim_eq_nil_or_ink v
  refine ⟨ht.isUnbroken.append_slash hu.isUnbroken, trim_of_ink ?_ ?_⟩
  · rcases hink ht.trim_eq with rfl | ⟨hbegins, -⟩
    · exact ⟨'/', u, rfl, hslash⟩
    · exact hbegins.append _
  · rcases hink hu.trim_eq with rfl | ⟨-, hends⟩
    · exact ⟨t, '/', rfl, hslash⟩
    · exact (hends.append ['/']).append t

/-- So a qualified name of neat parts is neat. -/
theorem joined {parts : List Text} (h : ∀ t ∈ parts, IsNeat t) :
    IsNeat (qualified.joined parts) := by
  by_cases hnil : parts = []
  · rw [hnil]
    exact nil
  · exact intercalate_induction (P := IsNeat) append_slash (by simpa using hnil)
      fun t ht ↦ h t (List.mem_reverse.1 ht)

/-- Parentheses make any balanced text neat. -/
theorem parenthesised (h : IsWellNested t) : IsNeat (parenthesised t) :=
  ⟨h.isUnbroken_parenthesised,
    trim_of_ink ⟨'(', t ++ [')'], rfl, by decide⟩ ⟨'(' :: t, ')', rfl, by decide⟩⟩

/-- What is written for a neat text is neat. -/
theorem writtenText (h : IsNeat t.trim) (rules : ValueRules) : IsNeat (rules.writtenText t) :=
  ⟨h.isUnbroken.writtenText rules, rules.trim_writtenText t⟩

end IsNeat

/-- Blanks between balanced texts leave them balanced. -/
theorem IsWellNested.joinBlank {ts : List Text} (h : ∀ t ∈ ts, IsWellNested t) :
    IsWellNested (joinBlank ts) := by
  by_cases hnil : ts = []
  · rw [hnil]
    exact nil
  · have hblank : IsWellNested [' '] :=
      ⟨staysNonneg_cons.2 ⟨Int.le_refl 0, staysNonneg_nil.2 (Int.le_refl 0)⟩, rfl⟩
    exact intercalate_induction (P := IsWellNested) (fun ht hu ↦ ht.append (hblank.append hu))
      hnil h

/-- Undivided texts that are joined are cut apart again. -/
theorem occurrences_joinBlank_of_isUndivided {ts : List Text} (h : ∀ t ∈ ts, IsUndivided t) :
    occurrences (joinBlank ts) = ts := by
  have hcut : IsCut isBlank ts :=
    ⟨fun t ht ↦ (h t ht).isNeat.isUnbroken.isWhole,
      List.pairwise_of_forall_mem_list fun t ht _ _ ↦ (h t ht).isWellNested.afterText_eq⟩
  rw [hcut.occurrences_joinBlank fun t ht ↦ (h t ht).trim_eq,
    filter_not_isEmpty fun t ht ↦ (h t ht).ne_nil]

/-! ### The parts of an element list -/

/-- A text that stands for one element: a blank one leaves the element out. -/
def IsItem (t : Text) : Prop :=
  t.trim = [] ∨ IsUndivided t

instance IsItem.decidable (t : Text) : Decidable (IsItem t) :=
  inferInstanceAs (Decidable (_ ∨ _))

/-- A part of an element list: a text, or a list of texts for a qualified name or a list inside the
list. -/
inductive IsElementPart : ParameterValue → Prop where
  | text {t : Text} : IsItem t → IsElementPart (.text t)
  | texts {ts : List Text} : (∀ t ∈ ts, IsItem t) → IsElementPart (.texts ts)

theorem IsItem.isNeat_trim {t : Text} (h : IsItem t) : IsNeat t.trim := by
  rcases h with h | h
  · rw [h]
    exact .nil
  · rw [h.trim_eq]
    exact h.isNeat

/-- The parts of a name are neat where the name is. -/
theorem IsItem.isNeat_of_mem_objectFirst {n : Int} {t u : Text} (h : IsItem t)
    (hu : u ∈ objectFirst n t) : IsNeat u.trim := by
  rcases h with h | h
  · rw [objectFirst_of_isWhite (isWhite_iff_trim_eq_nil.2 h)] at hu
    exact absurd hu List.not_mem_nil
  · exact ⟨(h.isNeat.isUnbroken.of_mem_objectFirst hu).trim, trim_trim u⟩

end Part

namespace ValueRules

open ControlLanguage.Part

variable (rules : ValueRules)

/-- So are the texts that are written for them. -/
theorem isNeat_of_mem_qualifierTexts (qualifiers : List QualifierSpec) {ts : List Text}
    (h : ∀ t ∈ ts, IsNeat t.trim) {u : Text}
    (hu : u ∈ rules.qualifierTexts qualifiers (ts.map .text)) : IsNeat u := by
  induction ts generalizing qualifiers with
  | nil => cases hu
  | cons t ts ih =>
    obtain ⟨ht, hts⟩ := List.forall_mem_cons.1 h
    rw [List.map_cons, qualifierTexts] at hu
    split_ifs at hu
    · exact ih _ hts hu
    · rcases List.mem_cons.1 hu with rfl | hu
      · exact ht.writtenText _
      · exact ih _ hts hu

/-- **A qualified name is written as an undivided text**, if anything is written for it. -/
theorem exists_qualified (qualifiers : List QualifierSpec) {v : ParameterValue}
    (hv : IsElementPart v) : ∃ r, rules.qualified qualifiers v = .ok r ∧ IsNeat r := by
  cases hv with
  | text ht =>
    exact ⟨_, rfl, .joined fun u ↦ rules.isNeat_of_mem_qualifierTexts qualifiers
      fun f hf ↦ ht.isNeat_of_mem_objectFirst hf⟩
  | texts hts =>
    exact ⟨_, rfl, .joined fun u ↦ rules.isNeat_of_mem_qualifierTexts qualifiers
      fun t ht ↦ (hts t ht).isNeat_trim⟩

/-! ### Lists of elements -/

/-- If something is written for each part, it is what the list is joined from. -/
theorem exists_elementTexts_of_forall {P : Text → Prop} {parts : List ParameterValue}
    (h : ∀ v ∈ parts, ∀ spec, ∃ r, rules.element spec v = .ok r ∧ P r)
    (elements : List ElementSpec) :
    ∃ rs, (parts.mapIdx fun i v ↦ rules.element elements[i]? v) = rs.map .ok ∧
      rules.elementTexts elements parts = .ok rs ∧ ∀ r ∈ rs, P r := by
  induction parts generalizing elements with
  | nil => exact ⟨[], rfl, rfl, nofun⟩
  | cons v parts ih =>
    obtain ⟨hv, hparts⟩ := List.forall_mem_cons.1 h
    obtain ⟨r, hr, hneat⟩ := hv elements[0]?
    obtain ⟨rs, htexts, heq, hrs⟩ := ih hparts elements.tail
    refine ⟨r :: rs, ?_, ?_, List.forall_mem_cons.2 ⟨hneat, hrs⟩⟩
    · rw [List.mapIdx_cons, hr, List.map_cons, ← htexts]
      simp only [List.getElem?_tail]
    · rw [elementTexts, List.head?_eq_getElem?, hr, heq]
      rfl

/-- The placeholder for an element that is left out. -/
def placed (t : Text) : Text :=
  if t = [] then "*N".toList else t

/-- **A neat text in its place is one part**: an empty one has a literal in its place. -/
theorem isUndivided_placed {t : Text} (h : IsNeat t) : IsUndivided (placed t) := by
  rw [placed]
  split_ifs with hnil
  · have hplain : "*N".toList.all isPlain = true := by decide
    exact IsNeat.isUndivided ⟨.of_isPlain (List.all_eq_true.1 hplain), by decide⟩ (by decide)
  · exact h.isUndivided hnil

/-- Elements are joined by blanks, without the empty ones at the end. -/
theorem joinElements_eq_joinBlank (rs : List Text) :
    joinElements rs = joinBlank ((dropEmptyEnd rs).map placed) := by
  rw [joinElements]
  refine congrArg joinBlank (List.map_congr_left fun t _ ↦ ?_)
  simp only [placed, List.isEmpty_iff]
  rfl

section Join

variable {rs : List Text} (h : ∀ r ∈ rs, IsNeat r)

include h

theorem isUndivided_of_mem_placed {t : Text} (ht : t ∈ (dropEmptyEnd rs).map placed) :
    IsUndivided t := by
  obtain ⟨r, hr, rfl⟩ := List.mem_map.1 ht
  obtain ⟨es, heq, -, -⟩ := exists_dropEmptyEnd rs
  exact isUndivided_placed (h r (heq ▸ List.mem_append_left es hr))

theorem isWellNested_joinElements : IsWellNested (joinElements rs) := by
  rw [joinElements_eq_joinBlank]
  exact .joinBlank fun t ht ↦ (isUndivided_of_mem_placed h ht).isWellNested

/-- **Each text is read at its position**, with a placeholder if it is empty and others follow. -/
theorem occurrences_joinElements :
    Part.occurrences (joinElements rs) = (dropEmptyEnd rs).map placed := by
  rw [joinElements_eq_joinBlank]
  exact occurrences_joinBlank_of_isUndivided fun t ↦ isUndivided_of_mem_placed h

end Join

/-! ### What is written for one part -/

/-- An element is written for every text, and it is neat. -/
theorem exists_element_text (spec : Option ElementSpec) {t : Text} (ht : IsItem t) :
    ∃ r, rules.element spec (.text t) = .ok r ∧ IsNeat r := by
  cases hqualified : isQualifiedElement spec (.text t)
  · exact ⟨_, rules.element_of_isList_eq_false hqualified rfl, ht.isNeat_trim.writtenText _⟩
  · rw [rules.element_of_isQualified hqualified]
    exact rules.exists_qualified _ (.text ht)

/-- **What is written for a part is undivided**, if anything is written for it. -/
theorem exists_element (spec : Option ElementSpec) {v : ParameterValue} (hv : IsElementPart v) :
    ∃ r, rules.element spec v = .ok r ∧ IsNeat r := by
  cases hv with
  | text ht => exact rules.exists_element_text spec ht
  | @texts ts hts =>
    cases hqualified : isQualifiedElement spec (.texts ts)
    · obtain ⟨rs, -, heq, hrs⟩ := rules.exists_elementTexts_of_forall
        (List.forall_mem_map.2 fun t ht spec ↦ rules.exists_element_text spec (hts t ht))
        (spec.elim [] (·.elements))
      refine ⟨parenthesised (joinElements rs), ?_,
        .parenthesised (isWellNested_joinElements hrs)⟩
      rw [ParameterValue.texts, rules.element_of_list hqualified, heq]
      rfl
    · rw [rules.element_of_isQualified hqualified]
      exact rules.exists_qualified _ (.texts hts)

/-- **Elements keep their positions.** Something is written for each part, and the list is cut apart
into just that, with a placeholder for each empty text but those at the end. -/
theorem exists_occurrences_elementList (elements : List ElementSpec) {parts : List ParameterValue}
    (hparts : ∀ v ∈ parts, IsElementPart v) :
    ∃ (rs : List Text) (t : Text),
      (parts.mapIdx fun i v ↦ rules.element elements[i]? v) = rs.map .ok ∧
      rules.elementList elements (.list parts) = .ok t ∧
      (∃ n ≤ rs.length, (∀ r ∈ rs.drop n, r = []) ∧ (∀ r ∈ (rs.take n).getLast?, r ≠ []) ∧
        Part.occurrences t = (rs.take n).map fun r ↦ if r = [] then "*N".toList else r) ∧
      IsWellNested t := by
  obtain ⟨rs, htexts, heq, hrs⟩ := rules.exists_elementTexts_of_forall
    (fun v hv spec ↦ rules.exists_element spec (hparts v hv)) elements
  obtain ⟨es, hes, hempty, hlast⟩ := exists_dropEmptyEnd rs
  have htake : rs.take (dropEmptyEnd rs).length = dropEmptyEnd rs :=
    (congrArg (List.take _) hes).trans List.take_left
  have hdrop : rs.drop (dropEmptyEnd rs).length = es :=
    (congrArg (List.drop _) hes).trans List.drop_left
  refine ⟨rs, joinElements rs, htexts, ?_, ⟨(dropEmptyEnd rs).length, ?_, ?_, ?_, ?_⟩,
    isWellNested_joinElements hrs⟩
  · rw [elementList, heq]
    rfl
  · have hlength := congrArg List.length hes
    rw [List.length_append] at hlength
    omega
  · rwa [hdrop]
  · rwa [htake]
  · rw [htake]
    exact occurrences_joinElements hrs

/-- An element without qualifiers and elements. -/
def plainElement : ElementSpec :=
  ⟨[], [], none, [], [], []⟩

/-- A qualified element, a list inside the list, and plain elements. -/
def mixedElements : List ElementSpec :=
  [{ plainElement with qualifiers := [⟨[], [], none, []⟩, ⟨[], [], none, []⟩] },
    { plainElement with elements := [plainElement, plainElement] }, plainElement]

/-- Four elements, one of them left out, and another one at the end that is left out too. -/
theorem exists_occurrences_elementList_mixed :
    let rules : ValueRules := ⟨[], []⟩
    let parts : List ParameterValue := [.text "lib/(a b)".toList,
      .texts ["abc".toList, " ".toList, "f(x y)".toList], .text "\t".toList,
      .text "'it''s (2'".toList, .text []]
    (∀ v ∈ parts, IsElementPart v) ∧
    rules.elementList mixedElements (.list parts) =
      .ok "LIB/(a b) (ABC *N 'f(x y)') *N 'it''s (2'".toList ∧
    ∃ (rs : List Text) (t : Text),
      (parts.mapIdx fun i v ↦ rules.element mixedElements[i]? v) = rs.map .ok ∧
      rules.elementList mixedElements (.list parts) = .ok t ∧
      (∃ n ≤ rs.length, (∀ r ∈ rs.drop n, r = []) ∧ (∀ r ∈ (rs.take n).getLast?, r ≠ []) ∧
        Part.occurrences t = (rs.take n).map fun r ↦ if r = [] then "*N".toList else r) ∧
      IsWellNested t := by
  intro rules parts
  have hparts : ∀ v ∈ parts, IsElementPart v := by
    simp only [parts, List.forall_mem_cons]
    exact ⟨.text (by decide +kernel), .texts (by decide +kernel), .text (by decide +kernel),
      .text (by decide +kernel), .text (by decide +kernel), nofun⟩
  exact ⟨hparts, by decide +kernel, rules.exists_occurrences_elementList mixedElements hparts⟩

end ValueRules

end ControlLanguage
