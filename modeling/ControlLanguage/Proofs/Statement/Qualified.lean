import ControlLanguage.Proofs.Part.Qualified
import ControlLanguage.Proofs.Statement.Rebuilding

/-!
# Qualified names survive assembly

The value of a qualified parameter is one name, or several of them, each a list of parts with its
object first. A statement is assembled from it and read again, and **the parts come back as they
were written** (`readBack_namesValue`), which is in canonical form unless they are commands. This is
so whenever the lexer reads the names as a whole; for that it is enough that behind the first slash
of each of them a text goes on with a word, as all names, variables and special values do
(`isWordRun_of_mem_writtenNames`).

Without that condition it fails: the quotes of a literal behind a slash mean nothing to the lexer,
so a parenthesis in it ends the value (`readBack_ne_canonical`).
-/

namespace ControlLanguage

open Text ControlLanguage.Part

/-! ### The parts as they are written -/

namespace ValueRules

variable (rules : ValueRules)

/-- The parts of a name, object first, each written by the rules of its qualifier. -/
def nameParts (qualifiers : List QualifierSpec) (parts : List Text) : List Text :=
  parts.mapIdx fun i t ↦ (rules.forQualifier qualifiers[i]?).writtenText t

theorem nameParts_cons (qualifiers : List QualifierSpec) (t : Text) (parts : List Text) :
    rules.nameParts qualifiers (t :: parts) =
      (rules.forQualifier qualifiers.head?).writtenText t ::
        rules.nameParts qualifiers.tail parts := by
  rw [nameParts, List.mapIdx_cons, nameParts]
  cases qualifiers <;> simp

/-- What is written for a part of a name is one. -/
theorem isNamePart_writtenText {t : Text} (h : IsNamePart t.trim) :
    IsNamePart (rules.writtenText t) := by
  rw [writtenText]
  split_ifs
  · exact h
  rcases canonical_cases rules.allowed rules.type t with
    ⟨-, hnil⟩ | ⟨hne, ⟨heq, -⟩ | ⟨heq, -, hq⟩ | heq⟩
  · rcases hnil with hnil | hnil
    · exact absurd hnil h.ink.1.ne_nil
    · exact absurd hnil h.ne_emptyLiteral
  · rw [heq]
    exact h
  · rw [heq]
    rcases h with ⟨b, -, hb⟩ | ⟨-, ht⟩
    · rw [hb, isQuoted_quoted] at hq
      exact Bool.noConfusion hq
    · refine Or.inr ⟨mt upper_eq_nil_iff.1 hne, fun d hd ↦ ?_⟩
      obtain ⟨c, hc, hd⟩ := List.mem_flatMap.1 hd
      refine ⟨isPlain_of_mem_upperChar (ht c hc).1 hd, ?_⟩
      rintro rfl
      exact (ht c hc).2 (eq_of_mem_upperChar_of_lt hd (by decide)).symm
  · rw [heq]
    exact Or.inl ⟨t.trim, hne, rfl⟩

theorem isNamePart_of_mem_nameParts {qualifiers : List QualifierSpec} {parts : List Text}
    (hparts : ∀ t ∈ parts, IsNamePart t.trim) :
    ∀ u ∈ rules.nameParts qualifiers parts, IsNamePart u := by
  intro u hu
  obtain ⟨i, hi, rfl⟩ := List.mem_mapIdx.1 hu
  exact isNamePart_writtenText _ (hparts _ (List.getElem_mem hi))

/-- A word is written as one, even if it is put in quotes. -/
theorem isWordRun_writtenText {t : Text} (h : IsNamePart t.trim) (hq : t.trim.isQuoted = false) :
    IsWordRun (rules.writtenText t) := by
  have hplain : ∀ c ∈ t.trim, isPlain c = true := by
    rcases h with ⟨b, -, hb⟩ | ⟨-, ht⟩
    · rw [hb, isQuoted_quoted] at hq
      exact Bool.noConfusion hq
    · exact fun c hc ↦ (ht c hc).1
  rw [writtenText]
  split_ifs
  · exact .of_forall fun c hc ↦ (Shape.endsWord_of_isPlain (hplain c hc)).1
  rcases canonical_cases rules.allowed rules.type t with ⟨heq, -⟩ | ⟨-, ⟨heq, -⟩ | ⟨heq, -⟩ | heq⟩
  · rw [heq]
    exact .nil
  · rw [heq]
    exact .of_forall fun c hc ↦ (Shape.endsWord_of_isPlain (hplain c hc)).1
  · rw [heq]
    refine .of_forall fun d hd ↦ ?_
    obtain ⟨c, hc, hd⟩ := List.mem_flatMap.1 hd
    exact (Shape.endsWord_of_isPlain (isPlain_of_mem_upperChar (hplain c hc) hd)).1
  · rw [heq]
    refine .of_forall fun d hd ↦ ?_
    simp only [quoted, List.mem_append, List.mem_cons, List.mem_flatMap, List.not_mem_nil,
      or_false] at hd
    rcases hd with (rfl | ⟨c, hc, hd⟩) | rfl
    · decide
    · obtain rfl : d = c := by
        split_ifs at hd <;> simpa using hd
      exact (Shape.endsWord_of_isPlain (hplain d hc)).1
    · decide

/-- The parts of a name and what is written for them have the same literals. -/
theorem literal_nameParts (qualifiers : List QualifierSpec) {parts : List Text}
    (hparts : ∀ t ∈ parts, t.trim = t ∧ t ≠ [] ∧ t ≠ ['\x27', '\x27']) :
    (ParameterValue.texts (rules.nameParts qualifiers parts)).literal =
      (ParameterValue.texts parts).literal := by
  rw [ParameterValue.literal, ParameterValue.literal, ParameterValue.mapTexts_texts,
    ParameterValue.mapTexts_texts]
  refine congrArg ParameterValue.texts ?_
  induction parts generalizing qualifiers with
  | nil => rfl
  | cons t parts ih =>
    obtain ⟨⟨htrim, hne, hempty⟩, hrest⟩ := List.forall_mem_cons.1 hparts
    rw [nameParts_cons, List.map_cons, ih _ hrest, asLiteral_writtenText _ htrim hne hempty]
    rfl

theorem nameParts_ne_nil {qualifiers : List QualifierSpec} {parts : List Text}
    (hne : parts ≠ []) : rules.nameParts qualifiers parts ≠ [] :=
  mt List.mapIdx_eq_nil_iff.1 hne

/-- Parts that are not blank are all written. -/
theorem qualifierTexts_eq (qualifiers : List QualifierSpec) {parts : List Text}
    (hparts : ∀ t ∈ parts, t.trim ≠ []) :
    rules.qualifierTexts qualifiers (parts.map .text) = rules.nameParts qualifiers parts := by
  induction parts generalizing qualifiers with
  | nil => rfl
  | cons t parts ih =>
    have ht : (ParameterValue.text t).isEmpty = false := by
      simpa [ParameterValue.isEmpty] using hparts t List.mem_cons_self
    rw [List.map_cons, qualifierTexts, ht, ih _ fun u hu ↦ hparts u (List.mem_cons_of_mem t hu),
      nameParts_cons]
    rfl

end ValueRules

/-! ### The value of a qualified parameter -/

namespace ParameterSpec

/-- Names as the value of a qualified parameter. One that occurs once has the first name only. -/
def namesValue (p : ParameterSpec) (names : List (List Text)) : ParameterValue :=
  if p.isMultiple then .list (names.map .texts) else .texts (names.headD [])

/-- The rules by which the value of a parameter is written. -/
def rules (p : ParameterSpec) : ValueRules :=
  (AssemblyRules.ofParameters [p]).valueRules p.key

/-- The parts of names as they are written. -/
def writtenNames (p : ParameterSpec) (names : List (List Text)) : List (List Text) :=
  names.map (p.rules.nameParts p.qualifiers)

/-- The text of written names. -/
def namesText (names : List (List Text)) : Text :=
  joinBlank (names.map ValueRules.qualified.joined)

/-- Names that a parameter may have: each has a part, and no more parts than there are
qualifiers. -/
structure TakesNames (p : ParameterSpec) (names : List (List Text)) : Prop where
  elements_eq_nil : p.elements = []
  ne_nil : names ≠ []
  length_eq_one : p.isMultiple = false → names.length = 1
  parts_ne_nil : ∀ parts ∈ names, parts ≠ []
  length_le : ∀ parts ∈ names, parts.length ≤ p.qualifiers.length

/-- What is written for the parts of names are parts of names. -/
theorem isNamePart_of_mem_writtenNames {p : ParameterSpec} {names : List (List Text)}
    (hparts : ∀ parts ∈ names, ∀ t ∈ parts, IsNamePart t.trim) :
    ∀ parts ∈ p.writtenNames names, ∀ t ∈ parts, IsNamePart t := by
  intro us hus
  obtain ⟨parts, hmem, rfl⟩ := List.mem_map.1 hus
  exact p.rules.isNamePart_of_mem_nameParts (hparts parts hmem)

/-- **Names of words go on with words**: all names, variables and special values do. -/
theorem isWordRun_of_mem_writtenNames {p : ParameterSpec} {names : List (List Text)}
    (hparts : ∀ parts ∈ names, ∀ t ∈ parts.dropLast,
      IsNamePart t.trim ∧ t.trim.isQuoted = false) :
    ∀ parts ∈ p.writtenNames names, ∀ t ∈ parts.dropLast, t.IsWordRun := by
  intro us hus u hu
  obtain ⟨parts, hmem, rfl⟩ := List.mem_map.1 hus
  rcases List.eq_nil_or_concat' parts with rfl | ⟨ts, t, rfl⟩
  · exact absurd hu List.not_mem_nil
  · rw [ValueRules.nameParts, List.mapIdx_append, List.mapIdx_singleton,
      List.dropLast_concat] at hu
    obtain ⟨i, hi, rfl⟩ := List.mem_mapIdx.1 hu
    obtain ⟨hpart, hq⟩ := hparts _ hmem ts[i]
      (by rw [List.dropLast_concat]; exact List.getElem_mem hi)
    exact ValueRules.isWordRun_writtenText _ hpart hq

namespace TakesNames

variable {p : ParameterSpec} {names : List (List Text)} (h : p.TakesNames names)

include h

theorem isQualified_eq_true : p.isQualified = true := by
  obtain ⟨parts, rest, rfl⟩ := List.exists_cons_of_ne_nil h.ne_nil
  have hlength := h.length_le parts List.mem_cons_self
  have hpos := List.length_pos_iff.2 (h.parts_ne_nil parts List.mem_cons_self)
  have hne : p.qualifiers ≠ [] := List.length_pos_iff.1 (by omega)
  simpa [ParameterSpec.isQualified] using hne

/-- A parameter takes names as they are written. -/
theorem written : p.TakesNames (p.writtenNames names) := by
  refine ⟨h.elements_eq_nil, mt List.map_eq_nil_iff.1 h.ne_nil, fun hmultiple ↦ ?_, ?_, ?_⟩
  · rw [ParameterSpec.writtenNames, List.length_map, h.length_eq_one hmultiple]
  · intro us hus
    obtain ⟨parts, hmem, rfl⟩ := List.mem_map.1 hus
    exact p.rules.nameParts_ne_nil (h.parts_ne_nil parts hmem)
  · intro us hus
    obtain ⟨parts, hmem, rfl⟩ := List.mem_map.1 hus
    rw [ValueRules.nameParts, List.length_mapIdx]
    exact h.length_le parts hmem

/-- **The text of names is taken apart into them.** -/
theorem interpret_namesText (hparts : ∀ parts ∈ names, ∀ t ∈ parts, IsNamePart t) :
    p.interpret (namesText names) = p.namesValue names := by
  have hread : ∀ parts ∈ names,
      objectFirst p.qualifiers.length (ValueRules.qualified.joined parts) = parts := by
    intro parts hmem
    exact objectFirst_joined (hparts parts hmem) (h.parts_ne_nil parts hmem)
      (h.length_le parts hmem)
  have hlist := ParameterSpec.isElementList_eq_false h.elements_eq_nil
  rcases hmultiple : p.isMultiple with _ | _
  · obtain ⟨parts, rfl⟩ := List.length_eq_one_iff.1 (h.length_eq_one hmultiple)
    rw [interpret_name hlist h.isQualified_eq_true hmultiple, namesValue, hmultiple, namesText,
      List.map_singleton, joinBlank_singleton]
    exact congrArg ParameterValue.texts (hread parts List.mem_cons_self)
  · have hsplit : Part.occurrences (namesText names) = names.map ValueRules.qualified.joined := by
      refine Part.occurrences_joinBlank_of_uncut fun t ht ↦ ?_
      obtain ⟨parts, hmem, rfl⟩ := List.mem_map.1 ht
      have hink := ink_joined (hparts parts hmem) (h.parts_ne_nil parts hmem)
      exact ⟨uncut_joined (hparts parts hmem), trim_of_ink hink.1 hink.2, hink.1.ne_nil⟩
    rw [interpret_names hlist h.isQualified_eq_true hmultiple, namesValue, hmultiple, hsplit,
      List.map_map]
    refine congrArg ParameterValue.list (List.map_congr_left fun parts hmem ↦ ?_)
    show ParameterValue.texts (objectFirst _ (unwrapped _)) = _
    rw [unwrapped_joined (hparts parts hmem) (h.parts_ne_nil parts hmem), hread parts hmem]

/-- **The value is rendered as the text of the written names.** -/
theorem render_namesValue (hparts : ∀ parts ∈ names, ∀ t ∈ parts, IsNamePart t.trim) :
    p.rules.render p (p.namesValue names) = .ok (namesText (p.writtenNames names)) := by
  have hwrite : ∀ parts ∈ names, p.rules.qualified p.qualifiers (.texts parts) =
      .ok (ValueRules.qualified.joined (p.rules.nameParts p.qualifiers parts)) := by
    intro parts hmem
    rw [ParameterValue.texts, ValueRules.qualified,
      p.rules.qualifierTexts_eq _ fun t ht ↦ (hparts parts hmem t ht).ink.1.ne_nil]
  have hlist := ParameterSpec.isElementList_eq_false h.elements_eq_nil
  have hqualified := h.isQualified_eq_true
  rcases hmultiple : p.isMultiple with _ | _
  · obtain ⟨parts, rfl⟩ := List.length_eq_one_iff.1 (h.length_eq_one hmultiple)
    have htext : namesText (p.writtenNames [parts]) =
        ValueRules.qualified.joined (p.rules.nameParts p.qualifiers parts) :=
      joinBlank_singleton _
    rw [htext, ← hwrite parts List.mem_cons_self,
      ValueRules.render_name hlist hqualified hmultiple, namesValue, hmultiple]
    rfl
  · have hany : (names.map ParameterValue.texts).any ParameterValue.isList = true := by
      obtain ⟨parts, rest, rfl⟩ := List.exists_cons_of_ne_nil h.ne_nil
      rfl
    have hall : (names.map ParameterValue.texts).mapM (p.rules.qualified p.qualifiers) =
        .ok ((p.writtenNames names).map ValueRules.qualified.joined) := by
      rw [ParameterSpec.writtenNames, List.map_map]
      exact ValueRules.mapM_map_eq_ok hwrite
    have hfull : ((p.writtenNames names).map ValueRules.qualified.joined).filter (!·.isEmpty) =
        (p.writtenNames names).map ValueRules.qualified.joined := by
      refine filter_not_isEmpty (List.forall_mem_map.2 fun us hus ↦ ?_)
      exact (ink_joined (isNamePart_of_mem_writtenNames hparts us hus)
        (h.written.parts_ne_nil us hus)).1.ne_nil
    rw [namesValue, hmultiple, if_pos rfl,
      ValueRules.render_names hlist hqualified hmultiple _ hany, hall]
    exact congrArg (fun ts ↦ Except.ok (joinBlank ts)) hfull

theorem isEmpty_namesValue (hparts : ∀ parts ∈ names, ∀ t ∈ parts, IsNamePart t.trim) :
    (p.namesValue names).isEmpty = false := by
  obtain ⟨parts, rest, rfl⟩ := List.exists_cons_of_ne_nil h.ne_nil
  have hfirst : (ParameterValue.texts parts).isEmpty = false := by
    obtain ⟨t, ts, rfl⟩ := List.exists_cons_of_ne_nil (h.parts_ne_nil parts List.mem_cons_self)
    have ht := (hparts _ List.mem_cons_self t List.mem_cons_self).ink.1.ne_nil
    simp [ParameterValue.texts, ParameterValue.isEmpty, ParameterValue.allEmpty, ht]
  rw [namesValue]
  split_ifs
  · rw [List.map_cons, ParameterValue.isEmpty, ParameterValue.allEmpty, hfirst]
    rfl
  · exact hfirst

theorem namesText_ne_nil (hparts : ∀ parts ∈ names, ∀ t ∈ parts, IsNamePart t) :
    namesText names ≠ [] := by
  obtain ⟨parts, rest, rfl⟩ := List.exists_cons_of_ne_nil h.ne_nil
  have hink := ink_joined (hparts parts List.mem_cons_self)
    (h.parts_ne_nil parts List.mem_cons_self)
  rw [namesText, joinBlank, List.map_cons, intercalate_eq]
  exact (hink.1.append _).ne_nil

/-- The text of written names is read as a whole, if it is so by itself or if all their parts but
the leftmost ones go on with a word. -/
theorem isSpan_namesText (hparts : ∀ parts ∈ names, ∀ t ∈ parts, IsNamePart t)
    (hread : (namesText names).IsSpan ∨ ∀ parts ∈ names, ∀ t ∈ parts.dropLast, t.IsWordRun) :
    (namesText names).IsSpan := by
  refine hread.elim id fun hrun ↦ IsSpan.joinBlank fun t ht ↦ ?_
  obtain ⟨parts, hmem, rfl⟩ := List.mem_map.1 ht
  have hne := h.parts_ne_nil parts hmem
  exact ⟨isSpan_joined (hparts parts hmem) hne (hrun parts hmem),
    (ink_joined (hparts parts hmem) hne).1.ne_nil⟩

end TakesNames

end ParameterSpec

namespace Statement

/-- The values that are read from the statement that is assembled from one typed value. -/
def readBack (name : Text) (p : ParameterSpec) (v : ParameterValue) :
    Except NoParts (KeyedList ParameterValue) :=
  parameterValues [p] <$> assemble name [(p.keyword, v)] [p] (.ofParameters [p]) [p.keyword] none

/-- A value that is rendered as a span is read back from it. -/
theorem readBack_eq {name : Text} (hname : name.isIdentifier = true) {p : ParameterSpec}
    (hkeyword : p.keyword.isIdentifier = true) {v : ParameterValue} (hempty : v.isEmpty = false)
    {u : Text} (hrender : p.rules.render p v = .ok u) (hspan : u.IsSpan) (hne : u ≠ []) :
    readBack name p v = .ok [(p.key, p.interpret u)] := by
  have hkey : p.key.upper = p.key := upper_upper p.keyword
  have hvalues : KeyedList.HasWordKeys [(p.key, v)] := by
    refine ⟨List.pairwise_singleton _ _, ?_, ?_⟩
    · exact List.forall_mem_singleton.2 hkey
    · exact List.forall_mem_singleton.2 (not_mem_upper_of_isIdentifier hkeyword)
  have hspells : ∀ p' ∈ [p], Spells (.ofParameters [p]) [(p.key, v)] p' (some u) := by
    refine List.forall_mem_singleton.2 ⟨hne, v, ?_, hempty, hrender⟩
    simp [KeyedList.get?]
  -- assembly puts keys in upper case, so it does not matter how the keyword was typed
  have htyped : assemble name [(p.keyword, v)] [p] (.ofParameters [p]) [p.keyword] none =
      assemble name [(p.key, v)] [p] (.ofParameters [p]) [p.key] none := by
    rw [assemble, assemble]
    simp only [KeyedList.mapKeys, List.map_cons, List.map_nil, hkey,
      show p.keyword.upper = p.key from rfl]
  have hentries : entries (commandName name ++ spelled [(p.keyword, u)]) = [(p.keyword, u)] :=
    entries_assembled_of_isSpan hname (List.forall_mem_singleton.2 ⟨hkeyword, hspan⟩)
  rw [readBack, htyped, show [p.key] = ([(p.key, v)] : KeyedList ParameterValue).map (·.1) from rfl,
    assemble_eq name hvalues hspells]
  refine congrArg Except.ok ?_
  show parameterValues [p] (commandName name ++ spelled [(p.keyword, u)]) = _
  rw [parameterValues_eq, hentries]
  have hdistinct : ([p].map ParameterSpec.key).Nodup := List.pairwise_singleton _ _
  exact congrArg (fun w ↦ [(p.key, w)])
    (ParameterSpec.interpretNamed_key hdistinct (List.mem_singleton_self p) u)

/-- **Qualified names are read back in canonical form**, if the lexer reads them as a whole. -/
theorem readBack_namesValue {name : Text} (hname : name.isIdentifier = true) {p : ParameterSpec}
    (hkeyword : p.keyword.isIdentifier = true) {names : List (List Text)} (h : p.TakesNames names)
    (hparts : ∀ parts ∈ names, ∀ t ∈ parts, IsNamePart t.trim)
    (hread : (ParameterSpec.namesText (p.writtenNames names)).IsSpan ∨
      ∀ parts ∈ p.writtenNames names, ∀ t ∈ parts.dropLast, t.IsWordRun) :
    readBack name p (p.namesValue names) =
      .ok [(p.key, p.namesValue (p.writtenNames names))] := by
  have hwritten := ParameterSpec.isNamePart_of_mem_writtenNames (p := p) hparts
  have hspan := h.written.isSpan_namesText hwritten hread
  rw [← h.written.interpret_namesText hwritten]
  exact readBack_eq hname hkeyword (h.isEmpty_namesValue hparts) (h.render_namesValue hparts)
    hspan (h.written.namesText_ne_nil hwritten)

/-- A parameter that is a name of two parts. -/
def nameParameter (keyword type : Text) (max : Int) (elements : List ElementSpec) :
    ParameterSpec :=
  ⟨keyword, type, 0, max, none, [], [⟨[], [], none, []⟩, ⟨[], [], none, ["*LIBL".toList]⟩],
    elements⟩

/-- Of two names the second has literals for parts, one of them with a parenthesis in it. -/
theorem readBack_namesValue_files :
    readBack "SAV".toList (nameParameter "file".toList [] 9 [])
        (.list [.texts ["obj".toList, "*libl".toList],
          .texts ["'My File'".toList, "'a (b'".toList]]) =
      .ok [("FILE".toList, .list [.texts ["OBJ".toList, "*LIBL".toList],
        .texts ["'My File'".toList, "'a (b'".toList]])] := by
  have h : (nameParameter "file".toList [] 9 []).TakesNames
      [["obj".toList, "*libl".toList], ["'My File'".toList, "'a (b'".toList]] := by
    refine ⟨rfl, by simp, fun hmultiple ↦ ?_, by simp, by decide⟩
    exact absurd hmultiple (by decide)
  have hword : ∀ {t : Text}, t ≠ [] → (t.all fun c ↦ isPlain c && c != '/') = true →
      IsNamePart t := by
    intro t hne ht
    exact Or.inr ⟨hne, by simpa using ht⟩
  have hparts : ∀ parts ∈ [["obj".toList, "*libl".toList], ["'My File'".toList, "'a (b'".toList]],
      ∀ t ∈ parts, IsNamePart (Text.trim t) := by
    simp only [List.forall_mem_cons, List.not_mem_nil, false_implies, implies_true, and_true]
    exact ⟨⟨hword (by decide) (by decide), hword (by decide) (by decide)⟩,
      Or.inl ⟨"My File".toList, by decide, by decide⟩, Or.inl ⟨"a (b".toList, by decide, by decide⟩⟩
  have hwritten : (nameParameter "file".toList [] 9 []).writtenNames
      [["obj".toList, "*libl".toList], ["'My File'".toList, "'a (b'".toList]] =
        [["OBJ".toList, "*LIBL".toList], ["'My File'".toList, "'a (b'".toList]] := by
    decide +kernel
  refine (readBack_namesValue (by decide +kernel) (by decide +kernel) h hparts
    (Or.inr ?_)).trans (by decide +kernel)
  rw [hwritten]
  simp only [List.forall_mem_cons, List.not_mem_nil, false_implies, implies_true, and_true,
    List.dropLast]
  exact ⟨by decide, by decide⟩

/-- Canonical form is not always read back. Behind a slash the quotes of a literal mean nothing to
the lexer, and the first closing parenthesis ends the value. A command is written as typed. A
parameter is found by its keyword only if that is a word. A list of elements is read as such, even
where the parameter has qualifiers. -/
theorem readBack_ne_canonical :
    readBack "X".toList (nameParameter "K".toList [] 1 [])
        (.texts ["'A)'".toList, "LIB".toList]) ≠
      .ok [("K".toList, .texts (["'A)'".toList, "LIB".toList].map (canonical [] [])))] ∧
    readBack "X".toList (nameParameter "K".toList "CMD".toList 1 []) (.texts ["abc".toList]) ≠
      .ok [("K".toList, .texts (["abc".toList].map (canonical [] "CMD".toList)))] ∧
    readBack "X".toList (nameParameter "A_B".toList [] 1 []) (.texts ["OBJ".toList]) ≠
      .ok [("A_B".toList, .texts (["OBJ".toList].map (canonical [] [])))] ∧
    readBack "X".toList (nameParameter "K".toList [] 1
        [⟨[], [], none, [], [⟨[], [], none, []⟩], []⟩]) (.texts ["OBJ".toList]) ≠
      .ok [("K".toList, .texts (["OBJ".toList].map (canonical [] [])))] := by
  decide +kernel

end Statement

end ControlLanguage
