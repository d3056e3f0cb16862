import ControlLanguage.Proofs.Part.Nested
import ControlLanguage.Proofs.Statement.Single

/-!
# Occurrences that are written and read again

The occurrences of a value are written one by one, joined by blanks, and cut apart again when the
statement is read. Any text may have been typed, so the last occurrence may have open quotes or
parentheses. It is still one part, and **every occurrence is read again as it was written**
(`exists_assembleOne_occurrences`), in its place among the others.

The empty literal is the exception: it is written as nothing, so it has no part of its own and the
occurrences behind it move up (`occurrences_of_empty_literal_and_element_key`).
-/

namespace ControlLanguage

open Text ControlLanguage.Part

namespace Text

/-- Allowed values are compared in upper case, so they may be given in any case. -/
theorem canonical_map_upper (allowed : List Text) (type t : Text) :
    canonical (allowed.map upper) type t = canonical allowed type t := by
  have hallowed : (allowed.map upper).map (·.trim.upper) = allowed.map (·.trim.upper) := by
    rw [List.map_map]
    refine List.map_congr_left fun a _ ↦ ?_
    show a.upper.trim.upper = a.trim.upper
    rw [trim_upper, upper_upper]
  rw [canonical, canonical, isCapitalised, isCapitalised, hallowed]

/-- **Only the empty literal is written as nothing.** -/
theorem canonical_eq_nil_iff {allowed : List Text} {type t : Text} (ht : t.trim = t)
    (hne : t ≠ []) : canonical allowed type t = [] ↔ t = "''".toList := by
  rcases canonical_cases allowed type t with ⟨h, hnil⟩ | ⟨-, h⟩
  · rw [ht] at hnil
    exact ⟨fun _ ↦ hnil.resolve_left hne, fun _ ↦ h⟩
  · have hform : canonical allowed type t ≠ [] := by
      rw [ht] at h
      rcases h with ⟨h, -⟩ | ⟨h, -⟩ | h <;> rw [h]
      · exact hne
      · exact mt upper_eq_nil_iff.1 hne
      · exact List.cons_ne_nil _ _
    refine ⟨fun h ↦ absurd h hform, ?_⟩
    rintro rfl
    exact absurd rfl hform

end Text

namespace ValueRules

variable (rules : ValueRules)

theorem trim_writtenText (t : Text) : (rules.writtenText t).trim = rules.writtenText t := by
  refine rules.writtenText_induction (P := fun u ↦ u.trim = u) rfl ?_ ?_ (trim_trim t)
  · rw [trim_upper, trim_trim]
  · exact trim_quoted _

/-- What is written for a whole text is whole. -/
theorem isWhole_writtenText {p : Char → Bool} (hp : IsCaseless p) {t : Text}
    (h : IsWhole p .outside t) : IsWhole p .outside (rules.writtenText t) :=
  rules.writtenText_induction isWhole_nil ((h.trim isQuoting_outside).upper hp isQuoting_outside)
    (isWhole_quoted _) (h.trim isQuoting_outside)

/-- What is written for a closed text is closed. -/
theorem afterText_writtenText {t : Text} (h : Nesting.outside.afterText t = .outside) :
    Nesting.outside.afterText (rules.writtenText t) = .outside := by
  have htrim : Nesting.outside.afterText t.trim = .outside :=
    (isQuoting_outside.afterText_trim t).trans h
  exact rules.writtenText_induction (P := fun u ↦ Nesting.outside.afterText u = .outside) rfl
    ((isQuoting_outside.afterText_upper _).trans htrim) (afterText_quoted 0 _) htrim

/-- **What is written for cut texts is cut.** -/
theorem isCut_map_writtenText {ts : List Text} (h : IsCut isBlank ts) :
    IsCut isBlank (ts.map rules.writtenText) :=
  h.map (fun t ht ↦ rules.isWhole_writtenText isCaseless_isBlank (h.isWhole t ht))
    fun _ _ hend ↦ rules.afterText_writtenText hend

/-- Occurrences are read again as they were written, as far as anything was written. -/
theorem occurrences_joinBlank_writtenText (t : Text) :
    Part.occurrences (joinBlank ((Part.occurrences t).map rules.writtenText)) =
      ((Part.occurrences t).map rules.writtenText).filter (!·.isEmpty) :=
  (rules.isCut_map_writtenText (isCut_occurrences t)).occurrences_joinBlank
    (List.forall_mem_map.2 fun o _ ↦ rules.trim_writtenText o)

end ValueRules

/-- A value is written in its canonical form, unless it is a command. -/
theorem ParameterSpec.writtenText_rules (p : ParameterSpec) (htype : isCommandType p.type = false) :
    p.rules.writtenText = canonical p.allowedValues p.type := by
  funext t
  have hdistinct : ([p].map ParameterSpec.key).Nodup := List.nodup_singleton p.key
  have hrules : p.rules = ⟨(p.allowedValues.map upper).map upper, p.type⟩ :=
    AssemblyRules.valueRules_ofParameters hdistinct (List.mem_singleton_self p)
  rw [hrules, ValueRules.writtenText, if_neg (by simp [htype]), canonical_map_upper,
    canonical_map_upper]

namespace Statement

/-- Of the occurrences only an empty literal is written as nothing. -/
theorem canonical_occurrence_eq_nil_iff {allowed : List Text} {type t o : Text}
    (ho : o ∈ Part.occurrences t) : canonical allowed type o = [] ↔ o = "''".toList :=
  canonical_eq_nil_iff (trim_of_mem_occurrences ho) (ne_nil_of_mem_occurrences ho)

/-- Something is written, unless there is nothing but an empty literal. -/
theorem joinBlank_map_canonical_ne_nil {allowed : List Text} {type t : Text}
    (hne : Part.occurrences t ≠ []) (hsingle : Part.occurrences t ≠ ["''".toList]) :
    joinBlank ((Part.occurrences t).map (canonical allowed type)) ≠ [] := by
  rcases ho : Part.occurrences t with _ | ⟨o, _ | ⟨o', os⟩⟩
  · exact absurd ho hne
  · rw [List.map_singleton, joinBlank_singleton]
    intro h
    have hmem : o ∈ Part.occurrences t := by simp [ho]
    exact hsingle (by rw [ho, (canonical_occurrence_eq_nil_iff hmem).1 h])
  · rw [List.map_cons, joinBlank_cons _ (by simp)]
    simp

theorem isEmpty_texts_occurrences {t : Text} (hne : Part.occurrences t ≠ []) :
    (ParameterValue.texts (Part.occurrences t)).isEmpty = false := by
  obtain ⟨o, os, ho⟩ := List.exists_cons_of_ne_nil hne
  have htrim : o.trim = o := trim_of_mem_occurrences (t := t) (by simp [ho])
  have hnil : o ≠ [] := ne_nil_of_mem_occurrences (t := t) (by simp [ho])
  simp [ho, ParameterValue.texts, ParameterValue.isEmpty, ParameterValue.allEmpty, htrim, hnil]

section Occurrences

variable {p : ParameterSpec} (hmultiple : 1 < p.max) (hqualifiers : p.qualifiers = [])
  (helements : p.elements = [])

include hmultiple hqualifiers helements

/-- **Every occurrence that was typed is read again as it is written**, in its place, but for empty
literals. The keyword is written, unless the value is a single empty literal. -/
theorem exists_assembleOne_occurrences (htype : isCommandType p.type = false)
    (hkey : ElementKey.keyword? p.key = none) {t : Text} {items : List Text}
    (hitems : p.interpret t = .texts items) (hne : items ≠ [])
    (hsingle : items ≠ ["''".toList]) (name : Text) {present : List Text}
    (hpresent : p.key ∈ present.map upper) :
    ∃ r, assembleOne name p (p.interpret t) present =
        .ok (commandName name ++ ' ' :: p.keyword ++ ValueRules.parenthesised r) ∧
      p.interpret r = .texts ((items.filter (· ≠ "''".toList)).map
        (canonical p.allowedValues p.type)) := by
  have hlist := ParameterSpec.isElementList_eq_false helements
  have hqualified := ParameterSpec.isQualified_eq_false hqualifiers
  have hread := ParameterSpec.interpret_values hlist hqualified (decide_eq_true hmultiple)
  obtain rfl : items = Part.occurrences t :=
    List.map_injective_iff.2 (fun _ _ ↦ ParameterValue.text.inj)
      (ParameterValue.list.inj (hitems.symm.trans (hread t)))
  have hwritten := p.writtenText_rules htype
  have hr : joinBlank ((Part.occurrences t).map p.rules.writtenText) ≠ [] := by
    rw [hwritten]
    exact joinBlank_map_canonical_ne_nil hne hsingle
  have hempty : (p.interpret t).isEmpty = false := by
    rw [hitems]
    exact isEmpty_texts_occurrences hne
  have hrender := p.rules.render_values hlist hqualified (decide_eq_true hmultiple) fun o ho ↦
    ParameterValue.isEmpty_text_eq_false (trim_of_mem_occurrences (t := t) ho)
      (ne_nil_of_mem_occurrences ho)
  rw [← hitems] at hrender
  refine ⟨joinBlank ((Part.occurrences t).map p.rules.writtenText), ?_, ?_⟩
  · rw [assembleOne_of_present name hrender hr hempty hpresent, if_pos hkey]
    simp
  · have hfilter : (Part.occurrences t).filter
        (fun o ↦ !(canonical p.allowedValues p.type o).isEmpty) =
        (Part.occurrences t).filter (· ≠ "''".toList) := by
      refine List.filter_congr fun o ho ↦ ?_
      rw [Bool.eq_iff_iff, Bool.not_eq_true', decide_eq_true_eq, List.isEmpty_eq_false_iff]
      exact not_congr (canonical_occurrence_eq_nil_iff ho)
    rw [hread, p.rules.occurrences_joinBlank_writtenText, hwritten, List.filter_map, ← hfilter]
    rfl

end Occurrences

/-- A parameter that takes any number of values. -/
def manyValues (keyword : Text) : ParameterSpec :=
  ⟨keyword, [], 0, 255, none, ["*none".toList], [], []⟩

/-- A name, a special value, a literal with a blank, an expression, and a word with an open quote at
the end. -/
theorem exists_assembleOne_occurrences_call :
    let p := manyValues "Parm".toList
    let items := ["abc".toList, "*None".toList, "'x y'".toList, "(a 'b)')".toList, "it's".toList]
    1 < p.max ∧ p.qualifiers = [] ∧ p.elements = [] ∧ isCommandType p.type = false ∧
      ElementKey.keyword? p.key = none ∧
      p.interpret "abc  *None 'x y' (a 'b)') it's".toList = .texts items ∧
      items ≠ [] ∧ items ≠ ["''".toList] ∧ p.key ∈ ["parm".toList].map upper ∧
      ∃ r, assembleOne "CALL".toList p (p.interpret "abc  *None 'x y' (a 'b)') it's".toList)
          ["parm".toList] = .ok ("CALL Parm".toList ++ ValueRules.parenthesised r) ∧
        p.interpret r = .texts ["ABC".toList, "*NONE".toList, "'x y'".toList, "(a 'b)')".toList,
          "'it''s'".toList] := by
  intro p items
  have hkey : ElementKey.keyword? p.key = none := by decide +kernel
  have hitems : p.interpret "abc  *None 'x y' (a 'b)') it's".toList = .texts items := by
    decide +kernel
  have hsingle : items ≠ ["''".toList] := by decide
  have hpresent : p.key ∈ ["parm".toList].map upper := by decide +kernel
  have hwritten : (items.filter (· ≠ "''".toList)).map (canonical p.allowedValues p.type) =
      ["ABC".toList, "*NONE".toList, "'x y'".toList, "(a 'b)')".toList,
        "'it''s'".toList] := by
    decide +kernel
  have h := exists_assembleOne_occurrences (p := p) (by decide) rfl rfl (by decide) hkey hitems
    (List.cons_ne_nil _ _) hsingle "CALL".toList hpresent
  rw [hwritten] at h
  exact ⟨by decide, rfl, rfl, by decide, hkey, hitems, List.cons_ne_nil _ _, hsingle, hpresent, h⟩

/-- Of three arguments the second is the empty literal: two are written, and the third is read as
the second. A keyword that reads like the key of an element is not written at all. -/
theorem occurrences_of_empty_literal_and_element_key :
    let p := manyValues "PARM".toList
    let q := manyValues "K_ELEM0".toList
    p.interpret "'A' '' 'B'".toList = .texts ["'A'".toList, "''".toList, "'B'".toList] ∧
      assembleOne "CALL".toList p (p.interpret "'A' '' 'B'".toList) ["PARM".toList] =
        .ok "CALL PARM('A'  'B')".toList ∧
      p.interpret "'A'  'B'".toList = .texts ["'A'".toList, "'B'".toList] ∧
      q.interpret "A".toList = .texts ["A".toList] ∧
      assembleOne "X".toList q (q.interpret "A".toList) ["K_ELEM0".toList] = .ok "X".toList := by
  refine ⟨?_, ?_, ?_, ?_, ?_⟩ <;> decide +kernel

end Statement

end ControlLanguage
