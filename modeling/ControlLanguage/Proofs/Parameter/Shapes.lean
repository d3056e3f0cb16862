import ControlLanguage.Parameter.Interpretation
import ControlLanguage.Parameter.Rendering

/-!
# The shapes of a parameter

A parameter is a plain value, a qualified name or a list of elements, and it occurs once or several
times. **Each of these six shapes has its own way from text to value and its own way back.** They
are told apart here, so that what is shown of one shape does not meet the others.
-/

namespace ControlLanguage

open ControlLanguage.Part

variable {p : ParameterSpec}

theorem ParameterSpec.isElementList_eq_false (h : p.elements = []) : p.isElementList = false := by
  rw [isElementList, h]
  rfl

theorem ParameterSpec.isQualified_eq_false (h : p.qualifiers = []) : p.isQualified = false := by
  rw [isQualified, h]
  rfl

section Plain

variable (hlist : p.isElementList = false) (hqualified : p.isQualified = false)

include hlist hqualified

/-- A plain value is its text. -/
theorem ParameterSpec.interpret_value (hmultiple : p.isMultiple = false) (t : Text) :
    p.interpret t = .text t.trim := by
  rw [interpret, hlist, hqualified, hmultiple]
  rfl

/-- Several values are the parts of the text. -/
theorem ParameterSpec.interpret_values (hmultiple : p.isMultiple = true) (t : Text) :
    p.interpret t = .texts (Part.occurrences t) := by
  rw [interpret, hlist, hqualified, hmultiple]
  rfl

/-- A value without qualifiers is written as it is. -/
theorem ValueRules.render_plain (rules : ValueRules) (v : ParameterValue) :
    rules.render p v = .ok (rules.plain p.isMultiple v) := by
  simp [render, hlist, hqualified]

/-- One value is written like any text. -/
theorem ValueRules.render_value (hmultiple : p.isMultiple = false) (rules : ValueRules) (t : Text) :
    rules.render p (.text t) = .ok (rules.writtenText t) := by
  rw [render_plain hlist hqualified, hmultiple]
  rfl

end Plain

section Names

variable (hlist : p.isElementList = false) (hqualified : p.isQualified = true)

include hlist hqualified

/-- A qualified name is read with its object first. -/
theorem ParameterSpec.interpret_name (hmultiple : p.isMultiple = false) (t : Text) :
    p.interpret t = .texts (objectFirst p.qualifiers.length t) := by
  rw [interpret, hlist, hqualified, hmultiple]
  rfl

/-- Several names are read part by part, each of them without its parentheses. -/
theorem ParameterSpec.interpret_names (hmultiple : p.isMultiple = true) (t : Text) :
    p.interpret t = .list ((Part.occurrences t).map fun o ↦
      .texts (objectFirst p.qualifiers.length (unwrapped o))) := by
  rw [interpret, hlist, hqualified, hmultiple]
  rfl

theorem ValueRules.render_name (hmultiple : p.isMultiple = false) (rules : ValueRules)
    (v : ParameterValue) : rules.render p v = rules.qualified p.qualifiers v := by
  simp [render, hlist, hqualified, hmultiple]

/-- Several names are written one by one, and what is written as nothing is dropped. -/
theorem ValueRules.render_names (hmultiple : p.isMultiple = true) (rules : ValueRules)
    {items : List ParameterValue} (hitems : items.any ParameterValue.isList = true) :
    rules.render p (.list items) = (fun rs ↦ Text.joinBlank (rs.filter (!·.isEmpty))) <$>
      items.mapM (rules.qualified p.qualifiers) := by
  simp only [render, hlist, hqualified, hmultiple, hitems, if_true, Bool.false_eq_true, if_false]

/-- A text is written as one name, even if the parameter may have several. -/
theorem ValueRules.render_name_text (rules : ValueRules) (t : Text) :
    rules.render p (.text t) = rules.qualified p.qualifiers (.text t) := by
  simp [render, hlist, hqualified]

end Names

section Elements

variable (hlist : p.isElementList = true)

include hlist

theorem ParameterSpec.interpret_elements (hmultiple : p.isMultiple = false) (t : Text) :
    p.interpret t = ElementSpec.interpretList p.elements t := by
  rw [interpret, hlist, hmultiple]
  rfl

/-- Several lists of elements are read without their parentheses. -/
theorem ParameterSpec.interpret_lists (hmultiple : p.isMultiple = true) (t : Text) :
    p.interpret t = .list ((Part.occurrences t).map fun o ↦
      ElementSpec.interpretList p.elements (unwrapped o)) := by
  rw [interpret, hlist, hmultiple]
  rfl

theorem ValueRules.render_elements (hmultiple : p.isMultiple = false) (rules : ValueRules)
    (v : ParameterValue) : rules.render p v = rules.elementList p.elements v := by
  simp [render, hlist, hmultiple]

/-- Several lists of elements are written one after the other. -/
theorem ValueRules.render_lists (hmultiple : p.isMultiple = true) (rules : ValueRules)
    (items : List ParameterValue) : rules.render p (.list items) =
      Text.joinBlank <$> items.mapM (rules.elementOccurrence p.elements) := by
  simp [render, hlist, hmultiple]

/-- A text is written as one list of elements, even if the parameter may have several. -/
theorem ValueRules.render_elements_text (rules : ValueRules) (t : Text) :
    rules.render p (.text t) = rules.elementList p.elements (.text t) := by
  simp [render, hlist]

end Elements

end ControlLanguage
