import ControlLanguage.Command.Parser
import ControlLanguage.Command.Printer
import ControlLanguage.Metadata.Basic
import ControlLanguage.Parameter.Value
import ControlLanguage.Part.Split
import ControlLanguage.Statement.Label

/-!
# From source text to parameter values

The parser keeps the value of a parameter as source text. The description of the parameter tells
how to take that text apart: into occurrences, elements and the parts of qualified names, which
are put object first. **Parentheses are removed exactly where a level of the description is
entered**, so the depth of the result follows the description.
-/

namespace ControlLanguage

namespace ElementSpec

/-- The value of one part of an element list. A part beyond the described elements is kept as
text. -/
def interpret (spec : Option ElementSpec) (part : Text) : ParameterValue :=
  match spec with
  | none => .text part
  | some e =>
    if !e.qualifiers.isEmpty then .texts (Part.objectFirst e.qualifiers.length part)
    else if !e.elements.isEmpty && part.head? = some '(' then
      .texts (Part.occurrences (Part.unwrapped part))
    else .text part

/-- The values of parts by position. -/
def interpretParts : List ElementSpec → List Text → List ParameterValue
  | _, [] => []
  | [], part :: parts => interpret none part :: interpretParts [] parts
  | e :: elements, part :: parts => interpret (some e) part :: interpretParts elements parts

/-- The value of an element list. -/
def interpretList (elements : List ElementSpec) (t : Text) : ParameterValue :=
  .list (interpretParts elements (Part.occurrences t))

end ElementSpec

namespace ParameterSpec

/-- The value that a text has under a description. -/
def interpret (p : ParameterSpec) (t : Text) : ParameterValue :=
  if p.isElementList then
    if p.isMultiple then
      .list ((Part.occurrences t).map fun o ↦
        ElementSpec.interpretList p.elements (Part.unwrapped o))
    else ElementSpec.interpretList p.elements t
  else if p.isQualified then
    if p.isMultiple then
      .list ((Part.occurrences t).map fun o ↦
        .texts (Part.objectFirst p.qualifiers.length (Part.unwrapped o)))
    else .texts (Part.objectFirst p.qualifiers.length t)
  else if p.isMultiple then .texts (Part.occurrences t)
  else .text t.trim

/-- The value of a parameter by its keyword; without description it is the text itself. -/
def interpretNamed (parameters : List ParameterSpec) (keyword t : Text) : ParameterValue :=
  match find? parameters keyword with
  | some p => p.interpret t
  | none => .text t

end ParameterSpec

namespace Statement

/-- The values of the parameters of a statement under their upper-case keywords, in source
order. A label is passed over. -/
def parameterValues (parameters : List ParameterSpec) (t : Text) : KeyedList ParameterValue :=
  .ofList ((Command.ofText (ofText t).body).parameters.map fun p ↦
    (p.keyword.upper, ParameterSpec.interpretNamed parameters p.keyword.upper p.value.text))

end Statement

end ControlLanguage
