import ControlLanguage.Document.Reader
import ControlLanguage.Metadata.Basic

/-!
# Reading descriptions of commands

A description document gives a command name and the list of its parameters. Only the name of the
command and the keywords of its parameters are required.

A default is a text, a list of texts or a list of such lists. A document that is none of the three
gets **the problems of all three readings**, each below the name of the reading.
-/

namespace ControlLanguage

namespace DefaultValue

/-- Reads a default that is not absent, trying the three forms in turn. -/
def ofPresent (d : Document) : Checked DefaultValue :=
  match d.readText with
  | .ok t => .ok (.text t)
  | .error e₁ =>
    match d.readList Document.readText with
    | .ok ts => .ok (.list ts)
    | .error e₂ =>
      match d.readList (Document.readList Document.readText) with
      | .ok rows => .ok (.table rows)
      | .error e₃ =>
        .error (e₁.map (.under "str".toList) ++ e₂.map (.under "list[str]".toList) ++
          e₃.map (.under "list[list[str]]".toList))

/-- Reads a default. -/
def ofDocument : Document → Checked (Option DefaultValue)
  | .null => .ok none
  | d => some <$> ofPresent d

end DefaultValue

namespace QualifierSpec

/-- The keys of a description of a part of a qualified name. -/
def keys : List FieldKey :=
  [.plain "type", .plain "prompt", .plain "default", .hyphened "special-values"]

/-- Reads the fields of a description of a part of a qualified name. -/
def ofFields (fields : Fields) : Checked QualifierSpec :=
  .apply (.apply (.apply (.apply (.ok QualifierSpec.mk)
    (FieldKey.read (.plain "type") fields [] Document.readText))
    (FieldKey.read (.plain "prompt") fields [] Document.readText))
    (FieldKey.read (.plain "default") fields none Document.readTextOrNull))
    (FieldKey.read (.hyphened "special-values") fields []
      (Document.readSequence Document.readText))

/-- Reads a description of a part of a qualified name. -/
def ofDocument (d : Document) : Checked QualifierSpec :=
  d.record "QualifierDef" keys ofFields

end QualifierSpec

namespace ElementSpec

/-- The keys of a description of an element. -/
def keys : List FieldKey :=
  QualifierSpec.keys ++ [.plain "qualifiers", .plain "elements"]

/-- Reads a description of an element that is nested at most `depth` levels deep. -/
def ofDocumentWithin : (depth : Nat) → Document → Checked ElementSpec
  | 0 => fun _ ↦ Checked.problem (.notRecord "ElementDef")
  | depth + 1 => fun d ↦
    d.record "ElementDef" keys fun fields ↦
      .apply (.apply (.apply (.ok fun (q : QualifierSpec) qualifiers elements ↦
          (⟨q.type, q.prompt, q.default, q.specialValues, qualifiers, elements⟩ : ElementSpec))
        (QualifierSpec.ofFields fields))
        (FieldKey.read (.plain "qualifiers") fields []
          (Document.readSequence QualifierSpec.ofDocument)))
        (FieldKey.read (.plain "elements") fields []
          (Document.readSequence (ofDocumentWithin depth)))

/-- Reads a description of an element. The height of the document bounds the nesting. -/
def ofDocument (d : Document) : Checked ElementSpec :=
  ofDocumentWithin (d.height + 1) d

end ElementSpec

namespace ParameterSpec

/-- The keys of a description of a parameter. -/
def keys : List FieldKey :=
  [.plain "keyword", .plain "type", .plain "min", .plain "max", .plain "default",
    .hyphened "allowed-values", .plain "qualifiers", .plain "elements"]

/-- Reads the fields of a description of a parameter, which by default is optional and occurs
once. -/
def ofFields (fields : Fields) : Checked ParameterSpec :=
  .apply (.apply (.apply (.apply (.apply (.apply (.apply (.apply (.ok ParameterSpec.mk)
    (FieldKey.require (.plain "keyword") fields Document.readText))
    (FieldKey.read (.plain "type") fields [] Document.readText))
    (FieldKey.read (.plain "min") fields 0 Document.readInteger))
    (FieldKey.read (.plain "max") fields 1 Document.readInteger))
    (FieldKey.read (.plain "default") fields none DefaultValue.ofDocument))
    (FieldKey.read (.hyphened "allowed-values") fields []
      (Document.readSequence Document.readText)))
    (FieldKey.read (.plain "qualifiers") fields []
      (Document.readSequence QualifierSpec.ofDocument)))
    (FieldKey.read (.plain "elements") fields []
      (Document.readSequence ElementSpec.ofDocument))

/-- Reads a description of a parameter. -/
def ofDocument (d : Document) : Checked ParameterSpec :=
  d.record "ParameterDef" keys ofFields

end ParameterSpec

namespace CommandSpec

/-- The keys of a description of a command. -/
def keys : List FieldKey :=
  [.plain "command", .plain "parameters"]

/-- Reads the fields of a description of a command. -/
def ofFields (fields : Fields) : Checked CommandSpec :=
  .apply (.apply (.ok CommandSpec.mk)
    (FieldKey.require (.plain "command") fields Document.readText))
    (FieldKey.read (.plain "parameters") fields []
      (Document.readSequence ParameterSpec.ofDocument))

/-- Reads a description of a command. -/
def ofDocument (d : Document) : Checked CommandSpec :=
  d.record "CommandDef" keys ofFields

end CommandSpec

end ControlLanguage
