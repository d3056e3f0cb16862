import ControlLanguage.Document.Reader
import ControlLanguage.Layout.Basic

/-!
# Reading layouts

A layout document gives any of the seven settings. Its columns are checked one by one first, and
**only if all settings are fine is their order checked**, where the first rule that fails is the
one reported.
-/

namespace ControlLanguage

/-- Settings that are fine one by one. -/
structure LayoutSettings where
  labelColumn : { n : Nat // 1 ≤ n }
  commandColumn : { n : Nat // 1 ≤ n }
  parameterColumn : { n : Nat // 1 ≤ n }
  continuationColumn : { n : Nat // 1 ≤ n }
  rightMargin : { n : Nat // 20 ≤ n }
  marker : Marker
  keywordCase : KeywordCase

namespace LayoutSettings

/-- The keys of the settings. -/
def keys : List FieldKey :=
  ["label-column", "command-column", "parameter-column", "continuation-column", "right-margin",
    "continuation-char", "keyword-case"].map FieldKey.hyphened

/-- Reads the marker. -/
def readMarker : Document → Checked Marker
  | .text ['+'] => .ok .plus
  | .text ['-'] => .ok .minus
  | _ => Checked.problem (.notChoice "+" "-")

/-- Reads the case of keywords. -/
def readCase : Document → Checked KeywordCase
  | .text t =>
    if t = "upper".toList then .ok .upper
    else if t = "lower".toList then .ok .lower
    else Checked.problem (.notChoice "upper" "lower")
  | _ => Checked.problem (.notChoice "upper" "lower")

/-- The settings of a layout. -/
def ofLayout (l : Layout) : LayoutSettings where
  labelColumn := ⟨l.labelColumn, l.label_pos⟩
  commandColumn := ⟨l.commandColumn, l.command_pos⟩
  parameterColumn := ⟨l.parameterColumn, l.parameter_pos⟩
  continuationColumn := ⟨l.continuationColumn, l.continuation_pos⟩
  rightMargin := ⟨l.rightMargin, l.margin_ge⟩
  marker := l.marker
  keywordCase := l.keywordCase

/-- Reads the settings; `standard` has those that the document does not give. -/
def ofFields (standard : LayoutSettings) (fields : Fields) : Checked LayoutSettings :=
  let column (key : String) := FieldKey.read (.hyphened key) fields
  .apply (.apply (.apply (.apply (.apply (.apply (.apply (.ok LayoutSettings.mk)
    (column "label-column" standard.labelColumn (Document.readNatural 1)))
    (column "command-column" standard.commandColumn (Document.readNatural 1)))
    (column "parameter-column" standard.parameterColumn (Document.readNatural 1)))
    (column "continuation-column" standard.continuationColumn (Document.readNatural 1)))
    (FieldKey.read (.hyphened "right-margin") fields standard.rightMargin
      (Document.readNatural 20)))
    (FieldKey.read (.hyphened "continuation-char") fields standard.marker readMarker))
    (FieldKey.read (.hyphened "keyword-case") fields standard.keywordCase readCase)

/-- The layout of settings whose columns are in order. -/
def toLayout (s : LayoutSettings) : Checked Layout :=
  if h₁ : s.labelColumn.1 < s.commandColumn.1 then
    if h₂ : s.commandColumn.1 ≤ s.parameterColumn.1 then
      if h₃ : s.continuationColumn.1 + 10 ≤ s.rightMargin.1 then
        if h₄ : s.parameterColumn.1 < s.rightMargin.1 then
          .ok
            { labelColumn := s.labelColumn.1
              commandColumn := s.commandColumn.1
              parameterColumn := s.parameterColumn.1
              continuationColumn := s.continuationColumn.1
              rightMargin := s.rightMargin.1
              marker := s.marker
              keywordCase := s.keywordCase
              label_pos := s.labelColumn.2
              continuation_pos := s.continuationColumn.2
              margin_ge := s.rightMargin.2
              label_lt_command := h₁
              command_le_parameter := h₂
              continuation_add_ten_le := h₃
              parameter_lt_margin := h₄ }
        else Checked.problem (.inconsistent "parameter-column must be left of right-margin")
      else Checked.problem
        (.inconsistent "continuation-column must leave at least 10 columns before right-margin")
    else Checked.problem
      (.inconsistent "command-column must not be right of parameter-column")
  else Checked.problem (.inconsistent "label-column must be left of command-column")

end LayoutSettings

namespace Layout

/-- Reads a layout. -/
def ofDocument (d : Document) : Checked Layout := do
  let settings ← d.record "LayoutConfig" LayoutSettings.keys
    (LayoutSettings.ofFields (.ofLayout standard))
  settings.toLayout

end Layout

end ControlLanguage
