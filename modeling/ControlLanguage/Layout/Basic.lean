import ControlLanguage.Statement.Continuation
import ControlLanguage.Text.LetterCase

/-!
# Layouts

A layout fixes the columns of formatted source, the marker at the end of continued lines and the
case of keywords. Columns are counted from one.

**The order of the columns is part of the type**: a layout always leaves at least ten columns
between the start of a continuation line and the right margin, so every continuation line has
room for text.
-/

namespace ControlLanguage

/-- The case in which labels, command names and keywords are written. -/
inductive KeywordCase where
  | upper
  | lower
  deriving DecidableEq, Repr

namespace KeywordCase

/-- A word in the given case. -/
def apply : KeywordCase → Text → Text
  | upper, t => t.upper
  | lower, t => t.lower

end KeywordCase

/-- The columns and conventions of formatted source. -/
structure Layout where
  /-- Where a label starts. -/
  labelColumn : Nat := 2
  /-- Where the command name starts. -/
  commandColumn : Nat := 14
  /-- Where the first parameter starts. -/
  parameterColumn : Nat := 25
  /-- Where every continuation line starts. -/
  continuationColumn : Nat := 27
  /-- The last column of a line. -/
  rightMargin : Nat := 72
  marker : Marker := .plus
  keywordCase : KeywordCase := .upper
  label_pos : 1 ≤ labelColumn := by decide
  continuation_pos : 1 ≤ continuationColumn := by decide
  margin_ge : 20 ≤ rightMargin := by decide
  label_lt_command : labelColumn < commandColumn := by decide
  command_le_parameter : commandColumn ≤ parameterColumn := by decide
  continuation_add_ten_le : continuationColumn + 10 ≤ rightMargin := by decide
  parameter_lt_margin : parameterColumn < rightMargin := by decide

namespace Layout

/-- The command name has a column of its own. -/
theorem command_pos (l : Layout) : 1 ≤ l.commandColumn :=
  Nat.le_trans l.label_pos (Nat.le_of_lt l.label_lt_command)

/-- The parameters have a column of their own. -/
theorem parameter_pos (l : Layout) : 1 ≤ l.parameterColumn :=
  Nat.le_trans l.command_pos l.command_le_parameter

/-- The layout that is used where none is given. -/
def standard : Layout :=
  {}

instance : Inhabited Layout :=
  ⟨standard⟩

/-- A word in the case of the layout. -/
def applyCase (l : Layout) (t : Text) : Text :=
  l.keywordCase.apply t

end Layout

end ControlLanguage
