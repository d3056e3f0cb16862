import ControlLanguage.Text.Identifier
import ControlLanguage.Text.WhiteSpace

/-!
# Statements and their labels

A statement may begin with a label, a word and a colon. White space may stand around both, and the
rest of the statement is the command.
-/

namespace ControlLanguage

/-- A statement, its label separated from the command. -/
structure Statement where
  label : Option Text
  /-- The text of the command, without white space around it. -/
  body : Text
  deriving DecidableEq, Repr

namespace Statement

/-- The label at the start of a text and what follows its colon, if there is a label. -/
def label? (t : Text) : Option (Text × Text) :=
  let start := t.trimStart
  match start with
  | [] => none
  | c :: _ =>
    if isNameStart c then
      match Text.trimStart (start.dropWhile isLabelChar) with
      | ':' :: rest => some (start.takeWhile isLabelChar, rest)
      | _ => none
    else none

/-- Separates the label of a statement from its command. -/
def ofText (t : Text) : Statement :=
  match label? t with
  | some (label, rest) => ⟨some label, rest.trim⟩
  | none => ⟨none, t.trim⟩

end Statement

end ControlLanguage
