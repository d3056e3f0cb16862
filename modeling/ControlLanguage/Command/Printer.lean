import ControlLanguage.Command.Basic

/-!
# From commands to text

Every value and every command has a text on a single line, which reads back as the same content.
-/

namespace ControlLanguage

mutual

/-- The text of a value. -/
def Value.text : Value → Text
  | .scalar t => t
  | .expression tokens => Token.spelling tokens
  | .array items => '(' :: Text.joinBlank (Value.texts items) ++ [')']
  | .function name args => name ++ '(' :: Text.joinBlank (Value.texts args) ++ [')']
  | .command c => c.text
  | .unknown => []

/-- The texts of several values. -/
def Value.texts : List Value → List Text
  | [] => []
  | v :: vs => v.text :: Value.texts vs

/-- The text of a command: its name and its parameters, separated by blanks. -/
def Command.text : Command → Text
  | ⟨name, parameters⟩ => Text.joinBlank (name :: Parameter.texts parameters)

/-- The text of a parameter: its keyword, and its value in parentheses. -/
def Parameter.text : Parameter → Text
  | ⟨keyword, value⟩ => keyword ++ '(' :: value.text ++ [')']

/-- The texts of several parameters. -/
def Parameter.texts : List Parameter → List Text
  | [] => []
  | p :: ps => p.text :: Parameter.texts ps

end

end ControlLanguage
