import ControlLanguage.Parameter.Assembly
import ControlLanguage.Parameter.Interpretation

/-!
# Rebuilding a statement

A statement is read against the descriptions of its parameters and assembled again: its parameters
come in declaration order and their values in canonical form. The keywords of the statement count as
typed, so **no parameter is dropped for having its default value**.
-/

namespace ControlLanguage

namespace Statement

/-- Assembles a statement again under a command name, with its label. -/
def rebuild (parameters : List ParameterSpec) (name t : Text) : Except NoParts Text :=
  let s := ofText t
  let values := parameterValues parameters s.body
  assemble name values parameters (.ofParameters parameters) (values.map (·.1)) s.label

end Statement

end ControlLanguage
