import ControlLanguage.Token.Basic

/-!
# Commands

A command has a name and keyword parameters in source order, and a parameter has one value. Read
from source, a value is a **scalar** or an **expression**, an uninterpreted run of tokens. Values
that are built rather than read may also be lists, calls of built-in functions and commands, to
any depth.
-/

namespace ControlLanguage

mutual

/-- The value of a parameter. -/
inductive Value where
  /-- One value, kept as its source text with quotes included. -/
  | scalar (text : Text)
  /-- A run of tokens that is not interpreted further. -/
  | expression (tokens : List Token)
  /-- A list of values in parentheses. -/
  | array (items : List Value)
  /-- A call of a built-in function, whose name includes the percent sign. -/
  | function (name : Text) (args : List Value)
  /-- A command as a value. -/
  | command (command : Command)
  /-- A value of no known form, which has no text. -/
  | unknown

/-- A command name and its parameters in source order. -/
structure Command where
  name : Text
  parameters : List Parameter

/-- A keyword with its value. -/
structure Parameter where
  keyword : Text
  value : Value

end

instance : Inhabited Value :=
  ⟨.unknown⟩

instance : Inhabited Command :=
  ⟨⟨[], []⟩⟩

end ControlLanguage
