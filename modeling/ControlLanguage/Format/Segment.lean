import ControlLanguage.Command.Printer
import ControlLanguage.Layout.Basic

/-!
# Segments

A value is laid out as segments, **each of which begins a line but the first**. Only a call of a
built-in function has more than one: it is written on one line if it fits there, and otherwise with
one argument per line. Whether it fits is decided from the column where the value is expected to
begin, before any line is filled.
-/

namespace ControlLanguage

/-- The layout of a value: at least one piece of text, each after the first on a new line. -/
structure Segments where
  first : Text
  rest : List Text
  deriving DecidableEq, Repr

namespace Segments

/-- One piece of text. -/
def single (t : Text) : Segments :=
  ⟨t, []⟩

/-- All pieces in order. -/
def toList (s : Segments) : List Text :=
  s.first :: s.rest

/-- Adds text in front. -/
def prepend (t : Text) (s : Segments) : Segments :=
  ⟨t ++ s.first, s.rest⟩

/-- Adds text at the end, to the last piece. -/
def append (s : Segments) (t : Text) : Segments :=
  match s.rest.getLast? with
  | none => ⟨s.first ++ t, []⟩
  | some last => ⟨s.first, s.rest.dropLast ++ [last ++ t]⟩

/-- Puts two layouts side by side: the last piece of the one and the first of the other become
one piece, with a separator between them. -/
def beside (separator : Text) (s t : Segments) : Segments :=
  let s := s.append (separator ++ t.first)
  ⟨s.first, s.rest ++ t.rest⟩

/-- The items of a list side by side, in parentheses. -/
def list : List Segments → Segments
  | [] => single ['(', ')']
  | s :: ss => (ss.foldl (beside [' ']) (s.prepend ['('])).append [')']

/-- A call on one line. -/
def inlineCall (name : Text) (args : List Segments) : Text :=
  name ++ '(' :: Text.joinBlank (args.map (·.first)) ++ [')']

/-- A call with a line for each argument. -/
def brokenCall (name : Text) (args : List Segments) : Segments :=
  Segments.append ⟨name ++ ['('], args.flatMap toList⟩ [')']

/-- A call that is expected to begin at a column, with the closing parenthesis of its parameter
and the marker after it. -/
def call (l : Layout) (indent : Nat) (name : Text) (args : List Segments) : Segments :=
  if args.all (·.rest.isEmpty) && indent + (inlineCall name args).length + 3 ≤ l.rightMargin then
    single (inlineCall name args)
  else brokenCall name args

mutual

/-- The layout of a value that is expected to begin after `indent` characters. -/
def ofValue (l : Layout) (indent : Nat) : Value → Segments
  | .scalar t => single t
  | .expression tokens => single (Token.spelling tokens)
  | .array items => list (ofValues l (indent + 1) items)
  | .function name args => call l indent name (ofValues l (indent + name.length + 1) args)
  | .command c => single (ofCommand l c)
  | .unknown => single []

/-- The layouts of several values. -/
def ofValues (l : Layout) (indent : Nat) : List Value → List Segments
  | [] => []
  | v :: vs => ofValue l indent v :: ofValues l indent vs

/-- A command as a value is written on one line. -/
def ofCommand (l : Layout) : Command → Text
  | ⟨name, parameters⟩ => Text.joinBlank (l.applyCase name :: ofParameters l parameters)

/-- A parameter of a command that is a value. -/
def ofParameter (l : Layout) : Parameter → Text
  | ⟨keyword, value⟩ =>
    l.applyCase keyword ++ '(' :: Text.joinBlank (ofValue l 0 value).toList ++ [')']

/-- The parameters of a command that is a value. -/
def ofParameters (l : Layout) : List Parameter → List Text
  | [] => []
  | p :: ps => ofParameter l p :: ofParameters l ps

end

end Segments

end ControlLanguage
