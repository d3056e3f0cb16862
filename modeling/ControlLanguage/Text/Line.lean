import ControlLanguage.Text.Basic

/-!
# Lines of a text

A text file is cut into lines at line ends of every convention. A carriage return and the line
feed after it are **one** line end, and a line end at the end of the text does not begin another
line.
-/

namespace ControlLanguage

/-- The characters that end a line. -/
def isLineEnd (c : Char) : Bool :=
  c = '\n' || c = '\r' || c = '\x0b' || c = '\x0c' || c = '\x1c' || c = '\x1d' || c = '\x1e' ||
    c = '\u0085' || c = '\u2028' || c = '\u2029'

namespace Text

/-- The lines of a text of which `current` was read already, last character first; `afterReturn`
tells that the character before was a carriage return. -/
def linesFrom (current : Text) (afterReturn : Bool) : Text → List Text
  | [] => if current.isEmpty then [] else [current.reverse]
  | c :: t =>
    if c = '\n' && afterReturn then linesFrom current false t
    else if isLineEnd c then current.reverse :: linesFrom [] (c = '\r') t
    else linesFrom (c :: current) false t

/-- The lines of a text, without their line ends. -/
def lines (t : Text) : List Text :=
  linesFrom [] false t

end Text

end ControlLanguage
