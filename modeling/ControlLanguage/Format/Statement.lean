import ControlLanguage.Command.Parser
import ControlLanguage.Format.Atom
import ControlLanguage.Format.Page
import ControlLanguage.Format.Segment
import ControlLanguage.Statement.Label

/-!
# Formatted statements

The first line of a statement has its label, its command name and its first parameter, each at its
column. A label that reaches the command column gets a line of its own. The other parameters follow
from left to right, **and a parameter is one piece of text for the wrap loop** unless it holds a
call that is laid out over several lines.
-/

namespace ControlLanguage

/-- The lines of a formatted statement. -/
structure Formatted where
  lines : List Text
  /-- How many pieces of text were too long to wrap. -/
  gaveUp : Nat

namespace Page

/-- The page with the label and the command name on it. -/
def headed (l : Layout) (label : Text) (name : Text) : Page :=
  let indent := l.commandColumn - 1
  let name := l.applyCase name
  if label.isEmpty then start (Text.blanks indent ++ name)
  else
    let lead := Text.blanks (l.labelColumn - 1) ++ l.applyCase label ++ [':']
    if indent ≤ lead.length then
      { (start lead).breakLine l false with current := Text.blanks indent ++ name }
    else start (lead.padEnd indent ++ name)

/-- Moves on to the parameter column, or past one blank where that column is taken. -/
def toParameters (l : Layout) (p : Page) : Page :=
  if p.current.length < l.parameterColumn - 1 then
    { p with current := p.current.padEnd (l.parameterColumn - 1) }
  else p.append [' ']

/-- What separates a parameter from the text before it. -/
def separator (p : Page) : Text :=
  if p.current.isEmpty || p.current.getLast? = some ' ' then [] else [' ']

/-- The segments of a parameter on this page. -/
def parameterSegments (l : Layout) (p : Page) (q : Parameter) : Segments :=
  let keyword := l.applyCase q.keyword
  let indent := p.current.length + p.separator.length + keyword.length + 1
  ((Segments.ofValue l indent q.value).prepend (keyword ++ ['('])).append [')']

/-- Puts a parameter on the page. -/
def addParameter (l : Layout) (atoms : List Text) (p : Page) (q : Parameter) : Page :=
  let s := p.parameterSegments l q
  p.wrapSegments l atoms (p.separator ++ s.first) s.rest

end Page

namespace Command

/-- The page of a formatted command, given its atoms in any order. -/
def page (l : Layout) (atoms : List Text) (label : Text) (c : Command) : Page :=
  let head := Page.headed l label c.name
  let head := if c.parameters.isEmpty then head else head.toParameters l
  c.parameters.foldl (Page.addParameter l atoms) head

/-- Formats a command; an empty label is none. -/
def format (l : Layout) (label : Option Text) (c : Command) : Formatted :=
  let page := c.page l (c.atoms l.keywordCase) (label.getD [])
  ⟨page.lines, page.gaveUp⟩

end Command

namespace Statement

/-- Formats a statement. -/
def format (l : Layout) (t : Text) : Formatted :=
  let s := Statement.ofText t
  (Command.ofText s.body).format l s.label

/-- Formats a command name and the text of its parameters. The name is taken as it is given, even
where it is not a single word. -/
def formatParts (l : Layout) (label : Option Text) (name parameters : Text) : Formatted :=
  let c := Command.ofText (name ++ ' ' :: parameters)
  Command.format l label ⟨name, c.parameters⟩

end Statement

end ControlLanguage
