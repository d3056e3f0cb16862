import ControlLanguage.Text.WhiteSpace

/-!
# Statements over several lines

A line that ends in a marker continues on the next line. **The marker decides which blanks
survive the joint**: after a plus sign the next line loses its blanks at the start, and before a
minus sign the line loses its blanks at the end. Whether a statement goes on is decided from all
of the text collected so far, not from the last line alone.

A comment is a line of its own between statements. Inside a continued statement there are no
comments and no blank lines, only text.
-/

namespace ControlLanguage

/-- The sign that ends a continued line. -/
inductive Marker where
  /-- Keeps the blanks before it and drops those of the next line. -/
  | plus
  /-- Drops the blanks before it and keeps those of the next line. -/
  | minus
  deriving DecidableEq, Repr

namespace Marker

/-- The character of a marker. -/
def char : Marker → Char
  | .plus => '+'
  | .minus => '-'

end Marker

namespace Statement

/-- The text of a statement that goes on, without the marker, and how it goes on. -/
structure Pending where
  text : Text
  marker : Marker

namespace Pending

/-- The collected text with the next line added. -/
def extended (p : Pending) (line : Text) : Text :=
  match p.marker with
  | .plus => p.text ++ line.trimStart
  | .minus => p.text ++ line.trimEnd

end Pending

/-- The text collected so far goes on if it ends in a marker. -/
def pending? (collected : Text) : Option Pending :=
  let text := collected.trimEnd
  match text.getLast? with
  | some '+' => some ⟨text.dropLast, .plus⟩
  | some '-' => some ⟨Text.trimEnd text.dropLast, .minus⟩
  | _ => none

/-- Whether a text is a comment. -/
def isComment (t : Text) : Bool :=
  ['/', '*'].isPrefixOf t

/-- The text collected so far is a complete statement, unless it goes on. -/
def settled (collected : Text) : List Text × Option Pending :=
  match pending? collected with
  | some p => ([], some p)
  | none => ([collected.trim], none)

/-- What one line completes, and what it leaves to the next one. -/
def afterLine (before : Option Pending) (line : Text) : List Text × Option Pending :=
  let line := line.dropEndWhile fun c ↦ c = '\r' || c = '\n'
  match before with
  | some p => settled (p.extended line)
  | none =>
    if line.trim.isEmpty then ([], none)
    else if isComment line.trim then ([line.trim], none)
    else settled line.trim

/-- What remains of a statement that goes on where the lines end: the marker is dropped. -/
def leftOver (p : Pending) : List Text :=
  if p.text.trim.isEmpty then [] else [p.text.trim]

/-- The statements and comments of lines that continue what is pending, if anything is. -/
def joinedAfter (before : Option Pending) : List Text → List Text
  | [] => before.elim [] leftOver
  | line :: lines =>
    let step := afterLine before line
    step.1 ++ joinedAfter step.2 lines

/-- The statements and comments of a list of source lines, in source order. -/
def joinLines (lines : List Text) : List Text :=
  joinedAfter none lines

end Statement

end ControlLanguage
