import ControlLanguage.Format.Break
import ControlLanguage.Layout.Basic

/-!
# Filling lines

A page holds the lines that are closed and the line being written. Text is put on it piece by
piece, and **each step of the wrap loop is one of four**: the rest fits; it is broken at a blank;
the line is closed before it; or it is cut.

Two columns are always kept free for the blank and the marker at the end of a line. A cut in the
middle of a word puts the marker directly behind the text, so that the word is whole again when the
lines are joined.

The number of steps for one piece is limited. A piece that is not finished by then is put on the
page as it is, and the page counts how often that happened.
-/

namespace ControlLanguage

/-- Formatted lines, of which the last one is still being written. -/
structure Page where
  closed : List Text
  current : Text
  /-- How many pieces were put on the page unwrapped. -/
  gaveUp : Nat

/-- What is done with a piece of text that is to be put on a page. -/
inductive WrapStep where
  /-- All of it goes on the current line. -/
  | fits
  /-- The text before a blank goes on the current line, and the line is closed. -/
  | breakAt (i : Nat)
  /-- The current line is closed first. -/
  | newLine
  /-- The text is cut and the line is closed between the parts. -/
  | cutAt (i : Nat)
  deriving DecidableEq, Repr

namespace Page

/-- The page on which nothing is closed. -/
def start (line : Text) : Page :=
  ⟨[], line, 0⟩

/-- Adds text to the current line. -/
def append (p : Page) (t : Text) : Page :=
  { p with current := p.current ++ t }

/-- Closes the current line with the marker and begins a continuation line. After a joined break
no blank stands before the marker. -/
def breakLine (l : Layout) (joined : Bool) (p : Page) : Page where
  closed := p.closed ++ [p.current.trimEnd ++ Text.blanks (if joined then 0 else 1) ++
    [l.marker.char]]
  current := Text.blanks (l.continuationColumn - 1)
  gaveUp := p.gaveUp

/-- Whether nothing is on the current line yet. -/
def isFresh (p : Page) : Bool :=
  p.current.trim.isEmpty

/-- The room on the current line, which is negative where the line is too long already. -/
def room (l : Layout) (p : Page) : Int :=
  (l.rightMargin : Int) - p.current.length - 2

/-- The next step for a piece of text. -/
def nextStep (l : Layout) (atoms : List Text) (p : Page) (t : Text) : WrapStep :=
  if t.length ≤ p.room l then .fits
  else
    let spans := Span.ofAtoms atoms t
    match Break.last? spans (p.room l) t with
    | some i => .breakAt i
    | none => if p.isFresh then .cutAt (Break.cut spans (p.room l) t) else .newLine

/-- Text without the blanks at its start. -/
def withoutBlanks (t : Text) : Text :=
  t.dropWhile (· = ' ')

/-- The page after a step, and the text that is left. -/
def afterStep (l : Layout) (p : Page) (t : Text) : WrapStep → Page × Text
  | .fits => (p.append t, [])
  | .breakAt i => ((p.append (t.take i)).breakLine l false, withoutBlanks (t.drop (i + 1)))
  | .newLine => (p.breakLine l false, withoutBlanks t)
  | .cutAt i =>
    match t.drop i with
    | [] => (p.append (t.take i), [])
    | c :: rest => ((p.append (t.take i)).breakLine l (c ≠ ' '), withoutBlanks (c :: rest))

/-- Puts a piece of text on a page in at most `limit` steps. -/
def wrap (l : Layout) (atoms : List Text) : (limit : Nat) → Page → Text → Page
  | _, p, [] => p
  | 0, p, t => { p.append t with gaveUp := p.gaveUp + 1 }
  | limit + 1, p, t =>
    let next := p.afterStep l t (p.nextStep l atoms t)
    wrap l atoms limit next.1 next.2

/-- The greatest number of steps for one piece of text. -/
def stepLimit : Nat :=
  1000

/-- Puts segments on a page, each after the first on a line of its own. -/
def wrapSegments (l : Layout) (atoms : List Text) (p : Page) (first : Text) (rest : List Text) :
    Page :=
  rest.foldl (fun p s ↦ wrap l atoms stepLimit (p.breakLine l false) s)
    (wrap l atoms stepLimit p first)

/-- The lines of the page; the last one has no marker. -/
def lines (p : Page) : List Text :=
  p.closed ++ [p.current.trimEnd]

end Page

end ControlLanguage
