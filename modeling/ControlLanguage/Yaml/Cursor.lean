import ControlLanguage.Text.Basic

/-!
# Moving through a document text

A cursor is a place in a document text: what is left of the text, and where the place is. Every
kind of line end begins a new line, and all but the two Unicode separators read as a line feed.
-/

namespace ControlLanguage

namespace Yaml

/-- A place in a document text. -/
structure Cursor where
  rest : Text
  /-- How many characters come before. -/
  index : Nat
  line : Nat
  column : Nat

/-- A character that ends a line. -/
def isBreak (c : Char) : Bool :=
  c = '\n' || c = '\r' || c = '\u0085' || c = '\u2028' || c = '\u2029'

/-- Whether a place is the end of the text, a blank or a line end. -/
def isGap : Option Char → Bool
  | none => true
  | some c => c = ' ' || c = '\t' || isBreak c

namespace Cursor

/-- The start of a text. -/
def start (t : Text) : Cursor :=
  ⟨t, 0, 0, 0⟩

/-- The character at a distance, if the text goes on so far. -/
def peek (c : Cursor) (n : Nat) : Option Char :=
  c.rest[n]?

/-- The place after one character. A byte order mark has no width. -/
def next (c : Cursor) : Cursor :=
  match c.rest with
  | [] => c
  | a :: rest =>
    if isBreak a && !(a = '\r' && rest.head? = some '\n') then ⟨rest, c.index + 1, c.line + 1, 0⟩
    else ⟨rest, c.index + 1, c.line, if a = '\ufeff' then c.column else c.column + 1⟩

/-- The place after several characters. -/
def skip (c : Cursor) : (n : Nat) → Cursor
  | 0 => c
  | n + 1 => c.next.skip n

/-- The run of characters with a property. -/
def run (c : Cursor) (p : Char → Bool) : Text :=
  c.rest.takeWhile p

/-- The place after the run of characters with a property. -/
def skipWhile (c : Cursor) (p : Char → Bool) : Cursor :=
  c.skip (c.run p).length

/-- The text of a line end, if there is one here, and the place after it. -/
def lineBreak? (c : Cursor) : Option (Char × Cursor) :=
  match c.rest with
  | '\r' :: '\n' :: _ => some ('\n', c.skip 2)
  | a :: _ =>
    if a = '\u2028' || a = '\u2029' then some (a, c.next)
    else if isBreak a then some ('\n', c.next)
    else none
  | [] => none

/-- Whether three characters and a gap stand here. -/
def hasMark (c : Cursor) (mark : Char) : Bool :=
  [mark, mark, mark].isPrefixOf c.rest && isGap (c.peek 3)

/-- Whether a document begins or ends here. -/
def hasDocumentMark (c : Cursor) : Bool :=
  c.hasMark '-' || c.hasMark '.'

end Cursor

end Yaml

end ControlLanguage
