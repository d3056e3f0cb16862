import ControlLanguage.Text.Basic

/-!
# Quotes and parentheses

The value of a parameter is split at characters that lie outside of quotes and parentheses. What
is inside and what is outside is tracked character by character: an apostrophe or a quotation mark
opens and closes a quoted run, each kind is an ordinary character inside a run of the other kind,
and parentheses count outside of quoted runs only.

The depth is an integer: a closing parenthesis without an opening one makes it negative, and
text at a **negative depth is not outside** either.
-/

namespace ControlLanguage

/-- What is open at a position of a value. -/
structure Nesting where
  /-- The quote character of the quoted run around the position. -/
  quote : Option Char
  /-- How many more parentheses were opened than closed. -/
  depth : Int
  deriving DecidableEq, Repr

namespace Nesting

/-- Nothing is open. -/
def outside : Nesting :=
  ⟨none, 0⟩

/-- A character that opens and closes quoted runs. -/
def isQuote (c : Char) : Bool :=
  c = '\x27' || c = '"'

/-- What is open after a character. -/
def after (s : Nesting) (c : Char) : Nesting :=
  match s.quote with
  | some q => if c = q then ⟨none, s.depth⟩ else s
  | none =>
    if isQuote c then ⟨some c, s.depth⟩
    else if c = '(' then ⟨none, s.depth + 1⟩
    else if c = ')' then ⟨none, s.depth - 1⟩
    else s

/-- Whether a character at this position stands outside of quotes and parentheses, and is not one
of those itself. -/
def isFree (s : Nesting) (c : Char) : Bool :=
  s = outside && !isQuote c && c ≠ '(' && c ≠ ')'

/-- What is open after a text. -/
def afterText (s : Nesting) (t : Text) : Nesting :=
  t.foldl after s

end Nesting

end ControlLanguage
