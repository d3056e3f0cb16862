import ControlLanguage.Canonical.Recognition
import ControlLanguage.Command.Basic
import ControlLanguage.Layout.Basic
import ControlLanguage.Token.Lexer

/-!
# Atoms

An atom is a piece of formatted text that no line break may split: a quoted literal, a number, or
a keyword with its opening parenthesis. The atoms of a command are gathered from the whole of it,
commands inside values included, and **an atom is protected wherever its text occurs**, not only
at the place it was gathered from.

A scalar may hold several literals. They are found from the left, each one as long as the quotes
allow: two quotes in a row belong to the literal, unless no closing quote follows; then the
literal ends at the first of the last such pair.
-/

namespace ControlLanguage

namespace Text

/-- How many characters after an opening quote belong to the literal, the closing quote
included. -/
def literalLength : Text → Option Nat
  | [] => none
  | c :: t =>
    if c = Shape.quote then
      match t with
      | [] => some 1
      | d :: t =>
        if d = Shape.quote then
          match literalLength t with
          | some n => some (n + 2)
          | none => some 1
        else some 1
    else (literalLength t).map (· + 1)

/-- The literals of a text from left to right, after `skip` characters that are part of a literal
already found. -/
def literalsAfter (skip : Nat) : Text → List Text
  | [] => []
  | c :: t =>
    match skip with
    | skip + 1 => literalsAfter skip t
    | 0 =>
      if c = Shape.quote then
        match literalLength t with
        | some n => (c :: t.take n) :: literalsAfter n t
        | none => literalsAfter 0 t
      else literalsAfter 0 t

/-- The literals of a text. -/
def literals (t : Text) : List Text :=
  literalsAfter 0 t

end Text

namespace Atom

/-- A keyword with its opening parenthesis. -/
def opened (keyword : Text) : Text :=
  keyword ++ ['(']

/-- The atoms of a scalar. -/
def ofScalar (t : Text) : List Text :=
  (if t.isNumber then [t.trim] else []) ++ t.literals

/-- The atoms of an expression. Keywords in it are written as they are. -/
def ofTokens : List Token → List Text
  | [] => []
  | t :: rest =>
    (match t.kind with
      | .literal => [t.text]
      | .value => if t.text.isNumber then [t.text] else []
      | .keyword => if rest.head?.any (·.kind = .opening) then [opened t.text] else []
      | _ => []) ++ ofTokens rest

mutual

/-- The atoms of a value. -/
def ofValue (c : KeywordCase) : Value → List Text
  | .scalar t => ofScalar t
  | .expression tokens => ofTokens tokens
  | .array items => ofValues c items
  | .function _ args => ofValues c args
  | .command command => ofCommand c command
  | .unknown => []

/-- The atoms of several values. -/
def ofValues (c : KeywordCase) : List Value → List Text
  | [] => []
  | v :: vs => ofValue c v ++ ofValues c vs

/-- The atoms of a command. -/
def ofCommand (c : KeywordCase) : Command → List Text
  | ⟨_, parameters⟩ => ofParameters c parameters

/-- The atoms of a parameter. -/
def ofParameter (c : KeywordCase) : Parameter → List Text
  | ⟨keyword, value⟩ => opened (c.apply keyword) :: ofValue c value

/-- The atoms of several parameters. -/
def ofParameters (c : KeywordCase) : List Parameter → List Text
  | [] => []
  | p :: ps => ofParameter c p ++ ofParameters c ps

end

end Atom

namespace Command

/-- The atoms of a command, each one once and in the order of their code points. -/
def atoms (c : KeywordCase) (command : Command) : List Text :=
  (Atom.ofCommand c command).eraseDups.mergeSort fun s t ↦ !decide (t < s)

end Command

end ControlLanguage
