import ControlLanguage.Text.WhiteSpace

/-!
# Tokens

A token is a piece of a statement together with its role and the column where it starts. The
text of a token is the source text of the piece, but for **runs of blanks, which all read as one
blank**; a literal keeps its quotes.
-/

namespace ControlLanguage

/-- The role of a token. -/
inductive TokenKind where
  /-- The command name. -/
  | command
  /-- A word of identifier shape. -/
  | keyword
  /-- An ampersand and the name after it. -/
  | variable
  /-- An asterisk and the letters after it. -/
  | symbolic
  /-- A percent sign and the letters after it. -/
  | function
  /-- A quoted literal. -/
  | literal
  /-- Any other word. -/
  | value
  /-- An opening parenthesis. -/
  | opening
  /-- A closing parenthesis. -/
  | closing
  /-- A run of blanks. -/
  | blank
  deriving DecidableEq, Repr

/-- A piece of a statement. -/
structure Token where
  kind : TokenKind
  text : Text
  /-- The column of the first character, counted from one; zero where the position is unknown. -/
  column : Nat
  deriving DecidableEq, Repr

namespace Token

/-- The text that a list of tokens spells, without the white space around it. -/
def spelling (tokens : List Token) : Text :=
  Text.trim (tokens.flatMap (·.text))

end Token

end ControlLanguage
