import ControlLanguage.Command.Basic
import ControlLanguage.Token.Lexer

/-!
# From tokens to commands

The first token that is not a blank names the command. After it, **a keyword directly followed by
an opening parenthesis begins a parameter**, and its value runs to the matching closing
parenthesis or else to the end. All other tokens between parameters are passed over, so every list
of tokens has a command.

The reader is an automaton over tokens: between two parameters it remembers whether the token
before can name a parameter, and inside a value how many parentheses are open.
-/

namespace ControlLanguage

namespace Token

/-- Whether a token can name a parameter. Besides keywords these are values of identifier shape,
so that tokens that were built by hand and classified loosely read the same. -/
def namesParameter (t : Token) : Bool :=
  t.kind = .keyword || t.kind = .value && t.text.isIdentifier

/-- Whether a token alone makes a scalar value. -/
def isScalar (t : Token) : Bool :=
  t.kind = .literal || t.kind = .value || t.kind = .symbolic || t.kind = .variable

end Token

namespace Value

/-- The value between a pair of parentheses. -/
def ofTokens : List Token → Value
  | [t] => if t.isScalar then .scalar t.text else .expression [t]
  | tokens => .expression tokens

end Value

namespace Command

/-- What the reader takes for a parameter: a keyword and the tokens after its opening
parenthesis. -/
structure Capture where
  keyword : Text
  tokens : List Token
  /-- Whether the tokens end at the matching closing parenthesis, and not at the end of the
  statement. -/
  isClosed : Bool
  deriving DecidableEq, Repr

namespace Capture

/-- The parameter that a capture stands for. -/
def toParameter (c : Capture) : Parameter :=
  ⟨c.keyword, .ofTokens c.tokens⟩

end Capture

/-- Where the reader stands. -/
inductive Position where
  /-- Between parameters, after a token whose text is given if it can name a parameter. -/
  | between (candidate : Option Text)
  /-- Inside the value of a parameter, with `depth` parentheses open besides its own, after the
  tokens `taken`, the last one first. -/
  | inside (keyword : Text) (depth : Nat) (taken : List Token)

/-- The parameters that are read from a position on, with their tokens. -/
def capturesFrom : Position → List Token → List Capture
  | .between _, [] => []
  | .inside keyword _ taken, [] => [⟨keyword, taken.reverse, false⟩]
  | .between candidate, t :: rest =>
    match candidate, t.kind with
    | some keyword, .opening => capturesFrom (.inside keyword 0 []) rest
    | _, _ => capturesFrom (.between (if t.namesParameter then some t.text else none)) rest
  | .inside keyword depth taken, t :: rest =>
    match t.kind, depth with
    | .closing, 0 => ⟨keyword, taken.reverse, true⟩ :: capturesFrom (.between none) rest
    | .closing, depth + 1 => capturesFrom (.inside keyword depth (t :: taken)) rest
    | .opening, depth => capturesFrom (.inside keyword (depth + 1) (t :: taken)) rest
    | _, depth => capturesFrom (.inside keyword depth (t :: taken)) rest

/-- The name token of a statement and the tokens after it; blanks in front are passed over. -/
def nameAndRest? (tokens : List Token) : Option (Token × List Token) :=
  match tokens.dropWhile (·.kind = .blank) with
  | [] => none
  | name :: rest => some (name, rest)

/-- The captures of a list of tokens. -/
def captures (tokens : List Token) : List Capture :=
  (nameAndRest? tokens).elim [] fun (_, rest) ↦ capturesFrom (.between none) rest

/-- The command that a list of tokens spells; its name is empty if there are only blanks. -/
def ofTokens (tokens : List Token) : Command :=
  ⟨(nameAndRest? tokens).elim [] (·.1.text), (captures tokens).map Capture.toParameter⟩

/-- The command that a statement without label spells. -/
def ofText (t : Text) : Command :=
  ofTokens (Token.tokenize t)

end Command

end ControlLanguage
