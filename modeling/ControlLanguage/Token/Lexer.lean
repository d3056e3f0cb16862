import ControlLanguage.Text.Identifier
import ControlLanguage.Text.WhiteSpace
import ControlLanguage.Token.Basic

/-!
# From text to tokens

The lexer is an automaton over characters. **Each character either belongs to the lexeme of the
character before it or begins the next one**, and the two functions `Shape.begun` and
`Shape.extended` make that decision. So the lexemes tile the text by construction, and reading a
text from the middle needs only the shape reached there.

A quote inside a literal is written twice. A literal is therefore *closed* after each of its
quotes but the first, and a further quote opens it again. Only the last lexeme can be left
unclosed, since a literal ends only where it is closed; strict reading refuses such a text.

The first lexeme that is neither blanks, a parenthesis nor a literal is the command name, provided
that only blanks come before it. A quote begins a literal only at the start of a lexeme: within a
word it is a character like any other.
-/

namespace ControlLanguage

/-- What the automaton knows about the lexeme being read. -/
inductive Shape where
  | blank
  | opening
  | closing
  /-- A literal, and whether it may end here. -/
  | literal (closed : Bool)
  /-- The first word of a statement. -/
  | name
  /-- Any later word. -/
  | word
  | variable
  | symbolic
  | function
  deriving DecidableEq, Repr

namespace Shape

/-- The quote around literals. -/
def quote : Char :=
  '\x27'

/-- A character that ends a word. -/
def endsWord (c : Char) : Bool :=
  isBlank c || c = '(' || c = ')'

/-- The shape of a lexeme that begins with a character. `named` tells that something else than
blanks was read before. -/
def begun (named : Bool) (c : Char) : Shape :=
  if isBlank c then .blank
  else if c = '(' then .opening
  else if c = ')' then .closing
  else if c = quote then .literal false
  else if !named then .name
  else if c = '&' then .variable
  else if c = '*' then .symbolic
  else if c = '%' then .function
  else .word

/-- The shape of a lexeme extended by a character, if the character belongs to it. -/
def extended : Shape → Char → Option Shape
  | .blank, c => if isBlank c then some .blank else none
  | .opening, _ => none
  | .closing, _ => none
  | .literal false, c => some (.literal (c = quote))
  | .literal true, c => if c = quote then some (.literal false) else none
  | .name, c => if endsWord c then none else some .name
  | .word, c => if endsWord c then none else some .word
  | .variable, c => if c.isAlphanum then some .variable else none
  | .symbolic, c => if c.isAlpha then some .symbolic else none
  | .function, c => if c.isAlpha then some .function else none

/-- The role of a finished lexeme, which for a later word depends on its text. -/
def kind : Shape → Text → TokenKind
  | .blank, _ => .blank
  | .opening, _ => .opening
  | .closing, _ => .closing
  | .literal _, _ => .literal
  | .name, _ => .command
  | .word, t => if t.isIdentifier then .keyword else .value
  | .variable, _ => .variable
  | .symbolic, _ => .symbolic
  | .function, _ => .function

end Shape

/-- A piece of source text with the shape that the automaton gave it. -/
structure Lexeme where
  shape : Shape
  source : Text
  deriving DecidableEq, Repr

namespace Lexeme

/-- Whether the lexeme is a literal that still lacks its closing quote. -/
def isUnclosed (l : Lexeme) : Bool :=
  l.shape = .literal false

/-- The text of the token: all runs of blanks read the same. -/
def text (l : Lexeme) : Text :=
  if l.shape = .blank then [' '] else l.source

/-- The token of a lexeme that starts at a column. -/
def toToken (l : Lexeme) (column : Nat) : Token :=
  ⟨l.shape.kind l.source, l.text, column⟩

/-- The same lexeme with one more character in front. -/
def push (c : Char) (l : Lexeme) : Lexeme :=
  ⟨l.shape, c :: l.source⟩

/-- The rest of the current lexeme, whose shape so far is `shape`, and the lexemes after it.
`named` tells that something else than blanks was read before the current lexeme. -/
def continued (named : Bool) (shape : Shape) : Text → Lexeme × List Lexeme
  | [] => (⟨shape, []⟩, [])
  | c :: t =>
    match shape.extended c with
    | some longer =>
      let rest := continued named longer t
      (rest.1.push c, rest.2)
    | none =>
      let named := named || shape ≠ .blank
      let rest := continued named (.begun named c) t
      (⟨shape, []⟩, rest.1.push c :: rest.2)

/-- The lexemes of a statement; their sources concatenate to the statement. -/
def ofText : Text → List Lexeme
  | [] => []
  | c :: t =>
    let rest := continued false (.begun false c) t
    rest.1.push c :: rest.2

/-- The lexemes with the columns where they start, the first one at `column`. -/
def placed (column : Nat) : List Lexeme → List (Nat × Lexeme)
  | [] => []
  | l :: ls => (column, l) :: placed (column + l.source.length) ls

end Lexeme

/-- The reason why strict reading refuses a text: a literal without its closing quote. -/
structure UnclosedLiteral where
  /-- The column of the opening quote. -/
  column : Nat
  deriving DecidableEq, Repr

namespace UnclosedLiteral

/-- The text of the error. -/
def message (e : UnclosedLiteral) : String :=
  "Column " ++ toString e.column ++ ": Unterminated string literal"

end UnclosedLiteral

namespace Token

/-- The lexemes of a statement with their columns, counted from one. -/
def placedLexemes (t : Text) : List (Nat × Lexeme) :=
  Lexeme.placed 1 (Lexeme.ofText t)

/-- The tokens of a statement. An unclosed literal runs to the end of the text. -/
def tokenize (t : Text) : List Token :=
  (placedLexemes t).map fun (column, l) ↦ l.toToken column

/-- The tokens of a statement, all of whose literals have to be closed. -/
def tokenizeStrict (t : Text) : Except UnclosedLiteral (List Token) :=
  match (placedLexemes t).find? (·.2.isUnclosed) with
  | some (column, _) => .error ⟨column⟩
  | none => .ok (tokenize t)

end Token

end ControlLanguage
