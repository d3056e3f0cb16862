import ControlLanguage.Text.Digit
import ControlLanguage.Text.Identifier
import ControlLanguage.Text.LetterCase
import ControlLanguage.Text.WhiteSpace

/-!
# Recognising what a value is

A single value shows what it is by its form alone: a name, a variable, a number, a quoted text or
an expression. These recognisers are **independent of each other and may overlap**: a quoted text
is a name too, and a text in parentheses is an expression whatever is inside. The order in which
they are asked is decided where a value is written.
-/

namespace ControlLanguage

/-- A capital ASCII letter or an ASCII digit. -/
def isCapitalOrDigit (c : Char) : Bool :=
  c.isUpper || c.isDigit

/-- The operators that make a value an expression. -/
def expressionOperators : List Text :=
  ["*CAT".toList, "*TCAT".toList, "*BCAT".toList, "*EQ".toList, "*NE".toList, "*LT".toList,
    "*LE".toList, "*GT".toList, "*GE".toList]

namespace Text

/-- Whether a text begins and ends with the same quote character. -/
def isQuoted (t : Text) : Bool :=
  match t.head?, t.getLast? with
  | some a, some b => 2 ≤ t.length && a = b && (a = '\x27' || a = '"')
  | _, _ => false

/-- A name of at most eleven characters. -/
def isBareName (t : Text) : Bool :=
  match t with
  | [] => false
  | c :: rest => isNameStart c && rest.all isNameChar && rest.length ≤ 10

/-- A name, a variable or a quoted text. -/
def isName (t : Text) : Bool :=
  let t := t.trim
  match t with
  | '&' :: name => isBareName name
  | _ => isQuoted t || isBareName t

/-- Digits with at most one point or comma among them, and at least one digit. -/
def isUnsignedNumber (t : Text) : Bool :=
  let whole := t.takeWhile isDecimalDigit
  match t.dropWhile isDecimalDigit with
  | [] => !whole.isEmpty
  | mark :: fraction =>
    (mark = '.' || mark = ',') && fraction.all isDecimalDigit &&
      !(whole.isEmpty && fraction.isEmpty)

/-- An integer or a decimal number, possibly signed. -/
def isNumber (t : Text) : Bool :=
  match t.trim with
  | '-' :: rest => isUnsignedNumber rest
  | '+' :: rest => isUnsignedNumber rest
  | rest => isUnsignedNumber rest

/-- What follows a capital word and the white space after it, if the text begins with one. -/
def afterCapitalWord : Text → Option Text
  | [] => none
  | c :: t => if c.isUpper then some (trimStart (t.dropWhile isCapitalOrDigit)) else none

/-- Whether the text begins with the call of a built-in function. -/
def beginsCall : Text → Bool
  | '%' :: t => (afterCapitalWord t).any (·.head? = some '(')
  | _ => false

/-- Whether the text begins with a variable and an operator after it. -/
def beginsOperation : Text → Bool
  | '&' :: t => (afterCapitalWord t).any fun rest ↦ rest.head? = some '*' || rest.head? = some '%'
  | _ => false

/-- Whether a property holds of the text or of one of its proper ends. -/
def anyEnd (p : Text → Bool) : Text → Bool
  | [] => p []
  | c :: t => p (c :: t) || anyEnd p t

/-- Whether a text is an expression rather than one value. -/
def isExpression (t : Text) : Bool :=
  let t := t.trim.upper
  t.head? = some '(' && t.getLast? = some ')' ||
    expressionOperators.any (·.includes t) || anyEnd beginsCall t || anyEnd beginsOperation t

end Text

end ControlLanguage
