import ControlLanguage.Text.Basic

/-!
# Letters and identifiers

Words of the language are compared without regard to case, and **that comparison decides which
characters are letters**: the ASCII letters, and the four characters beyond ASCII whose
one-character upper or lower case is an ASCII letter. Digits of words are the ASCII digits.

A word may be followed by a single line feed at the very end of the text; it is not part of the
word.
-/

namespace ControlLanguage

/-- The letters of words: ASCII letters, and the characters beyond ASCII that differ from one of
them in case only. -/
def isLetter (c : Char) : Bool :=
  c.isAlpha || c = 'ı' || c = 'ſ' || c = 'İ' || c = '\u212a'

/-- The letters and digits of words. -/
def isWordChar (c : Char) : Bool :=
  isLetter c || c.isDigit

/-- The characters that may begin a label or a name. -/
def isNameStart (c : Char) : Bool :=
  isLetter c || c = '$' || c = '#' || c = '@'

/-- The characters of a label. -/
def isLabelChar (c : Char) : Bool :=
  isNameStart c || c.isDigit || c = '_'

/-- The characters of a name. -/
def isNameChar (c : Char) : Bool :=
  isLabelChar c || c = '.'

namespace Text

/-- A letter followed by letters and digits. -/
def isIdentifier (t : Text) : Bool :=
  match t.dropFinalLineFeed with
  | [] => false
  | c :: rest => isLetter c && rest.all isWordChar

end Text

end ControlLanguage
