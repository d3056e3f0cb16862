import ControlLanguage.Text.Basic
import ControlLanguage.Text.CodeRange

/-!
# White space and trimming

Two classes of empty characters matter to source text and they are **not** interchangeable. A
*blank* is a space or a tab: only blanks separate words and values. *White space* is the wider
class that trimming removes; it also holds the line ends, the information separators and the
spaces of typography.
-/

namespace ControlLanguage

/-- A space or a tab: what separates words and values. -/
def isBlank (c : Char) : Bool :=
  c = ' ' || c = '\t'

/-- The ranges of the white space characters, in order. -/
def whiteSpaceRanges : List CodeRange :=
  [⟨9, 13⟩, ⟨28, 32⟩, ⟨133, 133⟩, ⟨160, 160⟩, ⟨5760, 5760⟩, ⟨8192, 8202⟩, ⟨8232, 8233⟩,
    ⟨8239, 8239⟩, ⟨8287, 8287⟩, ⟨12288, 12288⟩]

/-- A character that trimming removes. -/
def isWhiteSpace (c : Char) : Bool :=
  whiteSpaceRanges.any (·.contains c)

namespace Text

/-- Drops the white space at the start. -/
def trimStart (t : Text) : Text :=
  t.dropWhile isWhiteSpace

/-- Drops the white space at the end. -/
def trimEnd (t : Text) : Text :=
  t.dropEndWhile isWhiteSpace

/-- Drops the white space at both ends. -/
def trim (t : Text) : Text :=
  t.trimStart.trimEnd

end Text

end ControlLanguage
