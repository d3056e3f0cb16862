import ControlLanguage.Canonical.Recognition
import ControlLanguage.Metadata.Basic

/-!
# The canonical form of a value

However a value was typed, it is written in one form. Names, variables, special values and the
values that a parameter allows are in upper case; expressions, numbers and quoted texts are
written as they are; **anything else is quoted**, with the quotes inside doubled. The recognisers
overlap, so their order is part of the rule.
-/

namespace ControlLanguage

namespace Text

/-- Puts quotes around a text and doubles those inside. -/
def quoted (t : Text) : Text :=
  '\x27' :: t.flatMap (fun c ↦ if c = '\x27' then [c, c] else [c]) ++ ['\x27']

/-- Whether a value is written in upper case: by its type, as an allowed value, as a name or as a
special value. -/
def isCapitalised (allowed : List Text) (type : Text) (t : Text) : Bool :=
  isNameType type || (allowed.map (·.trim.upper)).contains t.upper || (isName t && !isQuoted t) ||
    t.head? = some '*'

/-- The canonical form of a value, given the values that its parameter allows and its type. A
value that is blank or an empty quoted text has no form. -/
def canonical (allowed : List Text) (type : Text) (t : Text) : Text :=
  let t := t.trim
  if t = [] || t = ['\x27', '\x27'] then []
  else if isCapitalised allowed type t then if isQuoted t then t else t.upper
  else if isExpression t then t
  else if isQuoted t then t
  else if isNumber t then t
  else quoted t

end Text

end ControlLanguage
