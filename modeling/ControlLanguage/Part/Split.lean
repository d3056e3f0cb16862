import ControlLanguage.Part.Nesting
import ControlLanguage.Text.WhiteSpace

/-!
# The parts of a value

Blanks separate the occurrences and the elements of a value, slashes the parts of a qualified
name. **Neither separates inside quotes or parentheses.** One function, `fields`, cuts a value at
its free separators, and the two ways of splitting are views of its result: occurrences are the
fields that are not empty, and a qualified name with `n` parts keeps the first `n - 1` fields and
takes the rest together.

A value is *wrapped* when one pair of parentheses encloses all of it.
-/

namespace ControlLanguage

namespace Part

/-- Cuts a text at its free separators, where `s` is what is open at its start. -/
def fields (isSeparator : Char → Bool) (s : Nesting) : Text → List Text
  | [] => [[]]
  | c :: t =>
    if s.isFree c && isSeparator c then [] :: fields isSeparator s t
    else (fields isSeparator (s.after c) t).modifyHead (c :: ·)

/-- The parts between free blanks, such as the occurrences of a value or the elements of a
list. -/
def occurrences (t : Text) : List Text :=
  ((fields isBlank .outside t).map Text.trim).filter (!·.isEmpty)

/-- Joins the fields from the last of `n` on; there is always at least one part. -/
def limited (n : Int) (parts : List Text) : List Text :=
  let kept := (n - 1).toNat
  match parts.drop kept with
  | [] => parts
  | rest => parts.take kept ++ [['/'].intercalate rest]

/-- Drops the empty parts at the end. -/
def dropEmptyEnd (parts : List Text) : List Text :=
  (parts.reverse.dropWhile List.isEmpty).reverse

/-- The parts of a qualified name, from left to right, at most `n` of them. Further slashes stay
in the last part. -/
def qualified (n : Int) (t : Text) : List Text :=
  dropEmptyEnd ((limited n (fields (· = '/') .outside t)).map Text.trim)

/-- The parts of a qualified name with the object first. -/
def objectFirst (n : Int) (t : Text) : List Text :=
  (qualified n t).reverse

/-- Whether a parenthesis stays open from the first character of a text up to its last one. -/
def staysOpen (s : Nesting) : Text → Bool
  | [] => true
  | [_] => true
  | c :: t => (s.after c).depth ≠ 0 && staysOpen (s.after c) t

/-- Whether one pair of parentheses encloses the whole of a text. -/
def isWrapped (t : Text) : Bool :=
  let t := t.trim
  2 ≤ t.length && t.head? = some '(' && t.getLast? = some ')' && staysOpen .outside t

/-- Removes one pair of parentheses that encloses the whole of a text. -/
def unwrapped (t : Text) : Text :=
  if isWrapped t then Text.trim t.trim.tail.dropLast else t.trim

end Part

end ControlLanguage
