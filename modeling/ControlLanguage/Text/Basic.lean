/-!
# Text

Source text is a list of code points. Every position, width and column of the library counts
elements of that list, so **nothing depends on an encoding**, and recursion on text is recursion
on a list.

The operations here are those the rest of the library shares and the list library lacks: padding
to a column, dropping from the end, and the search for a piece of text inside another.
-/

namespace ControlLanguage

/-- A sequence of code points. -/
abbrev Text := List Char

namespace Text

/-- A run of `n` blanks. -/
def blanks (n : Nat) : Text :=
  List.replicate n ' '

/-- Fills up with blanks at the end to a width of `n`; longer text is left alone. -/
def padEnd (n : Nat) (t : Text) : Text :=
  t ++ blanks (n - t.length)

/-- Drops the longest final run of characters that satisfy `p`. -/
def dropEndWhile (p : Char → Bool) (t : Text) : Text :=
  (t.reverse.dropWhile p).reverse

/-- Concatenates the texts with one blank between neighbours. -/
def joinBlank (ts : List Text) : Text :=
  [' '].intercalate ts

/-- Whether `piece` occurs somewhere in the text. -/
def includes (piece : Text) : Text → Bool
  | [] => piece.isEmpty
  | c :: t => piece.isPrefixOf (c :: t) || includes piece t

/-- The positions at which `piece` occurs, overlapping occurrences included, in a text that
starts at position `start`. -/
def occurrencesFrom (start : Nat) (piece : Text) : Text → List Nat
  | [] => if piece.isEmpty then [start] else []
  | c :: t =>
    if piece.isPrefixOf (c :: t) then start :: occurrencesFrom (start + 1) piece t
    else occurrencesFrom (start + 1) piece t

/-- The positions at which `piece` occurs, overlapping occurrences included. -/
def occurrences (piece t : Text) : List Nat :=
  occurrencesFrom 0 piece t

/-- Cuts at every occurrence of a character; the pieces do not hold it. -/
def cutAt (separator : Char) : Text → List Text
  | [] => [[]]
  | c :: t =>
    if c = separator then [] :: cutAt separator t else (cutAt separator t).modifyHead (c :: ·)

/-- Drops one line feed at the very end, if there is one. -/
def dropFinalLineFeed (t : Text) : Text :=
  if t.getLast? = some '\n' then t.dropLast else t

end Text

end ControlLanguage
