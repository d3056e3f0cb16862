import ControlLanguage.Text.Basic
import ControlLanguage.Text.CaseTable

/-!
# Upper and lower case

The full case mappings: a character may become a sequence (`ß` becomes `SS`), and characters
without the other case stay as they are. Upper case is a map on characters. Lower case is one
too, but for **the capital sigma**, whose small form at the end of a word differs from the one
inside, so lower case looks at the neighbours.
-/

namespace ControlLanguage

/-- The counterpart of a character beyond ASCII in one direction, by its two tables. -/
def caseCounterpart (runs : List CaseRun) (sequences : List (Nat × List Nat)) (c : Char) : Text :=
  match sequences.lookup c.toNat with
  | some codes => codes.map Char.ofNat
  | none =>
    match runs.find? (·.contains c.toNat) with
    | some run => [run.counterpart c.toNat]
    | none => [c]

/-- The upper case of one character. -/
def upperChar (c : Char) : Text :=
  if c.toNat < 128 then [c.toUpper] else caseCounterpart upperRuns upperSequences c

/-- The lower case of one character, outside of any word. -/
def lowerChar (c : Char) : Text :=
  if c.toNat < 128 then [c.toLower] else caseCounterpart lowerRuns lowerSequences c

/-- A character that is part of a word for the choice of a sigma. -/
def isCased (c : Char) : Bool :=
  casedRanges.any (·.contains c)

/-- A character that the choice of a sigma passes over. -/
def isCaseIgnorable (c : Char) : Bool :=
  caseIgnorableRanges.any (·.contains c)

namespace Text

/-- Upper case, character by character. -/
def upper (t : Text) : Text :=
  t.flatMap upperChar

/-- Whether the first character that is not case-ignorable is cased. -/
def reachesCased (t : Text) : Bool :=
  (t.find? fun c ↦ !isCaseIgnorable c).any isCased

/-- Lower case of the text that follows `before`, which is given nearest character first. A
capital sigma is final when a cased character comes before it and none comes after it. -/
def lowerAfter (before : Text) : Text → Text
  | [] => []
  | c :: after =>
    (if c = 'Σ' then
      [if reachesCased before && !reachesCased after then 'ς' else 'σ']
    else lowerChar c) ++ lowerAfter (c :: before) after

/-- Lower case, with the final form of sigma at the end of a word. -/
def lower (t : Text) : Text :=
  lowerAfter [] t

end Text

end ControlLanguage
