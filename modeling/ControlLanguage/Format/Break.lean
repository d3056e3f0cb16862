import ControlLanguage.Text.Basic

/-!
# Where a line may end

A piece of text that does not fit is broken at the last usable blank, or else it is cut. Both are
decided from the **spans** of the text, the stretches that atoms occupy. A position strictly inside
a span is never a place to break.

The search for a cut begins at the room and only moves on. A position inside a span goes to the end
of the span; and where an atom pushes it beyond the room, the line is too long anyway, so it goes on
to the next blank. There it may lie inside another span, so **the search goes over the spans again
until the position stays**.
-/

namespace ControlLanguage

/-- A stretch of a text that no break may split. -/
structure Span where
  start : Nat
  stop : Nat
  deriving DecidableEq, Repr

namespace Span

/-- Whether a position lies strictly inside a span. -/
def hasInside (s : Span) (i : Nat) : Bool :=
  s.start < i && i < s.stop

/-- A position inside the span is moved to its end. -/
def leave (i : Nat) (s : Span) : Nat :=
  if s.hasInside i then s.stop else i

/-- The spans of all occurrences of atoms in a text; a single character needs no protection. -/
def ofAtoms (atoms : List Text) (t : Text) : List Span :=
  (atoms.filter (2 ≤ ·.length)).flatMap fun a ↦
    (Text.occurrences a t).map fun i ↦ ⟨i, i + a.length⟩

end Span

namespace Break

/-- Whether a break at a position splits a span. -/
def splits (spans : List Span) (i : Nat) : Bool :=
  spans.any (·.hasInside i)

/-- Whether a line may end at a position: a blank stands there, which is not the first character,
does not follow an opening parenthesis and is not part of an atom. -/
def isUsable (spans : List Span) (t : Text) (i : Nat) : Bool :=
  0 < i && t[i]? = some ' ' && t[i - 1]? ≠ some '(' && !splits spans i

/-- The last usable position within the room. -/
def last? (spans : List Span) (room : Int) (t : Text) : Option Nat :=
  (List.range (min room (t.length - 1)).toNat.succ).reverse.find? (isUsable spans t)

/-- The first position that a cut may fall on: the room, but at least one character and at most
the whole text. -/
def earliest (room : Int) (t : Text) : Nat :=
  (max 1 (min room t.length)).toNat

/-- The first blank from a position on, or the end of the text. -/
def nextBlank (t : Text) (i : Nat) : Nat :=
  i + ((t.drop i).takeWhile (· ≠ ' ')).length

/-- One pass of the search: over the spans in their order, and then to a blank if the position is
beyond the room. -/
def pass (spans : List Span) (room : Int) (t : Text) (i : Nat) : Nat :=
  let i := spans.foldl Span.leave i
  if room < i then nextBlank t i else i

/-- At most `limit` passes, until the position stays. -/
def settle (spans : List Span) (room : Int) (t : Text) : (limit : Nat) → Nat → Nat
  | 0, i => i
  | limit + 1, i =>
    let next := pass spans room t i
    if next = i then i else settle spans room t limit next

/-- Where a text is cut. Each pass but the last one moves on, so there are no more of them than the
text has characters. -/
def cut (spans : List Span) (room : Int) (t : Text) : Nat :=
  settle spans room t t.length (earliest room t)

end Break

end ControlLanguage
