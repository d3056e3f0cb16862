import ControlLanguage.Text.Basic

/-!
# Structured documents

Layouts and descriptions of commands are given as documents: nested lists and maps of simple
values. A document says nothing about what its values are for; the readers for layouts and
descriptions decide which documents they accept.

Of a floating-point number **only what a reader can ask is kept**: whether it is a whole number,
and which.
-/

namespace ControlLanguage

/-- A floating-point number as far as documents tell it apart. -/
inductive Floating where
  | whole (n : Int)
  | fractional
  | notFinite
  deriving DecidableEq, Repr

/-- A structured document. -/
inductive Document where
  | null
  | truth (b : Bool)
  | integer (n : Int)
  | floating (x : Floating)
  /-- A date or a time. -/
  | date
  | text (t : Text)
  | list (items : List Document)
  /-- A map with its entries in document order. -/
  | map (entries : List (Document × Document))
  deriving Inhabited

namespace Document

mutual

/-- How many lists and maps are nested in each other at most. -/
def height : Document → Nat
  | list items => heights items + 1
  | map entries => entryHeights entries + 1
  | null | truth _ | integer _ | floating _ | date | text _ => 0

/-- The greatest height of several documents. -/
def heights : List Document → Nat
  | [] => 0
  | d :: ds => max d.height (heights ds)

/-- The greatest height of the values of several entries. -/
def entryHeights : List (Document × Document) → Nat
  | [] => 0
  | (_, d) :: entries => max d.height (entryHeights entries)

end

end Document

end ControlLanguage
