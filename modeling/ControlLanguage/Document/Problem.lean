import ControlLanguage.Text.Basic

/-!
# What can be wrong with a document

A reader reports **every problem of a document at once**, each with the path to the place where it
is: the keys as the document spells them, and the positions in lists. The report is ordered by
path and then by kind of problem, so it does not depend on the order in which a reader looks at
the document.
-/

namespace ControlLanguage

/-- A problem at one place of a document. -/
inductive Problem where
  | unknownKey
  | keyNotText
  | missing
  /-- Something else stands where the fields of `model` are due. -/
  | notRecord (model : String)
  | notText
  /-- No list stands where a fixed sequence is due. -/
  | notSequence
  | notList
  | notInteger
  | notIntegerText
  | fractional
  | notFinite
  | outOfRange
  | below (bound : Nat)
  | notChoice (first second : String)
  /-- The values are fine one by one, but not together. -/
  | inconsistent (reason : String)

namespace Problem

/-- The name of the kind of problem. -/
def code : Problem → String
  | unknownKey => "extra_forbidden"
  | keyNotText => "invalid_key"
  | missing => "missing"
  | notRecord _ => "model_type"
  | notText => "string_type"
  | notSequence => "tuple_type"
  | notList => "list_type"
  | notInteger => "int_type"
  | notIntegerText => "int_parsing"
  | fractional => "int_from_float"
  | notFinite => "finite_number"
  | outOfRange => "int_parsing_size"
  | below _ => "greater_than_equal"
  | notChoice _ _ => "literal_error"
  | inconsistent _ => "value_error"

/-- The text of the problem. -/
def message : Problem → String
  | unknownKey => "Extra inputs are not permitted"
  | keyNotText => "Keys should be strings"
  | missing => "Field required"
  | notRecord model => "Input should be a valid dictionary or instance of " ++ model
  | notText => "Input should be a valid string"
  | notSequence => "Input should be a valid tuple"
  | notList => "Input should be a valid list"
  | notInteger => "Input should be a valid integer"
  | notIntegerText => "Input should be a valid integer, unable to parse string as an integer"
  | fractional => "Input should be a valid integer, got a number with a fractional part"
  | notFinite => "Input should be a finite number"
  | outOfRange => "Unable to parse input string as an integer, exceeded maximum size"
  | below bound => "Input should be greater than or equal to " ++ toString bound
  | notChoice first second => "Input should be '" ++ first ++ "' or '" ++ second ++ "'"
  | inconsistent reason => "Value error, " ++ reason

end Problem

/-- A problem and the path to its place. -/
structure Located where
  path : List Text
  problem : Problem

namespace Located

/-- Puts a step in front of the path. -/
def under (step : Text) (l : Located) : Located :=
  ⟨step :: l.path, l.problem⟩

/-- The order of a report: by path, then by kind of problem. -/
def le (a b : Located) : Bool :=
  decide (a.path < b.path) || a.path = b.path && decide (a.problem.code ≤ b.problem.code)

/-- The problems in the order of a report. -/
def sorted (ls : List Located) : List Located :=
  ls.mergeSort le

end Located

end ControlLanguage
