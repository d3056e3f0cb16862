/-!
# Ranges of code points

Character classes are tables of closed ranges. A class is the list of its ranges in order, and a
character belongs to the class when one of them contains it.
-/

namespace ControlLanguage

/-- The code points from `first` to `last`, both included. -/
structure CodeRange where
  first : Nat
  last : Nat

namespace CodeRange

/-- Whether the range has the code point of a character. -/
def contains (r : CodeRange) (c : Char) : Bool :=
  r.first ≤ c.toNat && c.toNat ≤ r.last

end CodeRange

end ControlLanguage
