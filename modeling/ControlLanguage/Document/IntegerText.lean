import ControlLanguage.Text.WhiteSpace

/-!
# Integers written as text

An integer may be given as text: a sign and a natural number, with spaces around them. The number
may have zeros in front, single underscores between its digits, and a fraction as long as that
consists of zeros. **What does not count is taken away first, and what is left has to be digits**:
a point without a zero after it is still there, and so is an underscore at the end.

Zeros may stand in front of a minus sign too, so that `0-80` is -80, but a number has one minus sign
at most.
-/

namespace ControlLanguage

/-- A number in plain digits with its sign. -/
structure IntegerText where
  isNegative : Bool
  /-- Decimal digits without a needless zero in front, at least one. -/
  digits : Text
  deriving DecidableEq, Repr

namespace IntegerText

/-! ### What does not count -/

/-- The spaces around a number; unlike other white space these leave out the information
separators. -/
def isSpace (c : Char) : Bool :=
  isWhiteSpace c && !(28 ≤ c.toNat && c.toNat ≤ 31)

/-- Drops the spaces at both ends. -/
def stripped (t : Text) : Text :=
  Text.dropEndWhile isSpace (t.dropWhile isSpace)

/-- What is left of a number that begins with a zero, `last` being the character before `t`: the
digits from the first other than zero on, or a minus sign and what follows it. One zero is kept
where neither comes. -/
def afterZeros (last : Char) : Text → Option Text
  | [] => some [last]
  | c :: t =>
    if c = '0' || c = '_' then afterZeros c t
    else if c.isDigit || c = '-' then some (c :: t)
    else if c = '.' then some (last :: c :: t)
    else none

/-- Drops the zeros in front of a number, which has to begin with a digit. -/
def withoutLeadingZeros : Text → Option Text
  | [] => none
  | c :: t => if c = '0' then afterZeros c t else if c.isDigit then some (c :: t) else none

/-- Drops a point with zeros only after it, at least one. -/
def withoutZeroFraction (t : Text) : Text :=
  match t.dropWhile (· ≠ '.') with
  | '.' :: fraction =>
    if !fraction.isEmpty && fraction.all (· = '0') then t.takeWhile (· ≠ '.') else t
  | _ => t

/-- Drops the underscores, provided that each one has a character other than an underscore on
both sides. -/
def withoutUnderscores (t : Text) : Text :=
  if t.head? = some '_' || t.getLast? = some '_' || Text.includes ['_', '_'] t then t
  else t.filter (· ≠ '_')

/-! ### What is left -/

/-- Whether a text is made of digits without a needless zero in front. -/
def isPlain : Text → Bool
  | [] => false
  | c :: t => (c :: t).all Char.isDigit && (c ≠ '0' || t.isEmpty)

/-- A number in plain digits, perhaps after a minus sign. -/
def plain? : Text → Option IntegerText
  | '-' :: t => if isPlain t then some ⟨true, t⟩ else none
  | t => if isPlain t then some ⟨false, t⟩ else none

/-- The number that a text stands for which begins with a digit. -/
def fromDigit? (t : Text) : Option IntegerText :=
  (withoutLeadingZeros t).bind fun t ↦ plain? (withoutUnderscores (withoutZeroFraction t))

/-- The negative of a number that is not negative yet. -/
def negated? (x : IntegerText) : Option IntegerText :=
  if x.isNegative then none else some ⟨true, x.digits⟩

/-- The number that a text stands for, if any. -/
def ofText? (t : Text) : Option IntegerText :=
  match stripped t with
  | '-' :: t => (fromDigit? t).bind negated?
  | '+' :: t => fromDigit? t
  | t => fromDigit? t

/-- The length of the number, its minus sign included. -/
def length (x : IntegerText) : Nat :=
  x.digits.length + if x.isNegative then 1 else 0

/-- The natural number that decimal digits spell. -/
def decimal (digits : Text) : Nat :=
  digits.foldl (fun n c ↦ 10 * n + (c.toNat - '0'.toNat)) 0

/-- The value of the number. -/
def value (x : IntegerText) : Int :=
  if x.isNegative then -(decimal x.digits : Int) else decimal x.digits

end IntegerText

end ControlLanguage
