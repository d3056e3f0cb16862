import ControlLanguage.Document.Floating
import ControlLanguage.Text.Pattern

/-!
# What a plain scalar means

A scalar without quotes is a truth value, a number, a date or nothing if it has the form of one,
and otherwise it is text. **The forms are tried in a fixed order**, since a number in base sixty
with a fraction has the form of two of them.

Two forms have a meaning as keys only: `<<` merges the entries of other maps, and `=` is text.
-/

namespace ControlLanguage

namespace Yaml

/-- A node of a document, or a scalar with a meaning of its own as a key. -/
inductive Node where
  | document (d : Document)
  | mergeKey
  | valueKey
  deriving Inhabited

namespace Plain

/-- The words for true. -/
def trueWords : List Text :=
  ["yes", "Yes", "YES", "true", "True", "TRUE", "on", "On", "ON"].map String.toList

/-- The words for false. -/
def falseWords : List Text :=
  ["no", "No", "NO", "false", "False", "FALSE", "off", "Off", "OFF"].map String.toList

/-- The words for nothing. -/
def nullWords : List Text :=
  ["~", "null", "Null", "NULL", ""].map String.toList

/-- A decimal digit. -/
def digit : Pattern :=
  .char Char.isDigit

/-- A decimal digit or an underscore. -/
def digitOrBar : Pattern :=
  .char fun c ↦ c.isDigit || c = '_'

/-- An optional sign. -/
def sign : Pattern :=
  .opt (.oneOf "-+")

/-- The places after the first of a number in base sixty. -/
def sixties : Pattern :=
  .plus (.all [.text ":", .opt (.oneOf "012345"), digit])

/-- The exponent of a floating-point number, which needs a sign. -/
def exponent : Pattern :=
  .opt (.all [.oneOf "eE", .oneOf "-+", .plus digit])

/-- Floating-point numbers with digits. -/
def floatingForm : Pattern :=
  .any [
    .all [sign, digit, .star digitOrBar, .text ".", .star digitOrBar, exponent],
    .all [.text ".", digit, .star digitOrBar, exponent],
    .all [sign, digit, .star digitOrBar, sixties, .text ".", .star digitOrBar]]

/-- The words for numbers that are not finite. -/
def notFiniteForm : Pattern :=
  .alt (.all [sign, .any [.text ".inf", .text ".Inf", .text ".INF"]])
    (.any [.text ".nan", .text ".NaN", .text ".NAN"])

/-- A decimal number without a zero in front. -/
def decimalForm : Pattern :=
  .seq (.oneOf "123456789") (.star digitOrBar)

/-- Integers in bases two, eight, ten, sixteen and sixty. -/
def integerForm : Pattern :=
  .seq sign (.any [
    .seq (.text "0b") (.plus (.oneOf "01_")),
    .seq (.text "0") (.plus (.oneOf "01234567_")),
    .text "0",
    decimalForm,
    .seq (.text "0x") (.plus (.oneOf "0123456789abcdefABCDEF_")),
    .seq decimalForm sixties])

/-- One or two digits. -/
def digits12 : Pattern :=
  .seq digit (.opt digit)

/-- Two digits. -/
def digits2 : Pattern :=
  .seq digit digit

/-- Four digits. -/
def digits4 : Pattern :=
  .seq digits2 digits2

/-- Dates, and times on a date. -/
def dateForm : Pattern :=
  .alt (.all [digits4, .text "-", digits2, .text "-", digits2])
    (.all [digits4, .text "-", digits12, .text "-", digits12,
      .alt (.oneOf "Tt") (.plus (.oneOf " \t")),
      digits12, .text ":", digits2, .text ":", digits2,
      .opt (.seq (.text ".") (.star digit)),
      .opt (.seq (.star (.oneOf " \t")) (.alt (.text "Z")
        (.all [.oneOf "-+", digits12, .opt (.seq (.text ":") digits2)])))])

/-- Splits off the sign of a number. -/
def unsigned : Text → Bool × Text
  | '-' :: t => (true, t)
  | '+' :: t => (false, t)
  | t => (false, t)

/-- The value of a digit in a base up to sixteen. -/
def digitValue (c : Char) : Nat :=
  if c.isDigit then c.toNat - 48 else c.toLower.toNat - 87

/-- The natural number that digits spell in a base. -/
def inBase (base : Nat) (digits : Text) : Nat :=
  digits.foldl (fun n c ↦ base * n + digitValue c) 0

/-- The number whose places in base sixty are decimal numbers. -/
def inSixties (places : List Text) : Nat :=
  places.foldl (fun n p ↦ 60 * n + inBase 10 p) 0

/-- The integer of an unsigned text of integer form without underscores. -/
def magnitude : Text → Nat
  | '0' :: 'b' :: t => inBase 2 t
  | '0' :: 'x' :: t => inBase 16 t
  | '0' :: t => inBase 8 t
  | t => inSixties (Text.cutAt ':' t)

/-- The integer of a text of integer form. -/
def integer (t : Text) : Int :=
  let (negative, t) := unsigned (t.filter (· ≠ '_'))
  if negative then -(magnitude t : Int) else magnitude t

/-- The number of a text of floating-point form. The digits after the point lower the exponent,
and in base sixty the last place takes them. -/
def floating (t : Text) : Floating :=
  let (negative, t) := unsigned (t.filter (· ≠ '_'))
  let number := t.takeWhile fun c ↦ c ≠ 'e' && c ≠ 'E'
  let (lower, power) := unsigned ((t.dropWhile fun c ↦ c ≠ 'e' && c ≠ 'E').drop 1)
  let whole := number.takeWhile (· ≠ '.')
  let fraction := (number.dropWhile (· ≠ '.')).drop 1
  let digits := inSixties (Text.cutAt ':' whole) * Nat.pow 10 fraction.length + inBase 10 fraction
  let power : Int := if lower then -(inBase 10 power : Int) else inBase 10 power
  .ofDecimal negative digits (power - fraction.length)

/-- What a plain scalar means. -/
def meaning (t : Text) : Node :=
  if trueWords.contains t then .document (.truth true)
  else if falseWords.contains t then .document (.truth false)
  else if floatingForm.isMatch t then .document (.floating (floating t))
  else if notFiniteForm.isMatch t then .document (.floating .notFinite)
  else if integerForm.isMatch t then .document (.integer (integer t))
  else if t = ['<', '<'] then .mergeKey
  else if nullWords.contains t then .document .null
  else if dateForm.isMatch t then .document .date
  else if t = ['='] then .valueKey
  else .document (.text t)

end Plain

end Yaml

end ControlLanguage
