import ControlLanguage.Document.Basic

/-!
# Rounding decimal numbers

A number with a decimal point is rounded to 53 binary digits, to the nearest such number and to the
even one of two, before it is asked whether it is whole. **The rounding is exact**: the decimal is
a quotient of natural numbers, which is scaled by a power of two and divided.
-/

namespace ControlLanguage

namespace Floating

/-- The quotient rounded to the nearest natural number, to the even one of two. -/
def roundedQuotient (p q : Nat) : Nat :=
  let n := p / q
  let r := p % q
  if 2 * r < q then n else if q < 2 * r then n + 1 else n + n % 2

/-- The quotient of `p` and `q` divided by `2 ^ k` and rounded. -/
def scaled (p q : Nat) (k : Int) : Nat :=
  if 0 ≤ k then roundedQuotient p (q * Nat.pow 2 k.toNat)
  else roundedQuotient (p * Nat.pow 2 (-k).toNat) q

/-- The exponent of the last of the 53 digits of the quotient of `p` and `q`. -/
def lastPlace (p q : Nat) : Int :=
  let k : Int := (p.log2 : Int) - q.log2 - 52
  let k := if scaled p q k < Nat.pow 2 52 then k - 1 else k
  max k (-1074)

/-- The number `n * 2 ^ k`, with a sign. -/
def ofBinary (negative : Bool) (n : Nat) (k : Int) : Floating :=
  let signed (m : Nat) : Int := if negative then -(m : Int) else m
  if 0 ≤ k then
    let m := n * Nat.pow 2 k.toNat
    if Nat.pow 2 1024 ≤ m then .notFinite else .whole (signed m)
  else
    let unit := Nat.pow 2 (-k).toNat
    if n % unit = 0 then .whole (signed (n / unit)) else .fractional

/-- The quotient of `p` and `q`, rounded. -/
def ofQuotient (negative : Bool) (p q : Nat) : Floating :=
  if p = 0 then .whole 0 else ofBinary negative (scaled p q (lastPlace p q)) (lastPlace p q)

/-- The number with the given decimal digits, multiplied by a power of ten. Numbers that are too
great or too small by far are not computed. -/
def ofDecimal (negative : Bool) (digits : Nat) (exponent : Int) : Floating :=
  let magnitude : Int := (Nat.toDigits 10 digits).length + exponent
  if digits = 0 || magnitude < -330 then .whole 0
  else if 310 < magnitude then .notFinite
  else if 0 ≤ exponent then ofQuotient negative (digits * Nat.pow 10 exponent.toNat) 1
  else ofQuotient negative digits (Nat.pow 10 (-exponent).toNat)

end Floating

end ControlLanguage
