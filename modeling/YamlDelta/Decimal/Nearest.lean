/-
The binary number nearest to a decimal.

A decimal is a sign, a natural number of digits and a power of ten, so its value is a
fraction of natural numbers.  Measured in units of 2^-1074 and divided by the spacing
of the numbers around it, it lies between two whole multiples, and rounding picks the
nearer one, the even one when both are equally near.  The code of the result is the
multiple plus 2^52 for every doubling of the spacing: a multiple that rounds up to
2^53 carries into the exponent by itself, and so does the step from the subnormal
numbers to the normal ones.
-/
import YamlDelta.Decimal.Binary64

namespace YamlDelta

/-- The number `±digits · 10^exponent`. -/
structure Decimal where
  negative : Bool
  digits : Nat
  exponent : Int
deriving Repr, DecidableEq

namespace Decimal

/-- The natural number nearest to `num / den`, the even one of two equally near. -/
def roundHalfEven (num den : Nat) : Nat :=
  let q := num / den
  let r := num % den
  if 2 * r < den then q
  else if den < 2 * r then q + 1
  else q + q % 2

/-- The code of the number nearest to `num / den`; too large a number becomes infinity. -/
def nearestCode (num den : Nat) : Nat :=
  let scaled := num <<< 1074
  let doublings := (scaled / den).log2 - 52
  let code := doublings * Binary64.exponentBit + roundHalfEven scaled (den <<< doublings)
  min code Binary64.infinityCode

/-- The number of decimal digits of `n`, 1 for zero. -/
def digitCount (n : Nat) : Nat :=
  (Nat.toDigits 10 n).length

/-- The code of the magnitude of a decimal.  Beyond 10^310 everything is infinite and below
10^-330 everything is zero, whatever the digits; in between the fraction is formed. -/
def magnitudeCode (d : Decimal) : Nat :=
  if d.digits = 0 then 0
  else
    let top := d.exponent + digitCount d.digits
    if 310 < top then Binary64.infinityCode
    else if top < -330 then 0
    else match d.exponent with
      | .ofNat k => nearestCode (d.digits * Nat.pow 10 k) 1
      | .negSucc k => nearestCode d.digits (Nat.pow 10 (k + 1))

/-- The binary number nearest to a decimal, ties to the even one; zero keeps its sign. -/
def toBinary64 (d : Decimal) : Binary64 :=
  .ofCode d.negative d.magnitudeCode

end Decimal

end YamlDelta
