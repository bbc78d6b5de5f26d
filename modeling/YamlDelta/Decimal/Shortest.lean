/-
The shortest decimal that reads back as a given binary number.

The decimals that round to a number fill the interval halfway to its two neighbours,
ends included exactly when the number's multiple of its spacing is even.  For one
digit, two digits and so on, the grid of decimals with that many digits has two points
next to the number, one on either side; the first grid with one of them inside the
interval gives the answer, for if any point of a grid is inside, one of these two is.
With both inside the nearer one is taken, and a tie goes as the format says.

Seventeen digits always suffice, so the search stops there.
-/
import YamlDelta.Decimal.Nearest

namespace YamlDelta.Decimal

/-- Which of two equally near decimals of the same length is written. -/
inductive Tie where
  /-- The larger magnitude. -/
  | up
  /-- The one whose last digit is even. -/
  | toEven
deriving Repr, DecidableEq

/-- The interval of magnitudes that round to one number, over the common denominator
`Interval.unit`. -/
structure Interval where
  low : Nat
  mid : Nat
  high : Nat
  closed : Bool
deriving Repr, DecidableEq

/-- Interval ends are counted in quarters of 2^-1074. -/
def Interval.unit : Nat := 1 <<< 1076

/-- The interval of a positive finite number.  Below a power of two the spacing halves. -/
def Interval.ofCode (code : Nat) : Interval :=
  let mid := 4 * Binary64.units code
  let gap := 1 <<< Binary64.scale code
  let below :=
    if code % Binary64.exponentBit = 0 ∧ 2 * Binary64.exponentBit ≤ code then gap else 2 * gap
  { low := mid - below, mid, high := mid + 2 * gap, closed := code % 2 == 0 }

/-- `num / den` divided by `10^e`, as a fraction. -/
def overPower (num den : Nat) : Int → Nat × Nat
  | .ofNat k => (num, den * Nat.pow 10 k)
  | .negSucc k => (num * Nat.pow 10 (k + 1), den)

namespace Interval

/-- The point `n · 10^e` lies inside. -/
def contains (i : Interval) (n : Nat) (e : Int) : Bool :=
  let (lowNum, lowDen) := overPower i.low unit e
  let (highNum, highDen) := overPower i.high unit e
  if i.closed then decide (lowNum ≤ n * lowDen ∧ n * highDen ≤ highNum)
  else decide (lowNum < n * lowDen ∧ n * highDen < highNum)

/-- The point of the grid of multiples of `10^e` that the format writes, if one lies inside. -/
def pick (tie : Tie) (i : Interval) (e : Int) : Option Nat :=
  let (num, den) := overPower i.mid unit e
  let n := num / den
  let twice := 2 * (num % den)
  match i.contains n e, i.contains (n + 1) e with
  | false, false => none
  | true, false => some n
  | false, true => some (n + 1)
  | true, true =>
    if twice < den then some n
    else if den < twice then some (n + 1)
    else match tie with
      | .up => some (n + 1)
      | .toEven => some (n + n % 2)

end Interval

/-- For `0 < num < den`, the number of zeros after the decimal point of `num / den`. -/
def leadingZeros (den : Nat) : Nat → Nat → Nat
  | 0, _ => 0
  | fuel + 1, num => if den ≤ num * 10 then 0 else leadingZeros den fuel (num * 10) + 1

/-- The exponent of the first significant digit of `num / den`, for positive `num`. -/
def leadingExponent (num den : Nat) : Int :=
  if den ≤ num then (digitCount (num / den) : Int) - 1
  else -(leadingZeros den 400 num : Int) - 1

/-- Drop the zeros at the end of the digits. -/
def trimZeros : Nat → Nat → Int → Nat × Int
  | 0, n, e => (n, e)
  | fuel + 1, n, e => if n % 10 = 0 ∧ n ≠ 0 then trimZeros fuel (n / 10) (e + 1) else (n, e)

/-- Try grids with `count` digits and more, at most `fuel` of them. -/
def searchGrids (tie : Tie) (i : Interval) (top : Int) : Nat → Nat → Nat × Int
  | 0, _ => (0, 0)
  | fuel + 1, count =>
    let e := top - count + 1
    match i.pick tie e with
    | some n => trimZeros 20 n e
    | none => searchGrids tie i top fuel (count + 1)

/-- Digits and exponent of the shortest decimal for a positive finite number. -/
def shortest (tie : Tie) (code : Nat) : Nat × Int :=
  let i := Interval.ofCode code
  searchGrids tie i (leadingExponent i.mid Interval.unit) 17 1

end YamlDelta.Decimal
