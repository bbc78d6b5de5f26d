/-
How a number is laid out once its digits are chosen.

A style says for which exponents a number is written out in positional form, whether
a positive exponent carries a sign, and which way a tie between two shortest decimals
goes.  Positional numbers always show a fraction, if only `.0`, so that a reader can
tell them from whole numbers.
-/
import YamlDelta.Decimal.Shortest

namespace YamlDelta.Decimal

/-- The choices of a number format. -/
structure Style where
  /-- The least exponent of the first digit that is written positionally. -/
  positionalFrom : Int
  /-- The first exponent that no longer is. -/
  positionalBelow : Int
  /-- Whether a positive exponent is written with its sign. -/
  plusSign : Bool
  /-- How a tie between shortest decimals is settled. -/
  tie : Tie

/-- Positional form: a point after the units, and at least one digit on either side of it. -/
def positional (digits : List Char) (exponent : Int) : List Char :=
  match exponent with
  | .ofNat k => digits ++ List.replicate k '0' ++ ['.', '0']
  | .negSucc k =>
    let places := k + 1
    if places < digits.length then
      digits.take (digits.length - places) ++ '.' :: digits.drop (digits.length - places)
    else
      '0' :: '.' :: List.replicate (places - digits.length) '0' ++ digits

/-- Scientific form: a point after the first digit if more follow, and the exponent. -/
def scientific (plusSign : Bool) (digits : List Char) (top : Int) : List Char :=
  let mantissa := match digits with
    | [] => []
    | [d] => [d]
    | d :: ds => d :: '.' :: ds
  let sign := if top < 0 then ['-'] else if plusSign then ['+'] else []
  mantissa ++ 'e' :: sign ++ Nat.toDigits 10 top.natAbs

/-- The text of a finite number in a style. -/
def Style.text (style : Style) (x : Binary64) : String :=
  let sign := if x.isNegative then ['-'] else []
  if x.isZero then String.ofList (sign ++ ['0', '.', '0'])
  else
    let (n, exponent) := shortest style.tie x.code
    let digits := Nat.toDigits 10 n
    let top := exponent + digits.length - 1
    let body :=
      if style.positionalFrom ≤ top ∧ top < style.positionalBelow then positional digits exponent
      else scientific style.plusSign digits top
    String.ofList (sign ++ body)

end YamlDelta.Decimal
