/-
Which value a plain scalar stands for.

An unquoted scalar is read by the core schema.  A fixed list of spellings gives null,
the booleans, NaN and the infinities.  Digits with an optional sign are an integer, and
so are hexadecimal digits after `0x` and octal digits after `0o`, which take no sign.
A decimal integer too large for 64 bits keeps its magnitude as a float; a hexadecimal
or octal one too large stays text.  What matches the grammar of a decimal fraction is a
float, and everything else is a string.

The grammar of numbers is given by `decimal?`, which returns the decimal it has read, so
that accepting a text and evaluating it cannot disagree.
-/
import YamlDelta.Node.Scalar
import YamlDelta.Text.Digit

namespace YamlDelta

open Text

/-! ### Signs -/

/-- Take a sign off the front; true stands for minus. -/
def splitSign : List Char → Bool × List Char
  | '-' :: cs => (true, cs)
  | '+' :: cs => (false, cs)
  | cs => (false, cs)

/-- The number with a sign. -/
def signed (negative : Bool) (n : Nat) : Int :=
  if negative then -n else n

namespace Decimal

/-- Split at the first character of a class, which is dropped; `none` if there is none. -/
def splitFirst (p : Char → Bool) (cs : List Char) : List Char × Option (List Char) :=
  match cs.span (!p ·) with
  | (before, []) => (before, none)
  | (before, _ :: after) => (before, some after)

/-- The digits of a mantissa and the number of them after the point. -/
def mantissa? (cs : List Char) : Option (List Char × Nat) :=
  let (whole, fraction) := splitFirst (· == '.') cs
  let fraction := fraction.getD []
  if isRun Char.isDigit (whole ++ fraction) then some (whole ++ fraction, fraction.length) else none

/-- The exponent, if it is well formed; a missing one is zero. -/
def exponent? : Option (List Char) → Option Int
  | none => some 0
  | some cs =>
    let (negative, digits) := splitSign cs
    if isRun Char.isDigit digits then some (signed negative (ofDigits 10 digits)) else none

/-- Read a decimal: an optional sign, digits with an optional point among or around them, and an
optional exponent. -/
def ofText? (cs : List Char) : Option Decimal := do
  let (negative, body) := splitSign cs
  let (m, e) := splitFirst (fun c => c == 'e' || c == 'E') body
  let (digits, places) ← mantissa? m
  let exponent ← exponent? e
  some ⟨negative, ofDigits 10 digits, exponent - places⟩

end Decimal

/-! ### Scalars -/

namespace Scalar

def nullSpellings : List String := ["", "~", "null", "Null", "NULL"]

def trueSpellings : List String := ["true", "True", "TRUE"]

def falseSpellings : List String := ["false", "False", "FALSE"]

def nanSpellings : List String := [".nan", ".NaN", ".NAN"]

def infinitySpellings : List String := [".inf", ".Inf", ".INF", "+.inf", "+.Inf", "+.INF"]

def minusInfinitySpellings : List String := ["-.inf", "-.Inf", "-.INF"]

/-- The scalars that have spellings of their own. -/
def named? (s : String) : Option Scalar :=
  if s ∈ nullSpellings then some .null
  else if s ∈ trueSpellings then some (.bool true)
  else if s ∈ falseSpellings then some (.bool false)
  else if s ∈ nanSpellings then some (.float .nan)
  else if s ∈ infinitySpellings then some (.float (.infinity false))
  else if s ∈ minusInfinitySpellings then some (.float (.infinity true))
  else none

/-- The integers that fit 64 bits. -/
def inRange (n : Int) : Bool :=
  -9223372036854775808 ≤ n && n ≤ 9223372036854775807

/-- The integer in some base, if it fits. -/
def ofBase? (isDigit : Char → Bool) (base : Nat) (cs : List Char) : Option Scalar :=
  if isRun isDigit cs && inRange (ofDigits base cs) then
    some (.integer (Int64.ofInt (ofDigits base cs)))
  else none

/-- Digits with an optional sign: an integer if it fits, else the float nearest to it. -/
def ofWhole? (cs : List Char) : Option Scalar :=
  let (negative, digits) := splitSign cs
  if isRun Char.isDigit digits then
    let n := ofDigits 10 digits
    if inRange (signed negative n) then some (.integer (Int64.ofInt (signed negative n)))
    else some (.float (Decimal.toBinary64 ⟨negative, n, 0⟩))
  else none

/-- The numbers of the core schema. -/
def number? (cs : List Char) : Option Scalar :=
  match cs with
  | '0' :: 'x' :: ds => ofBase? isHexDigit 16 ds
  | '0' :: 'o' :: ds => ofBase? isOctalDigit 8 ds
  | _ => ofWhole? cs <|> (Decimal.ofText? cs).map (.float ·.toBinary64)

/-- The value of a plain scalar. -/
def ofPlain (s : String) : Scalar :=
  (named? s <|> number? s.toList).getD (.string s)

end Scalar

end YamlDelta
