/-
Scalar values: what a leaf of a document holds.

A scalar has a content, which is what comparison looks at, and a canonical text, which
is how it is written when no source text says otherwise.  Text content is the same
whether it came from a string or from a block; floats agree as numbers, with NaN equal
to itself so that a document never differs from its own copy.
-/
import YamlDelta.Decimal.Style
import YamlDelta.Node.Kind

namespace YamlDelta

/-- The value of a leaf. -/
inductive Scalar where
  | string (s : String)
  | literal (s : String)
  | integer (i : Int64)
  | float (x : Binary64)
  | bool (b : Bool)
  | null
deriving DecidableEq

namespace Scalar

def kind : Scalar → Kind
  | string _ => .string
  | literal _ => .literal
  | integer _ => .integer
  | float _ => .float
  | bool _ => .bool
  | null => .null

/-- Numbers are positional from 0.0001 up to 10^16 and scientific beyond, `1e16` and `1e-5`;
of two shortest decimals equally near, the larger is written. -/
def numberStyle : Decimal.Style :=
  { positionalFrom := -4, positionalBelow := 16, plusSign := false, tie := .up }

/-- The text of a float as a document spells it. -/
def floatText (x : Binary64) : String :=
  if x.isNaN then ".nan"
  else if x.isInfinite then (if x.isNegative then "-.inf" else ".inf")
  else numberStyle.text x

/-- The canonical text of a scalar. -/
def canonicalText : Scalar → String
  | string s | literal s => s
  | integer i => toString i.toInt
  | float x => floatText x
  | bool b => if b then "true" else "false"
  | null => "null"

/-! ### Content -/

/-- The text of a string or a block. -/
def text? : Scalar → Option String
  | string s | literal s => some s
  | _ => none

/-- The number of a float. -/
def float? : Scalar → Option Binary64
  | float x => some x
  | _ => none

/-- The two scalars are compatible and hold the same content. -/
def sameContent (a b : Scalar) : Bool :=
  match a with
  | string s | literal s => decide (b.text? = some s)
  | float x => b.float?.any x.same
  | integer _ | bool _ | null => decide (a = b)

/-- The two scalars are written the same way and equal as values, where NaN equals nothing. -/
def identical (a b : Scalar) : Bool :=
  match a with
  | float x => b.float?.any x.equal
  | _ => decide (a = b)

theorem sameContent_refl (a : Scalar) : a.sameContent a = true := by
  cases a <;> simp [sameContent, text?, float?, Binary64.same_refl]

theorem sameContent_comm (a b : Scalar) : a.sameContent b = b.sameContent a := by
  cases a <;> cases b <;>
    simp [sameContent, text?, float?, Binary64.same_comm, eq_comm]

/-- Equal content implies compatible kinds. -/
theorem compatible_of_sameContent {a b : Scalar} (h : a.sameContent b = true) :
    a.kind.compatible b.kind = true := by
  cases a <;> cases b <;> first | rfl | simp [sameContent, text?, float?] at h

end Scalar

end YamlDelta
