/-
Binary floating-point numbers of 64 bits, as bits.

The sign aside, the bits of a number are a natural number, its *code*, and codes are
ordered like the numbers they stand for: 0 for zero, `infinityCode` for infinity, NaNs
above that.  Every finite number is a whole multiple of the smallest positive one,
2^-1074, and `units` says which multiple a code stands for.  So the value of a finite
number is a natural number, and nothing in this library computes with anything else.
-/

namespace YamlDelta

/-- A 64-bit binary floating-point number. -/
structure Binary64 where
  bits : UInt64
deriving Repr, DecidableEq

namespace Binary64

/-- The sign bit, 2^63; codes are below it. -/
def signBit : Nat := 0x8000000000000000

/-- The lowest exponent bit, 2^52: so many codes share one exponent. -/
def exponentBit : Nat := 0x10000000000000

/-- The code of infinity: all exponent bits set, no fraction. -/
def infinityCode : Nat := 2047 * exponentBit

/-- The number with the given sign and code. -/
def ofCode (negative : Bool) (code : Nat) : Binary64 :=
  ⟨UInt64.ofNat (code % signBit + if negative then signBit else 0)⟩

/-- The bits without the sign. -/
def code (x : Binary64) : Nat :=
  x.bits.toNat % signBit

/-- The sign bit is set. -/
def isNegative (x : Binary64) : Bool :=
  decide (signBit ≤ x.bits.toNat)

def isNaN (x : Binary64) : Bool :=
  decide (infinityCode < x.code)

def isInfinite (x : Binary64) : Bool :=
  decide (x.code = infinityCode)

/-- Zero of either sign. -/
def isZero (x : Binary64) : Bool :=
  decide (x.code = 0)

/-- A number that is not one: quiet, with no payload. -/
def nan : Binary64 := ofCode false (infinityCode + exponentBit / 2)

/-- Infinity of the given sign. -/
def infinity (negative : Bool) : Binary64 := ofCode negative infinityCode

/-! ### The value of a code -/

/-- How many doublings lie between the spacing of numbers around this code and the smallest
spacing. -/
def scale (code : Nat) : Nat :=
  code / exponentBit - 1

/-- The finite number with this code, in units of 2^-1074. -/
def units (code : Nat) : Nat :=
  if code < exponentBit then code else (exponentBit + code % exponentBit) <<< scale code

/-! ### Two notions of equality -/

/-- Equality of numbers: both zeros are equal, and a NaN equals nothing. -/
def equal (x y : Binary64) : Bool :=
  !x.isNaN && !y.isNaN && (decide (x = y) || x.isZero && y.isZero)

/-- Equality of contents: as `equal`, and one NaN is as good as another. -/
def same (x y : Binary64) : Bool :=
  x.equal y || x.isNaN && y.isNaN

theorem equal_comm (x y : Binary64) : x.equal y = y.equal x := by
  simp only [equal, Bool.and_comm (!x.isNaN), Bool.and_comm x.isZero, eq_comm (a := x)]

theorem same_comm (x y : Binary64) : x.same y = y.same x := by
  simp only [same, equal_comm x, Bool.and_comm x.isNaN]

theorem same_refl (x : Binary64) : x.same x = true := by
  cases h : x.isNaN <;> simp [same, equal, h]

theorem same_trans {x y z : Binary64} (h₁ : x.same y = true) (h₂ : y.same z = true) :
    x.same z = true := by
  simp only [same, equal, Bool.or_eq_true, Bool.and_eq_true, Bool.not_eq_true',
    decide_eq_true_eq] at *
  rcases h₁ with ⟨⟨hx, hy⟩, h₁⟩ | ⟨hx, hy⟩
  · rcases h₂ with ⟨⟨_, hz⟩, h₂⟩ | ⟨hy', _⟩
    · refine .inl ⟨⟨hx, hz⟩, ?_⟩
      rcases h₁ with rfl | ⟨zx, zy⟩
      · exact h₂
      · rcases h₂ with rfl | ⟨_, zz⟩
        · exact .inr ⟨zx, zy⟩
        · exact .inr ⟨zx, zz⟩
    · simp [hy] at hy'
  · rcases h₂ with ⟨⟨hy', _⟩, _⟩ | ⟨_, hz⟩
    · simp [hy] at hy'
    · exact .inr ⟨hx, hz⟩

end Binary64

end YamlDelta
