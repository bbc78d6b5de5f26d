/-
The canonical text of a scalar resolves to it.

A node that is made from a value gets a text of its own, and a plain scalar with that text
is read as the value again.  For null, the booleans, NaN and the infinities both sides are
a name from the list, for the rest a numeral: an integer is written with its digits, a
float with a point or an exponent, so neither is taken for the other, and the float nearest
to what is written is the one that wrote it.  A NaN becomes the NaN that the name stands
for.
-/
import YamlDelta.Node.Basic
import YamlDelta.Proofs.Decimal.Style
import YamlDelta.Proofs.Node.Resolution

namespace YamlDelta.Scalar

open Numeral

variable {s : String} {v : Scalar}

theorem ofPlain_of_name (h : (s, v) ∈ names) : ofPlain s = v :=
  ofPlain_iff.mpr (.inl h)

theorem ofPlain_of_denotes (h : Denotes s.toList v) : ofPlain s = v :=
  ofPlain_iff.mpr (.inr (.inl h))

/-- An integer is written with its digits, after a minus if it is negative. -/
theorem toList_toString (z : ℤ) :
    (toString z).toList =
      (if z < 0 then ['-'] else if false then ['+'] else []) ++ Nat.toDigits 10 z.natAbs := by
  have hrepr : ∀ n : ℕ, (toString n).toList = Nat.toDigits 10 n := by
    intro n
    rw [Nat.toString_eq_repr, Nat.repr_eq_ofList_toDigits, String.toList_ofList]
  cases z with
  | ofNat n =>
      have hnonneg : ¬Int.ofNat n < 0 := Int.not_lt.mpr (Int.natCast_nonneg n)
      rw [if_neg hnonneg]
      exact hrepr n
  | negSucc n =>
      rw [if_pos (Int.negSucc_lt_zero n)]
      have hminus : toString (Int.negSucc n) = "-" ++ toString (n + 1) := rfl
      rw [hminus, String.toList_append, hrepr]
      rfl

theorem ofPlain_integer (i : Int64) : ofPlain (canonicalText (.integer i)) = .integer i := by
  refine ofPlain_of_denotes (.integer (.inl ?_))
  rw [canonicalText, toList_toString]
  exact Decimal.decimalInteger_toDigits false i.toInt

theorem ofPlain_bool (b : Bool) : ofPlain (canonicalText (.bool b)) = .bool b := by
  cases b with
  | true => exact ofPlain_of_name (by decide)
  | false => exact ofPlain_of_name (by decide)

theorem ofPlain_null : ofPlain (canonicalText .null) = .null :=
  ofPlain_of_name (by decide)

/-- A finite float is read back from its text bit by bit. -/
theorem ofPlain_finite {x : Binary64} (h : x.code < Binary64.infinityCode) :
    ofPlain (numberStyle.text x) = .float x := by
  obtain ⟨q, hnumber, hrounds⟩ := Decimal.exists_number_text numberStyle h
  refine ofPlain_of_denotes (.float hnumber hrounds fun n hn => ?_)
  exact absurd hn (Decimal.not_decimalInteger_text numberStyle x n)

/-- An exponent without a point is no integer either. -/
example : floatText ⟨1⟩ = "5e-324" ∧ ofPlain "5e-324" = .float ⟨1⟩ := by decide +kernel

theorem ofPlain_float (x : Binary64) :
    ∃ y, ofPlain (canonicalText (.float x)) = .float y ∧
      (y = x ∨ x.isNaN = true ∧ y.isNaN = true) := by
  rw [canonicalText, floatText]
  by_cases hnan : x.isNaN = true
  · rw [if_pos hnan]
    exact ⟨.nan, ofPlain_of_name (by decide), .inr ⟨hnan, by decide⟩⟩
  by_cases hinfinite : x.isInfinite = true
  · have hx : Binary64.infinity x.isNegative = x := by
      have hcode := Binary64.ofCode_code x
      rw [of_decide_eq_true hinfinite] at hcode
      exact hcode
    rw [if_neg hnan, if_pos hinfinite]
    refine ⟨.infinity x.isNegative, ?_, .inl hx⟩
    cases x.isNegative with
    | true => exact ofPlain_of_name (by decide)
    | false => exact ofPlain_of_name (by decide)
  · have hfinite : x.code < Binary64.infinityCode := by
      simp only [Binary64.isNaN, Binary64.isInfinite, decide_eq_true_eq] at hnan hinfinite
      omega
    rw [if_neg hnan, if_neg hinfinite]
    exact ⟨x, ofPlain_finite hfinite, .inl rfl⟩

/-- **The canonical text of a scalar that is no text resolves to the same scalar**: the same
integer, boolean or null, and the same bits of a float, except that a NaN becomes some NaN. -/
theorem canonical_text_resolves (line : ℕ) (path : String) :
    (∀ i, ofPlain (Node.ofScalar (.integer i) line path).text = .integer i) ∧
    (∀ b, ofPlain (Node.ofScalar (.bool b) line path).text = .bool b) ∧
    ofPlain (Node.ofScalar .null line path).text = .null ∧
    ∀ x, ∃ y, ofPlain (Node.ofScalar (.float x) line path).text = .float y ∧
      (y = x ∨ x.isNaN = true ∧ y.isNaN = true) :=
  ⟨ofPlain_integer, ofPlain_bool, ofPlain_null, ofPlain_float⟩

end YamlDelta.Scalar
