/-
The text of a number is a numeral for it.

Whatever the style, the digits of the shortest decimal are laid out as a number of the
grammar: positionally with a point and at least one digit on either side of it, or
scientifically with an exponent.  Either way the text denotes the decimal, which is nearest
to the number the digits were made from (`exists_number_text`), and as it holds a point or
the letter of an exponent it is not the text of an integer.  Zero is laid out like any
other number, and the sign is the sign.
-/
import YamlDelta.Decimal.Style
import YamlDelta.Proofs.Decimal.Reading
import YamlDelta.Proofs.Decimal.Shortest

namespace YamlDelta.Decimal

open Binary64 Numeral Text

/-! ### Zeros around the digits -/

theorem ofDigits_zeros (k : ℕ) : ofDigits 10 (List.replicate k '0') = 0 := by
  induction k with
  | zero => rfl
  | succ k ih =>
      rw [List.replicate_succ', ofDigits_concat, ih]
      rfl

theorem isRun_zeros (k : ℕ) : isRun Char.isDigit (List.replicate (k + 1) '0') = true := by
  refine isRun_iff.mpr ⟨by simp, fun c hc => ?_⟩
  rw [List.eq_of_mem_replicate hc]
  rfl

variable {ds : List Char}

theorem ofDigits_append_zeros (ds : List Char) (k : ℕ) :
    ofDigits 10 (ds ++ List.replicate k '0') = ofDigits 10 ds * 10 ^ k := by
  rw [ofDigits_append, ofDigits_zeros, List.length_replicate, Nat.add_zero]

theorem ofDigits_zeros_append (k : ℕ) (ds : List Char) :
    ofDigits 10 (List.replicate k '0' ++ ds) = ofDigits 10 ds := by
  rw [ofDigits_append, ofDigits_zeros, Nat.zero_mul, Nat.zero_add]

theorem digits_toDigits (n : ℕ) : Digits 10 (Nat.toDigits 10 n) n := by
  refine digits_decimal.mpr ⟨isRun_iff.mpr ⟨Nat.toDigits_ne_nil, fun c hc => ?_⟩,
    ofDigits_toDigits (by decide) (by decide) n⟩
  exact Nat.isDigit_of_mem_toDigits (by decide) (by decide) hc

/-! ### The two forms -/

/-- In positional form the digits denote what they do with an exponent. -/
theorem mantissa_positional (h : isRun Char.isDigit ds = true) (e : ℤ) :
    Mantissa (positional ds e) (ofDigits 10 ds * 10 ^ e) := by
  cases e with
  | ofNat k =>
      have hzeros : ds ++ List.replicate k '0' ++ ['0'] = ds ++ List.replicate (k + 1) '0' := by
        rw [List.append_assoc, ← List.replicate_succ']
      have hmantissa := mantissa_of_run (ds ++ List.replicate k '0') ['0']
        (hzeros ▸ isRun_append h (isRun_zeros k))
      have hvalue : (ofDigits 10 ds : ℚ) * 10 ^ (Int.ofNat k) =
          (ofDigits 10 ds * 10 ^ (k + 1) : ℕ) / 10 ^ ['0'].length := by
        rw [List.length_singleton, Int.ofNat_eq_natCast, zpow_natCast]
        push_cast
        field_simp
        ring
      rw [hvalue, ← ofDigits_append_zeros, ← hzeros]
      exact hmantissa
  | negSucc k =>
      rw [zpow_negSucc, ← div_eq_mul_inv]
      unfold positional
      simp only []
      split
      · rename_i hlt
        have hsplit := List.take_append_drop (ds.length - (k + 1)) ds
        have hmantissa := mantissa_of_run _ _ (hsplit.symm ▸ h)
        rw [hsplit, List.length_drop, Nat.sub_sub_self (Nat.le_of_lt hlt)] at hmantissa
        exact hmantissa
      · rename_i hge
        have hzeros : ['0'] ++ (List.replicate (k + 1 - ds.length) '0' ++ ds) =
            List.replicate (k + 1 - ds.length + 1) '0' ++ ds := rfl
        have hmantissa := mantissa_of_run ['0'] (List.replicate (k + 1 - ds.length) '0' ++ ds)
          (hzeros.symm ▸ isRun_append (isRun_zeros _) h)
        rw [hzeros, ofDigits_zeros_append, List.length_append, List.length_replicate,
          Nat.sub_add_cancel (Nat.not_lt.mp hge)] at hmantissa
        exact hmantissa

/-- A point after the first digit takes the others behind it. -/
theorem mantissa_first {d : Char} (h : isRun Char.isDigit (d :: ds) = true) :
    Mantissa (match d :: ds with
      | [] => []
      | [d] => [d]
      | d :: ds => d :: '.' :: ds) (ofDigits 10 (d :: ds) / 10 ^ ds.length) := by
  cases ds with
  | nil =>
      rw [List.length_nil, pow_zero, div_one]
      exact .whole (digits_decimal.mpr ⟨h, rfl⟩)
  | cons d' ds => exact mantissa_of_run [d] (d' :: ds) h

/-- A whole number with its sign is a numeral for itself. -/
theorem decimalInteger_toDigits (plusSign : Bool) (z : ℤ) :
    DecimalInteger ((if z < 0 then ['-'] else if plusSign then ['+'] else []) ++
      Nat.toDigits 10 z.natAbs) z := by
  by_cases hneg : z < 0
  · have hnumeral := DecimalInteger.mk .minus (digits_toDigits z.natAbs)
    have hvalue : -(z.natAbs : ℤ) = z := by omega
    rw [if_pos rfl, hvalue] at hnumeral
    rw [if_pos hneg]
    exact hnumeral
  · have hvalue : (z.natAbs : ℤ) = z := by omega
    have hnumeral : ∀ {sign}, Sign sign false →
        DecimalInteger (sign ++ Nat.toDigits 10 z.natAbs) z := by
      intro sign hsign
      have hnumeral := DecimalInteger.mk hsign (digits_toDigits z.natAbs)
      rw [if_neg Bool.false_ne_true, hvalue] at hnumeral
      exact hnumeral
    rw [if_neg hneg]
    cases plusSign with
    | true => exact hnumeral .plus
    | false => exact hnumeral .absent

/-- In scientific form they do as well, the exponent being that of the first digit. -/
theorem number_scientific {sign : List Char} {negative : Bool} (hsign : Sign sign negative)
    (h : isRun Char.isDigit ds = true) (plusSign : Bool) (e : ℤ) :
    Number (sign ++ scientific plusSign ds (e + ds.length - 1)) negative
      (ofDigits 10 ds * 10 ^ e) := by
  cases ds with
  | nil => exact absurd rfl (isRun_iff.mp h).1
  | cons d ds =>
      have htop : e + (d :: ds).length - 1 = ds.length + e := by
        rw [List.length_cons]
        push_cast
        ring
      have hnumber := Number.mk hsign (mantissa_first h)
        (.present (.inl rfl) (decimalInteger_toDigits plusSign (e + (d :: ds).length - 1)))
      have hvalue : (ofDigits 10 (d :: ds) : ℚ) / 10 ^ ds.length * 10 ^ (e + (d :: ds).length - 1) =
          ofDigits 10 (d :: ds) * 10 ^ e := by
        rw [htop, zpow_add₀ (by decide), zpow_natCast, ← mul_assoc,
          div_mul_cancel₀ _ (pow_ne_zero _ (by decide))]
      rw [hvalue] at hnumber
      unfold scientific
      simp only [List.append_assoc, List.cons_append] at hnumber ⊢
      exact hnumber

/-- A form never looks like an integer. -/
theorem point_mem_positional (ds : List Char) (e : ℤ) : '.' ∈ positional ds e := by
  unfold positional
  split
  · simp
  · simp only []
    split <;> simp

theorem mark_mem_scientific (plusSign : Bool) (ds : List Char) (top : ℤ) :
    'e' ∈ scientific plusSign ds top := by
  simp [scientific]

/-! ### The text of a number -/

/-- The digits that are laid out, and their exponent. -/
def Style.decimal (style : Style) (x : Binary64) : ℕ × ℤ :=
  if x.isZero then (0, 0) else shortest style.tie x.code

variable (style : Style) {x : Binary64}

/-- The number is the one nearest to them. -/
theorem nearest_decimal (h : x.code < infinityCode) :
    Nearest ((style.decimal x).1 * 10 ^ (style.decimal x).2) x.code := by
  unfold Style.decimal
  by_cases hzero : x.isZero = true
  · have hcode : x.code = 0 := of_decide_eq_true hzero
    rw [if_pos hzero, hcode, Nat.cast_zero, zero_mul]
    exact nearest_of_small (le_refl 0) (zpow_pos (by decide) _)
  · have hcode : x.code ≠ 0 := fun h => hzero (decide_eq_true h)
    obtain ⟨b, hb⟩ := Nat.exists_eq_succ_of_ne_zero hcode
    rw [if_neg hzero]
    rw [hb] at h ⊢
    exact (within_shortest style.tie b).nearest (Nat.le_of_lt h)

theorem sign_of_isNegative (x : Binary64) :
    Sign (if x.isNegative then ['-'] else []) x.isNegative := by
  cases x.isNegative with
  | true => exact .minus
  | false => exact .absent

/-- A text is the sign, and the digits in one of the two forms. -/
theorem text_cases (x : Binary64) :
    (style.text x).toList = (if x.isNegative then ['-'] else []) ++
        positional (Nat.toDigits 10 (style.decimal x).1) (style.decimal x).2 ∨
      (style.text x).toList = (if x.isNegative then ['-'] else []) ++
        scientific style.plusSign (Nat.toDigits 10 (style.decimal x).1)
          ((style.decimal x).2 + (Nat.toDigits 10 (style.decimal x).1).length - 1) := by
  unfold Style.text Style.decimal
  simp only []
  generalize (if x.isNegative = true then ['-'] else []) = sign
  by_cases hzero : x.isZero = true
  · rw [if_pos hzero, if_pos hzero, String.toList_ofList]
    exact .inl rfl
  · rw [if_neg hzero, if_neg hzero, String.toList_ofList]
    split
    · exact .inl rfl
    · exact .inr rfl

/-- **The text of a finite number is a numeral that it is nearest to.** -/
theorem exists_number_text (h : x.code < infinityCode) :
    ∃ q, Number (style.text x).toList x.isNegative q ∧ x.Rounds x.isNegative q := by
  refine ⟨_, ?_, rfl, nearest_decimal style h⟩
  obtain ⟨hrun, hvalue⟩ := digits_decimal.mp (digits_toDigits (style.decimal x).1)
  rcases text_cases style x with htext | htext
  · have hnumber := Number.mk (sign_of_isNegative x)
      (mantissa_positional hrun (style.decimal x).2) .absent
    rw [hvalue, zpow_zero, mul_one, List.append_nil, ← htext] at hnumber
    exact hnumber
  · have hnumber := number_scientific (sign_of_isNegative x) hrun style.plusSign
      (style.decimal x).2
    rw [hvalue, ← htext] at hnumber
    exact hnumber

/-- It is not the numeral of an integer. -/
theorem not_decimalInteger_text (x : Binary64) (n : ℤ) :
    ¬DecimalInteger (style.text x).toList n := by
  intro h
  have hmem := forall_mem_decimalInteger h
  rcases text_cases style x with htext | htext <;> rw [htext] at hmem
  · exact absurd (hmem '.' (List.mem_append_right _ (point_mem_positional _ _))) (by decide)
  · exact absurd (hmem 'e' (List.mem_append_right _ (mark_mem_scientific _ _ _))) (by decide)

end YamlDelta.Decimal
