/-
Codes and the numbers they stand for.

The code of a number has an exponent field, from 2^52 up, and a fraction below.  Taken
together they are a multiple `m` of a spacing `2^k`, where `m` has at most 53 bits and, but
for the smallest spacing, all 53 of them; then the code is `k * 2^52 + m`
(`exists_scaled`).  The carry of a multiple that reaches 2^53 is the next exponent, so the
same formula still holds there, and a code and its successor are always two multiples of
one spacing (`units_scaled`).  That the order of codes is the order of numbers, and how
far neighbours are apart, is read off it.
-/
import Mathlib.Algebra.Order.Field.Power
import Mathlib.Data.Rat.Cast.Order
import Mathlib.Order.Monotone.Basic
import Mathlib.Tactic.Ring
import YamlDelta.Decimal.Nearest

namespace YamlDelta.Binary64

theorem exponentBit_eq : exponentBit = 2 ^ 52 := by decide

theorem signBit_eq : signBit = 2 ^ 63 := by decide

theorem infinityCode_lt_signBit : infinityCode < signBit := by decide

/-! ### Sign and code -/

theorem toNat_bits_ofCode {code : Nat} (h : code < signBit) (negative : Bool) :
    (ofCode negative code).bits.toNat = code + if negative then signBit else 0 := by
  have hmod : code % signBit = code := Nat.mod_eq_of_lt h
  rw [ofCode, hmod, UInt64.toNat_ofNat']
  refine Nat.mod_eq_of_lt ?_
  rw [signBit_eq] at h ⊢
  cases negative <;> simp <;> omega

theorem code_ofCode {code : Nat} (h : code < signBit) (negative : Bool) :
    (ofCode negative code).code = code := by
  rw [Binary64.code, toNat_bits_ofCode h]
  cases negative <;> simp [Nat.mod_eq_of_lt h]

theorem isNegative_ofCode {code : Nat} (h : code < signBit) (negative : Bool) :
    (ofCode negative code).isNegative = negative := by
  rw [isNegative, toNat_bits_ofCode h]
  cases negative <;> simp [h]

theorem code_lt_signBit (x : Binary64) : x.code < signBit :=
  Nat.mod_lt _ (by decide)

/-- Sign and code determine a number. -/
theorem ofCode_code (x : Binary64) : ofCode x.isNegative x.code = x := by
  have hlt : x.bits.toNat < 2 * signBit := x.bits.toNat_lt
  have hbits : (ofCode x.isNegative x.code).bits.toNat = x.bits.toNat := by
    rw [toNat_bits_ofCode x.code_lt_signBit, isNegative, Binary64.code]
    by_cases h : signBit ≤ x.bits.toNat
    · rw [decide_eq_true h, if_pos rfl, Nat.mod_eq_sub_mod h, Nat.mod_eq_of_lt (by omega),
        Nat.sub_add_cancel h]
    · rw [decide_eq_false h, if_neg (by decide), Nat.mod_eq_of_lt (by omega), Nat.add_zero]
  cases x with
  | mk bits => exact congrArg Binary64.mk (UInt64.toNat_inj.mp hbits)

/-! ### Multiples of a spacing -/

/-- A multiple of a spacing, the carry into the next exponent included. -/
theorem units_scaled {k m : Nat} (hlow : k = 0 ∨ exponentBit ≤ m) (hhigh : m ≤ 2 * exponentBit) :
    units (k * exponentBit + m) = m * 2 ^ k := by
  have hpos : 0 < exponentBit := by decide
  by_cases hm : m < exponentBit
  · obtain rfl : k = 0 := hlow.resolve_right (Nat.not_le.mpr hm)
    rw [Nat.zero_mul, Nat.zero_add, units, if_pos hm, Nat.pow_zero, Nat.mul_one]
  · obtain ⟨d, rfl⟩ := Nat.exists_eq_add_of_le (Nat.not_lt.mp hm)
    have hcode : k * exponentBit + (exponentBit + d) = d + exponentBit * (k + 1) := by ring
    have hlarge : ¬k * exponentBit + (exponentBit + d) < exponentBit := by omega
    rw [units, if_neg hlarge, scale, hcode, Nat.add_mul_div_left _ _ hpos,
      Nat.add_mul_mod_self_left, Nat.shiftLeft_eq]
    rcases Nat.lt_or_ge d exponentBit with hd | hd
    · rw [Nat.mod_eq_of_lt hd, Nat.div_eq_of_lt hd]
      simp
    · -- the multiple is 2^53, written as 2^52 of the next spacing
      obtain rfl : d = exponentBit := by omega
      rw [Nat.mod_self, Nat.div_self hpos]
      simp only [Nat.add_zero, Nat.add_comm 1, Nat.add_sub_cancel]
      ring

/-- Every code stands for a multiple of some spacing. -/
theorem exists_scaled (code : Nat) :
    ∃ k m, code = k * exponentBit + m ∧ (k = 0 ∨ exponentBit ≤ m) ∧ m < 2 * exponentBit ∧
      scale code = k := by
  have hpos : 0 < exponentBit := by decide
  by_cases h : code < exponentBit
  · exact ⟨0, code, by omega, .inl rfl, by omega, by rw [scale, Nat.div_eq_of_lt h]⟩
  · have hdiv : 1 ≤ code / exponentBit := (Nat.le_div_iff_mul_le hpos).mpr (by omega)
    have hmod := Nat.mod_lt code hpos
    have hsplit := Nat.div_add_mod code exponentBit
    obtain ⟨k, hk⟩ := Nat.exists_eq_add_of_le hdiv
    refine ⟨k, exponentBit + code % exponentBit, ?_, .inr (Nat.le_add_right _ _), by omega, ?_⟩
    · rw [hk, Nat.mul_add, Nat.mul_one] at hsplit
      rw [Nat.mul_comm k]
      omega
    · rw [scale, hk, Nat.add_sub_cancel_left]

/-- A code and its successor stand for successive multiples of one spacing. -/
theorem units_succ (code : Nat) : units (code + 1) = units code + 2 ^ scale code := by
  obtain ⟨k, m, hcode, hlow, hhigh, hscale⟩ := exists_scaled code
  have hnext : code + 1 = k * exponentBit + (m + 1) := by omega
  rw [hnext, units_scaled (hlow.imp_right Nat.le_succ_of_le) (by omega), hscale, hcode,
    units_scaled hlow (Nat.le_of_lt hhigh), Nat.succ_mul]

/-- The greater code stands for the greater number. -/
theorem units_strictMono : StrictMono units := by
  refine strictMono_nat_of_lt_succ fun code => ?_
  rw [units_succ]
  exact Nat.lt_add_of_pos_right (Nat.two_pow_pos _)

@[simp] theorem units_zero : units 0 = 0 := rfl

@[simp] theorem units_one : units 1 = 1 := rfl

/-! ### Values -/

/-- The value of a code: below 2^52 the fraction in units of 2^-1074, and otherwise the fraction
with its leading bit, scaled by the exponent field.  Infinity stands for the number that would come
next, 2^1024. -/
def magnitude (code : Nat) : ℚ :=
  if code < 2 ^ 52 then code * 2 ^ (-1074 : ℤ)
  else (2 ^ 52 + (code % 2 ^ 52 : ℕ)) * 2 ^ ((code / 2 ^ 52 : ℕ) - 1075 : ℤ)

theorem magnitude_eq (code : Nat) : magnitude code = units code / 2 ^ 1074 := by
  unfold magnitude units
  rw [← exponentBit_eq]
  by_cases h : code < exponentBit
  · rw [if_pos h, if_pos h, zpow_neg, ← div_eq_mul_inv]
    rfl
  · have hdiv : 1 ≤ code / exponentBit :=
      (Nat.le_div_iff_mul_le (by decide)).mpr (by omega)
    obtain ⟨k, hk⟩ := Nat.exists_eq_add_of_le hdiv
    have hexponent : ((code / exponentBit : ℕ) : ℤ) - 1075 = (k : ℤ) - (1074 : ℕ) := by
      rw [hk]
      push_cast
      ring
    rw [if_neg h, if_neg h, Nat.shiftLeft_eq, scale, hexponent, hk, Nat.add_sub_cancel_left,
      zpow_sub₀ (by decide), zpow_natCast, zpow_natCast, mul_div_assoc', exponentBit_eq]
    push_cast
    rfl

theorem magnitude_strictMono : StrictMono magnitude := by
  intro b c h
  rw [magnitude_eq, magnitude_eq]
  refine div_lt_div_of_pos_right ?_ (pow_pos two_pos 1074)
  exact_mod_cast units_strictMono h

end YamlDelta.Binary64
