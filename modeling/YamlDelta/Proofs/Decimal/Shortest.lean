/-
The shortest decimal reads back as the number it was made from.

The interval of a number reaches halfway to its two neighbours (`lower_ofCode`,
`upper_ofCode`), so a point inside is nearest to the number.  A grid of decimals has a
point inside as soon as its steps are smaller than the interval is wide, for the two points
next to the number cannot both miss it (`exists_pick`).  The interval of a number is wider
than its 2^53th part, and 10^16 is more than that, so a grid with seventeen digits is fine
enough (`step_lt_width`): the search ends with a point, and dropping the zeros at its end
changes nothing.
-/
import Mathlib.Data.Nat.Cast.Order.Field
import YamlDelta.Decimal.Shortest
import YamlDelta.Proofs.Decimal.Rounding

namespace YamlDelta.Decimal

open Binary64

/-! ### Division by a power of ten -/

section

variable {num den : ℕ}

theorem overPower_pos (num : ℕ) (hden : 0 < den) (e : ℤ) : 0 < (overPower num den e).2 := by
  cases e with
  | ofNat k => exact Nat.mul_pos hden (Nat.pow_pos (by decide))
  | negSucc k => exact hden

theorem overPower_eq (num den : ℕ) (e : ℤ) :
    ((overPower num den e).1 : ℚ) / (overPower num den e).2 = num / den / 10 ^ e := by
  cases e with
  | ofNat k =>
      rw [overPower, Int.ofNat_eq_natCast, zpow_natCast, Nat.pow_eq, div_div]
      push_cast
      rfl
  | negSucc k =>
      rw [overPower, zpow_negSucc, div_inv_eq_mul, Nat.pow_eq]
      push_cast
      rw [mul_div_right_comm]

/-- A grid point is compared with a fraction by natural numbers. -/
theorem le_overPower_iff (num : ℕ) (hden : 0 < den) (n : ℕ) (e : ℤ) :
    n * (overPower num den e).2 ≤ (overPower num den e).1 ↔ (n : ℚ) * 10 ^ e ≤ num / den := by
  rw [← le_div_iff₀ (zpow_pos (by decide) e), ← overPower_eq,
    le_div_iff₀ (Nat.cast_pos.mpr (overPower_pos num hden e))]
  exact_mod_cast Iff.rfl

theorem overPower_le_iff (num : ℕ) (hden : 0 < den) (n : ℕ) (e : ℤ) :
    (overPower num den e).1 ≤ n * (overPower num den e).2 ↔ (num : ℚ) / den ≤ n * 10 ^ e := by
  rw [← div_le_iff₀ (zpow_pos (by decide) e), ← overPower_eq,
    div_le_iff₀ (Nat.cast_pos.mpr (overPower_pos num hden e))]
  exact_mod_cast Iff.rfl

end

/-! ### Intervals -/

namespace Interval

theorem one_shiftLeft_cast (k : ℕ) : ((1 <<< (k + 1) : ℕ) : ℚ) = 2 * 2 ^ k := by
  rw [Nat.one_shiftLeft, pow_succ']
  push_cast
  rfl

theorem unit_eq : (unit : ℚ) = 2 * 2 ^ (1074 + 1) :=
  one_shiftLeft_cast (1074 + 1)

theorem unit_pos : 0 < unit := by
  have hpos : (0 : ℚ) < unit := by
    rw [unit_eq]
    exact mul_pos two_pos (pow_pos two_pos _)
  exact Nat.cast_pos.mp hpos

def lower (i : Interval) : ℚ := i.low / unit

def center (i : Interval) : ℚ := i.mid / unit

def upper (i : Interval) : ℚ := i.high / unit

/-- The fraction lies inside, on an end only if the ends belong to the interval. -/
structure Inside (i : Interval) (q : ℚ) : Prop where
  lower_le : i.lower ≤ q
  le_upper : q ≤ i.upper
  ends : i.lower = q ∨ q = i.upper → i.closed = true

theorem contains_iff (i : Interval) (n : ℕ) (e : ℤ) :
    i.contains n e = true ↔ i.Inside (n * 10 ^ e) := by
  have hlow := overPower_le_iff i.low unit_pos n e
  have hlow' := le_overPower_iff i.low unit_pos n e
  have hhigh := le_overPower_iff i.high unit_pos n e
  have hhigh' := overPower_le_iff i.high unit_pos n e
  rw [← lower] at hlow hlow'
  rw [← upper] at hhigh hhigh'
  have hcontains : i.contains n e =
      if i.closed then
        decide ((overPower i.low unit e).1 ≤ n * (overPower i.low unit e).2 ∧
          n * (overPower i.high unit e).2 ≤ (overPower i.high unit e).1)
      else
        decide ((overPower i.low unit e).1 < n * (overPower i.low unit e).2 ∧
          n * (overPower i.high unit e).2 < (overPower i.high unit e).1) := rfl
  rw [hcontains]
  by_cases hclosed : i.closed = true
  · rw [if_pos hclosed, decide_eq_true_eq, hlow, hhigh]
    exact ⟨fun h => ⟨h.1, h.2, fun _ => hclosed⟩, fun h => ⟨h.lower_le, h.le_upper⟩⟩
  · rw [if_neg hclosed, decide_eq_true_eq, ← not_le, ← not_le, hlow', hhigh', not_le, not_le]
    constructor
    · intro h
      exact ⟨le_of_lt h.1, le_of_lt h.2, fun hend => hend.elim
        (fun heq => absurd heq (ne_of_lt h.1)) (fun heq => absurd heq (ne_of_lt h.2))⟩
    · intro h
      exact ⟨lt_of_le_of_ne h.lower_le fun heq => hclosed (h.ends (.inl heq)),
        lt_of_le_of_ne h.le_upper fun heq => hclosed (h.ends (.inr heq))⟩

variable {i : Interval} {q : ℚ}

/-- What is not inside, but not above the center, is at the lower end or below. -/
theorem le_lower_of_not_inside (hcenter : i.center < i.upper) (hq : q ≤ i.center)
    (h : ¬i.Inside q) : q ≤ i.lower := by
  by_contra hlt
  have hupper := lt_of_le_of_lt hq hcenter
  exact h ⟨le_of_not_ge hlt, le_of_lt hupper, fun hend => hend.elim
    (fun heq => absurd (le_of_eq heq.symm) hlt) (fun heq => absurd heq (ne_of_lt hupper))⟩

theorem upper_le_of_not_inside (hcenter : i.lower < i.center) (hq : i.center ≤ q)
    (h : ¬i.Inside q) : i.upper ≤ q := by
  by_contra hlt
  have hlower := lt_of_lt_of_le hcenter hq
  exact h ⟨le_of_lt hlower, le_of_not_ge hlt, fun hend => hend.elim
    (fun heq => absurd heq (ne_of_lt hlower)) (fun heq => absurd (le_of_eq heq.symm) hlt)⟩

/-! ### Grids -/

variable {tie : Tie} {e : ℤ}

/-- The grid point next to the center, on its lower side. -/
def below (i : Interval) (e : ℤ) : ℕ :=
  (overPower i.mid unit e).1 / (overPower i.mid unit e).2

/-- The center lies between two grid points. -/
theorem below_le (i : Interval) (e : ℤ) : (i.below e : ℚ) * 10 ^ e ≤ i.center :=
  (le_overPower_iff i.mid unit_pos _ e).mp (Nat.div_mul_le_self _ _)

theorem le_below_succ (i : Interval) (e : ℤ) : i.center ≤ (i.below e + 1 : ℕ) * 10 ^ e := by
  refine (overPower_le_iff i.mid unit_pos _ e).mp (Nat.le_of_lt ?_)
  rw [Nat.mul_comm]
  exact Nat.lt_mul_div_succ _ (overPower_pos _ unit_pos e)

/-- Something inside is picked, if one of these two is inside. -/
theorem pick_cases (tie : Tie) (i : Interval) (e : ℤ) :
    (∃ n, i.pick tie e = some n ∧ i.contains n e = true) ∨
      i.pick tie e = none ∧ i.contains (i.below e) e = false ∧
        i.contains (i.below e + 1) e = false := by
  unfold pick
  cases hbelow : i.contains (i.below e) e <;> cases habove : i.contains (i.below e + 1) e <;>
    unfold below at hbelow habove <;> simp only [hbelow, habove]
  case false.false => exact .inr ⟨trivial, trivial, trivial⟩
  case true.false => exact .inl ⟨_, rfl, hbelow⟩
  case false.true => exact .inl ⟨_, rfl, habove⟩
  case true.true =>
    refine .inl ?_
    split_ifs
    · exact ⟨_, rfl, hbelow⟩
    · exact ⟨_, rfl, habove⟩
    · cases tie with
      | up => exact ⟨_, rfl, habove⟩
      | toEven =>
          refine ⟨_, rfl, ?_⟩
          rcases Nat.mod_two_eq_zero_or_one
            ((overPower i.mid unit e).1 / (overPower i.mid unit e).2) with h | h
          · rw [h]
            exact hbelow
          · rw [h]
            exact habove

/-- What is picked lies inside. -/
theorem inside_of_pick {n : ℕ} (h : i.pick tie e = some n) : i.Inside (n * 10 ^ e) := by
  rw [← contains_iff]
  rcases pick_cases tie i e with ⟨m, hm, hinside⟩ | ⟨hnone, -, -⟩
  · obtain rfl : n = m := Option.some.inj (h.symm.trans hm)
    exact hinside
  · rw [h] at hnone
    cases hnone

/-- **A grid with steps smaller than the interval is wide has a point inside.** -/
theorem exists_pick (tie : Tie) (hlower : i.lower < i.center) (hupper : i.center < i.upper)
    (hstep : 10 ^ e < i.upper - i.lower) : ∃ n, i.pick tie e = some n := by
  rcases pick_cases tie i e with ⟨n, hn, -⟩ | ⟨-, hbelow, habove⟩
  · exact ⟨n, hn⟩
  · rw [Bool.eq_false_iff, Ne, contains_iff] at hbelow habove
    have hle := le_lower_of_not_inside hupper (i.below_le e) hbelow
    have hge := upper_le_of_not_inside hlower (i.le_below_succ e) habove
    push_cast at hge
    exact absurd hstep (by linarith)

end Interval

/-! ### The interval of a number -/

/-- Below a power of two the spacing is half of that above it. -/
theorem ofCode_below (b : ℕ) :
    (if (b + 1) % exponentBit = 0 ∧ 2 * exponentBit ≤ b + 1 then 1 <<< scale (b + 1)
      else 2 * 1 <<< scale (b + 1)) = 2 * 2 ^ scale b := by
  by_cases h : (b + 1) % exponentBit = 0 ∧ 2 * exponentBit ≤ b + 1
  · have hscale : scale (b + 1) = scale b + 1 := by
      unfold scale exponentBit at *
      omega
    rw [if_pos h, hscale, Nat.one_shiftLeft, pow_succ']
  · have hscale : scale (b + 1) = scale b := by
      unfold scale exponentBit at *
      omega
    rw [if_neg h, hscale, Nat.one_shiftLeft]

theorem lower_ofCode (b : ℕ) : (Interval.ofCode (b + 1)).lower = halfway b (b + 1) := by
  have hlow : (Interval.ofCode (b + 1)).low = 2 * (units b + units (b + 1)) := by
    rw [Interval.ofCode]
    simp only [ofCode_below, units_succ]
    omega
  rw [Interval.lower, Interval.unit_eq, hlow, halfway_eq, Nat.cast_mul, Nat.cast_two]
  exact mul_div_mul_left _ _ (by decide)

theorem upper_ofCode (b : ℕ) : (Interval.ofCode b).upper = halfway b (b + 1) := by
  have hhigh : (Interval.ofCode b).high = 2 * (units b + units (b + 1)) := by
    rw [Interval.ofCode, Nat.one_shiftLeft]
    simp only [units_succ]
    omega
  rw [Interval.upper, Interval.unit_eq, hhigh, halfway_eq, Nat.cast_mul, Nat.cast_two]
  exact mul_div_mul_left _ _ (by decide)

theorem center_ofCode (b : ℕ) : (Interval.ofCode b).center = Binary64.magnitude b := by
  have hfour : ((4 : ℕ) : ℚ) = 2 * 2 := by norm_num
  have hmid : (Interval.ofCode b).mid = 4 * units b := rfl
  rw [Interval.center, Interval.unit_eq, hmid, magnitude_eq, pow_succ', ← mul_assoc, Nat.cast_mul,
    hfour]
  exact mul_div_mul_left _ _ (mul_ne_zero two_ne_zero two_ne_zero)

/-- **A fraction inside the interval of a number is nearest to it.** -/
theorem within_of_inside {b : ℕ} {q : ℚ} (h : (Interval.ofCode (b + 1)).Inside q) :
    Within q (b + 1) := by
  obtain ⟨hlower, hupper, hends⟩ := h
  rw [lower_ofCode] at hlower hends
  rw [upper_ofCode] at hupper hends
  have hclosed : (Interval.ofCode (b + 1)).closed = true → Even (b + 1) := by
    intro h
    exact Nat.even_iff.mpr (beq_iff_eq.mp h)
  refine ⟨?_, ?_, hupper, fun heq => hclosed (hends (.inr heq))⟩
  · intro c hc
    obtain rfl : c = b := Nat.succ.inj hc
    exact hlower
  · intro c hc heq
    obtain rfl : c = b := Nat.succ.inj hc
    exact hclosed (hends (.inl heq))

/-! ### Seventeen digits -/

/-- The neighbours of a number are further apart than its 2^52th part. -/
theorem units_add_lt (b : ℕ) :
    units (b + 1) + exponentBit * units b < exponentBit * units (b + 2) := by
  obtain ⟨k, m, hcode, hlow, hhigh, hscale⟩ := exists_scaled b
  have hunits : units b = m * 2 ^ k := by rw [hcode, units_scaled hlow (Nat.le_of_lt hhigh)]
  have hbit : 0 < exponentBit * 2 ^ k := Nat.mul_pos (by decide) (Nat.two_pow_pos k)
  have hnext : m * 2 ^ k + 2 ^ k = (m + 1) * 2 ^ k := (Nat.succ_mul m _).symm
  rw [units_succ (b + 1), units_succ b, hscale, hunits, Nat.mul_add, Nat.mul_add]
  by_cases hm : m + 1 < 2 * exponentBit
  · have hmono : exponentBit * 2 ^ k ≤ exponentBit * 2 ^ scale (b + 1) := by
      refine Nat.mul_le_mul_left _ (Nat.pow_le_pow_right two_pos ?_)
      rw [← hscale]
      exact Nat.sub_le_sub_right (Nat.div_le_div_right (Nat.le_succ b)) 1
    have hlt := Nat.mul_lt_mul_of_pos_right hm (Nat.two_pow_pos k)
    rw [← hnext, Nat.mul_assoc] at hlt
    omega
  · -- the next multiple carries into the exponent, where the spacing is twice as wide
    have hlast : m + 1 = 2 * exponentBit := by omega
    have hcarry : scale (b + 1) = k + 1 := by
      unfold scale exponentBit at *
      omega
    rw [hlast, Nat.mul_assoc] at hnext
    have hdouble : exponentBit * 2 ^ (k + 1) = 2 * (exponentBit * 2 ^ k) := by
      rw [pow_succ]
      ring
    rw [hcarry, hdouble]
    omega

/-- The interval of a number is wider than its 2^53th part. -/
theorem magnitude_lt_width (b : ℕ) :
    Binary64.magnitude (b + 1) <
      2 ^ 53 * ((Interval.ofCode (b + 1)).upper - (Interval.ofCode (b + 1)).lower) := by
  have hunits : (units (b + 1) : ℚ) + exponentBit * units b < exponentBit * units (b + 2) := by
    exact_mod_cast units_add_lt b
  have hmagnitude := div_lt_div_of_pos_right hunits (pow_pos two_pos 1074)
  rw [add_div, mul_div_assoc, mul_div_assoc, ← magnitude_eq, ← magnitude_eq, ← magnitude_eq,
    exponentBit_eq] at hmagnitude
  push_cast at hmagnitude
  rw [upper_ofCode, lower_ofCode, halfway, halfway]
  linarith

theorem leadingZeros_spec {den : ℕ} : ∀ {fuel num : ℕ}, den ≤ num * 10 ^ (fuel + 1) →
    den ≤ num * 10 ^ (leadingZeros den fuel num + 1) := by
  intro fuel
  induction fuel with
  | zero =>
      intro num h
      exact h
  | succ fuel ih =>
      intro num h
      unfold leadingZeros
      split
      · rename_i hle
        simpa using hle
      · rw [pow_succ' 10 (leadingZeros _ _ _ + 1), ← Nat.mul_assoc]
        rw [pow_succ' 10 (fuel + 1), ← Nat.mul_assoc] at h
        exact ih h

/-- The first significant digit counts. -/
theorem pow_leadingExponent_le {num den : ℕ} (hden : 0 < den)
    (hsmall : den ≤ num * 10 ^ (400 + 1)) : 10 ^ leadingExponent num den ≤ (num : ℚ) / den := by
  have hden' : (0 : ℚ) < den := Nat.cast_pos.mpr hden
  unfold leadingExponent
  split
  · rename_i hle
    have hlen : 0 < digitCount (num / den) := Nat.length_toDigits_pos
    have hquot : num / den ≠ 0 := (Nat.div_pos hle hden).ne'
    have hexponent : (digitCount (num / den) : ℤ) - 1 = (digitCount (num / den) - 1 : ℕ) := by
      omega
    rw [hexponent, zpow_natCast]
    refine le_trans ?_ Nat.cast_div_le
    exact_mod_cast pow_digitCount_le hquot
  · have hz := leadingZeros_spec hsmall
    have hexponent : -(leadingZeros den 400 num : ℤ) - 1 =
        -((leadingZeros den 400 num + 1 : ℕ) : ℤ) := by
      push_cast
      ring
    rw [hexponent, zpow_neg, zpow_natCast, le_div_iff₀ hden', inv_mul_le_iff₀ (by positivity),
      mul_comm]
    exact_mod_cast hz

/-- A step of the grid with seventeen digits is smaller than the interval is wide. -/
theorem step_lt_width (b : ℕ) :
    10 ^ (leadingExponent (Interval.ofCode (b + 1)).mid Interval.unit - (17 : ℕ) + 1) <
      (Interval.ofCode (b + 1)).upper - (Interval.ofCode (b + 1)).lower := by
  have hmid : 0 < (Interval.ofCode (b + 1)).mid := by
    have hunits : units 0 < units (b + 1) := units_strictMono (Nat.succ_pos b)
    exact Nat.mul_pos (by decide) (Nat.lt_of_le_of_lt (Nat.zero_le _) hunits)
  have hunit : Interval.unit ≤ 10 ^ (400 + 1) := by decide +kernel
  have htop := pow_leadingExponent_le Interval.unit_pos
    (Nat.le_trans hunit (Nat.le_mul_of_pos_left _ hmid))
  rw [← Interval.center, center_ofCode] at htop
  have hwidth := magnitude_lt_width b
  generalize leadingExponent _ _ = top at *
  have hsplit : (10 : ℚ) ^ top = 10 ^ (top - (17 : ℕ) + 1) * 10 ^ 16 := by
    rw [← zpow_natCast 10 16, ← zpow_add₀ (by decide)]
    congr 1
    push_cast
    ring
  have hpos : (0 : ℚ) < 10 ^ (top - (17 : ℕ) + 1) := zpow_pos (by decide) _
  rw [hsplit] at htop
  linarith

/-! ### The search -/

/-- Zeros at the end of the digits are taken into the exponent. -/
theorem trimZeros_eq (fuel n : ℕ) (e : ℤ) :
    ((trimZeros fuel n e).1 : ℚ) * 10 ^ (trimZeros fuel n e).2 = n * 10 ^ e := by
  induction fuel generalizing n e with
  | zero => rfl
  | succ fuel ih =>
      unfold trimZeros
      split
      · rename_i h
        have hn : n = n / 10 * 10 := by omega
        rw [ih, zpow_add_one₀ (by decide)]
        nth_rewrite 2 [hn]
        push_cast
        ring
      · rfl

/-- The search ends with a point inside, if there is a grid that has one. -/
theorem exists_of_searchGrids {tie : Tie} {i : Interval} {top : ℤ} {n c : ℕ}
    (hpick : i.pick tie (top - c + 1) = some n) (fuel count : ℕ) (hle : count ≤ c)
    (hlt : c < count + fuel) :
    ∃ (m : ℕ) (e : ℤ), i.Inside (m * 10 ^ e) ∧
      searchGrids tie i top fuel count = trimZeros 20 m e := by
  induction fuel generalizing count with
  | zero => omega
  | succ fuel ih =>
      unfold searchGrids
      simp only []
      split
      · rename_i m hm
        exact ⟨m, _, Interval.inside_of_pick hm, rfl⟩
      · rename_i hnone
        have hne : count ≠ c := by
          rintro rfl
          rw [hpick] at hnone
          cases hnone
        exact ih (count + 1) (by omega) (by omega)

/-- **The shortest decimal of a number lies inside its interval.** -/
theorem within_shortest (tie : Tie) (b : ℕ) :
    Within ((shortest tie (b + 1)).1 * 10 ^ (shortest tie (b + 1)).2) (b + 1) := by
  have hlower : (Interval.ofCode (b + 1)).lower < (Interval.ofCode (b + 1)).center := by
    rw [lower_ofCode, center_ofCode]
    exact halfway_lt_of_le (Nat.lt_succ_self b) (le_refl _)
  have hupper : (Interval.ofCode (b + 1)).center < (Interval.ofCode (b + 1)).upper := by
    rw [upper_ofCode, center_ofCode]
    exact lt_halfway_of_le (Nat.lt_succ_self _) (le_refl _)
  obtain ⟨n, hn⟩ := Interval.exists_pick tie hlower hupper (step_lt_width b)
  obtain ⟨m, e, hinside, hsearch⟩ := exists_of_searchGrids hn 17 1 (by decide) (by decide)
  rw [shortest, hsearch, trimZeros_eq]
  exact within_of_inside hinside

end YamlDelta.Decimal
