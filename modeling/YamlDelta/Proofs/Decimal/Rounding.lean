/-
Correct rounding.

The number nearest to a fraction is one that no other number is nearer to, and the one
with the even code where two are equally near (`Nearest`).  There is only one such number,
so whatever finds it finds the same.  In `Nearest` every code has a say; what is checked in
practice is that the fraction lies between the two points halfway to the neighbours
(`Within`), and as the numbers are ordered like their codes that is enough.

`nearestCode` scales the fraction so that its whole part has 53 bits, or all there are of
the smallest spacing.  That part is the multiple below the fraction, the next one lies
above it, and what is rounded decides between these two.  Past the largest number the code
is cut off at infinity, as every fraction from 2^1024 on is nearest to it.
-/
import Mathlib.Algebra.Order.Field.Basic
import Mathlib.Tactic.Linarith
import Mathlib.Tactic.NormNum
import YamlDelta.Proofs.Decimal.Codes

namespace YamlDelta

namespace Binary64

/-- The code is that of the number nearest to a fraction, the even one of two equally near. -/
structure Nearest (q : ℚ) (code : ℕ) : Prop where
  le_infinity : code ≤ infinityCode
  nearest : ∀ c ≤ infinityCode, |q - magnitude code| ≤ |q - magnitude c|
  even : ∀ c ≤ infinityCode, c ≠ code → |q - magnitude code| = |q - magnitude c| → Even code

/-- The number is a fraction with a sign, correctly rounded. -/
structure Rounds (negative : Bool) (q : ℚ) (x : Binary64) : Prop where
  sign : x.isNegative = negative
  nearest : Nearest q x.code

/-! ### Halfway points -/

/-- The point halfway between the numbers of two codes. -/
def halfway (b c : ℕ) : ℚ :=
  (magnitude b + magnitude c) / 2

/-- Of two points the upper one is as near, or nearer, from halfway on. -/
theorem abs_sub_le_iff {a b q : ℚ} (h : a < b) : |q - b| ≤ |q - a| ↔ (a + b) / 2 ≤ q := by
  rw [← sq_le_sq]
  constructor
  · intro hsq
    nlinarith
  · intro hq
    nlinarith

/-- Of two points the lower one is as near, or nearer, up to halfway. -/
theorem abs_sub_le_iff' {a b q : ℚ} (h : a < b) : |q - a| ≤ |q - b| ↔ q ≤ (a + b) / 2 := by
  rw [← sq_le_sq]
  constructor
  · intro hsq
    nlinarith
  · intro hq
    nlinarith

variable {q : ℚ} {b c code : ℕ}

theorem halfway_strictMono (h : b < c) : halfway b code < halfway c code := by
  have hlt := magnitude_strictMono h
  unfold halfway
  linarith

theorem halfway_comm (b c : ℕ) : halfway b c = halfway c b := by
  rw [halfway, halfway, add_comm]

theorem halfway_lt_of_le (h : b < c) (hc : magnitude c ≤ q) : halfway b c < q := by
  have hlt := magnitude_strictMono h
  unfold halfway
  linarith

theorem lt_halfway_of_le (h : b < c) (hb : q ≤ magnitude b) : q < halfway b c := by
  have hlt := magnitude_strictMono h
  unfold halfway
  linarith

/-- A fraction lies between the points halfway to the neighbours of a code; these points themselves
belong to the even code. -/
structure Within (q : ℚ) (code : ℕ) : Prop where
  low : ∀ b, b + 1 = code → halfway b code ≤ q
  lowTie : ∀ b, b + 1 = code → halfway b code = q → Even code
  high : q ≤ halfway code (code + 1)
  highTie : q = halfway code (code + 1) → Even code

/-- From the lower of two neighbours up to the half. -/
theorem within_lower (hlow : magnitude code ≤ q) (hhigh : q ≤ halfway code (code + 1))
    (htie : q = halfway code (code + 1) → Even code) : Within q code where
  low b hb := le_of_lt (halfway_lt_of_le (by omega) hlow)
  lowTie b hb heq := absurd heq (ne_of_lt (halfway_lt_of_le (by omega) hlow))
  high := hhigh
  highTie := htie

/-- From the half up to the upper of two neighbours. -/
theorem within_upper (hlow : halfway code (code + 1) ≤ q) (hhigh : q < magnitude (code + 1))
    (htie : halfway code (code + 1) = q → Even (code + 1)) : Within q (code + 1) where
  low b hb := by
    obtain rfl : b = code := Nat.succ.inj hb
    exact hlow
  lowTie b hb := by
    obtain rfl : b = code := Nat.succ.inj hb
    exact htie
  high := le_of_lt (lt_halfway_of_le (Nat.lt_succ_self _) (le_of_lt hhigh))
  highTie heq := absurd heq (ne_of_lt (lt_halfway_of_le (Nat.lt_succ_self _) (le_of_lt hhigh)))

/-- All lower codes are further away, or else the code is even. -/
theorem Within.below (h : Within q code) (hb : b < code) :
    halfway b code ≤ q ∧ (halfway b code = q → Even code) := by
  obtain ⟨d, rfl⟩ := Nat.exists_eq_add_of_lt hb
  have hpred := h.low (b + d) rfl
  rcases Nat.eq_zero_or_pos d with rfl | hd
  · exact ⟨hpred, h.lowTie b rfl⟩
  · have hlt : halfway b (b + d + 1) < q :=
      lt_of_lt_of_le (halfway_strictMono (by omega)) hpred
    exact ⟨le_of_lt hlt, fun heq => absurd heq (ne_of_lt hlt)⟩

/-- All higher codes are further away, or else the code is even. -/
theorem Within.above (h : Within q code) (hc : code < c) :
    q ≤ halfway code c ∧ (q = halfway code c → Even code) := by
  rcases Nat.lt_or_eq_of_le (Nat.succ_le_of_lt hc) with hlt | rfl
  · have hlt : q < halfway code c := by
      rw [halfway_comm]
      refine lt_of_le_of_lt h.high ?_
      rw [halfway_comm]
      exact halfway_strictMono hlt
    exact ⟨le_of_lt hlt, fun heq => absurd heq (ne_of_lt hlt)⟩
  · exact ⟨h.high, h.highTie⟩

/-- **A fraction between the halfway points is nearest to their code.** -/
theorem Within.nearest (h : Within q code) (hcode : code ≤ infinityCode) : Nearest q code := by
  refine ⟨hcode, fun c _ => ?_, fun c _ hne heq => ?_⟩
  · rcases Nat.lt_trichotomy c code with hc | rfl | hc
    · exact (abs_sub_le_iff (magnitude_strictMono hc)).mpr (h.below hc).1
    · exact le_refl _
    · exact (abs_sub_le_iff' (magnitude_strictMono hc)).mpr (h.above hc).1
  · rcases Nat.lt_or_gt_of_ne hne with hc | hc
    · have hle := (abs_sub_le_iff' (magnitude_strictMono hc)).mp (le_of_eq heq.symm)
      exact (h.below hc).2 (le_antisymm (h.below hc).1 hle)
    · have hle := (abs_sub_le_iff (magnitude_strictMono hc)).mp (le_of_eq heq.symm)
      exact (h.above hc).2 (le_antisymm (h.above hc).1 hle)

/-- From 2^1024 on everything is nearest to infinity. -/
theorem nearest_infinity (h : magnitude infinityCode ≤ q) : Nearest q infinityCode := by
  refine ⟨Nat.le_refl _, fun c hc => ?_, fun _ _ _ _ => by decide⟩
  rcases Nat.lt_or_eq_of_le hc with hlt | rfl
  · exact (abs_sub_le_iff (magnitude_strictMono hlt)).mpr (le_of_lt (halfway_lt_of_le hlt h))
  · exact le_refl _

/-- There is one nearest number. -/
theorem Nearest.unique {c d : ℕ} (hc : Nearest q c) (hd : Nearest q d) : c = d := by
  by_contra hne
  wlog h : c < d generalizing c d
  · exact this hd hc (Ne.symm hne) (by omega)
  have heq : |q - magnitude c| = |q - magnitude d| :=
    le_antisymm (hc.nearest d hd.le_infinity) (hd.nearest c hc.le_infinity)
  obtain ⟨i, hi⟩ := hc.even d hd.le_infinity (Ne.symm hne) heq
  obtain ⟨j, hj⟩ := hd.even c hc.le_infinity hne heq.symm
  -- two even codes leave room for one in between, and that one is nearer
  have hbetween : c + 1 < d := by omega
  have hlow := magnitude_strictMono (Nat.lt_succ_self c)
  have hhigh := magnitude_strictMono hbetween
  have hq := (abs_sub_le_iff (magnitude_strictMono h)).mp (le_of_eq heq.symm)
  have hq' := (abs_sub_le_iff' hlow).mp
    (hc.nearest (c + 1) (Nat.le_of_lt (Nat.lt_of_lt_of_le hbetween hd.le_infinity)))
  linarith

theorem Rounds.unique {negative : Bool} {x y : Binary64} (hx : Rounds negative q x)
    (hy : Rounds negative q y) : x = y := by
  rw [← ofCode_code x, ← ofCode_code y, hx.sign, hy.sign, hx.nearest.unique hy.nearest]

theorem rounds_ofCode (h : Nearest q code) (negative : Bool) :
    Rounds negative q (ofCode negative code) := by
  have hlt := Nat.lt_of_le_of_lt h.le_infinity infinityCode_lt_signBit
  exact ⟨isNegative_ofCode hlt negative, (code_ofCode hlt negative).symm ▸ h⟩

/-! ### Fractions of natural numbers -/

variable {num den n e : ℕ}

theorem div_le_div_two_pow (hden : 0 < den) :
    (num : ℚ) / den ≤ n / 2 ^ e ↔ num * 2 ^ e ≤ n * den := by
  rw [div_le_div_iff₀ (Nat.cast_pos.mpr hden) (pow_pos two_pos e)]
  exact_mod_cast Iff.rfl

theorem div_two_pow_le_div (hden : 0 < den) :
    (n : ℚ) / 2 ^ e ≤ num / den ↔ n * den ≤ num * 2 ^ e := by
  rw [div_le_div_iff₀ (pow_pos two_pos e) (Nat.cast_pos.mpr hden)]
  exact_mod_cast Iff.rfl

theorem halfway_eq (b c : ℕ) : halfway b c = (units b + units c : ℕ) / 2 ^ (1074 + 1) := by
  rw [halfway, magnitude_eq, magnitude_eq, ← add_div, div_div, ← pow_succ, ← Nat.cast_add]

private theorem mul_two_pow_succ (num e : ℕ) : num * 2 ^ (e + 1) = 2 * num <<< e := by
  rw [Nat.shiftLeft_eq, pow_succ]
  ring

theorem div_le_halfway (hden : 0 < den) :
    (num : ℚ) / den ≤ halfway b c ↔ 2 * num <<< 1074 ≤ (units b + units c) * den := by
  rw [halfway_eq, div_le_div_two_pow hden, mul_two_pow_succ]

theorem halfway_le_div (hden : 0 < den) :
    halfway b c ≤ (num : ℚ) / den ↔ (units b + units c) * den ≤ 2 * num <<< 1074 := by
  rw [halfway_eq, div_two_pow_le_div hden, mul_two_pow_succ]

theorem magnitude_le_div (hden : 0 < den) :
    magnitude c ≤ (num : ℚ) / den ↔ units c * den ≤ num <<< 1074 := by
  rw [magnitude_eq, div_two_pow_le_div hden, ← Nat.shiftLeft_eq]

end Binary64

namespace Decimal

open Binary64

/-! ### Rounding a quotient -/

/-- A quotient is rounded down up to the half and up from the half on, and at the half to the even
side. -/
theorem roundHalfEven_cases (num den : ℕ) :
    (roundHalfEven num den = num / den ∧ 2 * num ≤ (2 * (num / den) + 1) * den ∧
        (2 * num = (2 * (num / den) + 1) * den → Even (num / den))) ∨
      (roundHalfEven num den = num / den + 1 ∧ (2 * (num / den) + 1) * den ≤ 2 * num ∧
        ((2 * (num / den) + 1) * den = 2 * num → Even (num / den + 1))) := by
  have hsplit : num = den * (num / den) + num % den := (Nat.div_add_mod num den).symm
  have htwice : (2 * (num / den) + 1) * den = 2 * (den * (num / den)) + den := by ring
  simp only [roundHalfEven, htwice]
  generalize num / den = f, num % den = r at hsplit
  split
  · exact .inl ⟨rfl, by omega, fun h => absurd h (by omega)⟩
  · split
    · exact .inr ⟨rfl, by omega, fun h => absurd h (by omega)⟩
    · rcases Nat.mod_two_eq_zero_or_one f with hf | hf
      · exact .inl ⟨by omega, by omega, fun _ => Nat.even_iff.mpr hf⟩
      · exact .inr ⟨by omega, by omega, fun _ => Nat.even_iff.mpr (by omega)⟩

/-- How often the spacing is doubled until the whole part of the quotient has 53 bits. -/
def doublings (num den : ℕ) : ℕ :=
  ((num <<< 1074) / den).log2 - 52

/-- The scaled quotient has 53 bits, or is in units of the smallest spacing. -/
theorem quotient_bounds (num den : ℕ) :
    (doublings num den = 0 ∨
        exponentBit ≤ num <<< 1074 / (den <<< doublings num den)) ∧
      num <<< 1074 / (den <<< doublings num den) < 2 * exponentBit := by
  rw [Nat.shiftLeft_eq den, ← Nat.div_div_eq_div_mul, doublings]
  generalize num <<< 1074 / den = f
  have hlt : f < 2 ^ (f.log2 + 1) := Nat.lt_log2_self
  rw [Nat.div_lt_iff_lt_mul (Nat.two_pow_pos _), Nat.le_div_iff_mul_le (Nat.two_pow_pos _),
    exponentBit_eq, ← pow_add, ← pow_succ', ← pow_add]
  rcases Nat.lt_or_ge 52 f.log2 with h | h
  · have hne : f ≠ 0 := by
      rintro rfl
      exact absurd h (by decide)
    have hle : 2 ^ f.log2 ≤ f := Nat.log2_self_le hne
    rw [Nat.add_sub_of_le (Nat.le_of_lt h)]
    refine ⟨.inr hle, Nat.lt_of_lt_of_le hlt (Nat.pow_le_pow_right two_pos (by omega))⟩
  · exact ⟨.inl (Nat.sub_eq_zero_of_le h),
      Nat.lt_of_lt_of_le hlt (Nat.pow_le_pow_right two_pos (by omega))⟩

/-- The code before it is cut off at infinity. -/
def unboundedCode (num den : ℕ) : ℕ :=
  doublings num den * exponentBit +
    roundHalfEven (num <<< 1074) (den <<< doublings num den)

theorem nearestCode_eq (num den : ℕ) :
    nearestCode num den = min (unboundedCode num den) infinityCode := rfl

/-- **A fraction lies between the halfway points of what it is rounded to.** -/
theorem within_unboundedCode (num : ℕ) {den : ℕ} (hden : 0 < den) :
    Within ((num : ℚ) / den) (unboundedCode num den) := by
  obtain ⟨hlow, hhigh⟩ := quotient_bounds num den
  have hscaled : 0 < den <<< doublings num den := by
    rw [Nat.shiftLeft_eq]
    exact Nat.mul_pos hden (Nat.two_pow_pos _)
  have hround := roundHalfEven_cases (num <<< 1074) (den <<< doublings num den)
  have hle := Nat.div_mul_le_self (num <<< 1074) (den <<< doublings num den)
  have hlt := Nat.lt_mul_div_succ (num <<< 1074) hscaled
  have hmagnitude : ∀ c, magnitude c ≤ (num : ℚ) / den ↔ units c * den ≤ num <<< 1074 :=
    fun _ => magnitude_le_div hden
  have hupper : ∀ b c, (num : ℚ) / den ≤ halfway b c ↔
      2 * num <<< 1074 ≤ (units b + units c) * den := fun _ _ => div_le_halfway hden
  have hlower : ∀ b c, halfway b c ≤ (num : ℚ) / den ↔
      (units b + units c) * den ≤ 2 * num <<< 1074 := fun _ _ => halfway_le_div hden
  unfold unboundedCode
  generalize num <<< 1074 = scaled at *
  generalize scaled / (den <<< doublings num den) = f at *
  generalize roundHalfEven scaled (den <<< doublings num den) = m at *
  generalize doublings num den = k at *
  rw [Nat.shiftLeft_eq] at hround hle hlt
  -- the whole part and the next multiple are neighbours, and the fraction lies between them
  have hunits := units_scaled hlow (Nat.le_of_lt hhigh)
  have hunits' := units_scaled (hlow.imp_right Nat.le_succ_of_le) (Nat.succ_le_of_lt hhigh)
  have hmid : (units (k * exponentBit + f) + units (k * exponentBit + f + 1)) * den =
      (2 * f + 1) * (den * 2 ^ k) := by
    rw [Nat.add_assoc (k * exponentBit), hunits, hunits', Nat.succ_eq_add_one]
    ring
  have hbelow : magnitude (k * exponentBit + f) ≤ (num : ℚ) / den := by
    rw [hmagnitude, hunits, Nat.mul_assoc, Nat.mul_comm (2 ^ k)]
    exact hle
  have habove : (num : ℚ) / den < magnitude (k * exponentBit + f + 1) := by
    rw [← not_le, hmagnitude, Nat.add_assoc, hunits', not_le, Nat.mul_assoc, Nat.mul_comm,
      Nat.mul_comm (2 ^ k)]
    exact hlt
  have heven : ∀ n, Even (k * exponentBit + n) ↔ Even n := by
    intro n
    rw [Nat.even_add, iff_true_left ((by decide : Even exponentBit).mul_left k)]
  rcases hround with ⟨rfl, hround, htie⟩ | ⟨rfl, hround, htie⟩
  · refine within_lower hbelow ?_ fun heq => ?_
    · rw [hupper, hmid]
      exact hround
    · rw [heven]
      refine htie (Nat.le_antisymm hround ?_)
      rw [← hmid]
      exact (hlower _ _).mp (le_of_eq heq.symm)
  · rw [← Nat.add_assoc]
    refine within_upper ?_ habove fun heq => ?_
    · rw [hlower, hmid]
      exact hround
    · rw [Nat.add_assoc, heven]
      refine htie (Nat.le_antisymm hround ?_)
      rw [← hmid]
      exact (hupper _ _).mp (le_of_eq heq.symm)

/-- **A fraction is rounded to the nearest number.** -/
theorem nearest_nearestCode (num : ℕ) {den : ℕ} (hden : 0 < den) :
    Nearest ((num : ℚ) / den) (nearestCode num den) := by
  have hwithin := within_unboundedCode num hden
  rw [nearestCode_eq]
  rcases Nat.lt_or_ge infinityCode (unboundedCode num den) with hlt | hle
  · rw [Nat.min_eq_right (Nat.le_of_lt hlt)]
    refine nearest_infinity (le_trans ?_ (hwithin.below hlt).1)
    have hmono := magnitude_strictMono hlt
    unfold halfway
    linarith
  · rw [Nat.min_eq_left hle]
    exact hwithin.nearest hle

/-! ### Rounding a decimal -/

/-- The number a decimal denotes, without its sign. -/
def magnitude (d : Decimal) : ℚ :=
  d.digits * 10 ^ d.exponent

theorem lt_pow_digitCount (n : ℕ) : n < 10 ^ digitCount n :=
  (Nat.length_toDigits_le_iff (by decide) Nat.length_toDigits_pos).mp (Nat.le_refl _)

theorem pow_digitCount_le {n : ℕ} (h : n ≠ 0) : 10 ^ (digitCount n - 1) ≤ n := by
  rcases Nat.eq_zero_or_pos (digitCount n - 1) with h0 | hpos
  · rw [h0, Nat.pow_zero]
    exact Nat.pos_of_ne_zero h
  · have hlen : 0 < digitCount n := Nat.length_toDigits_pos
    rw [← Nat.not_lt, ← Nat.length_toDigits_le_iff (by decide) hpos, ← digitCount]
    omega

variable {d : Decimal}

theorem magnitude_lt (d : Decimal) : d.magnitude < 10 ^ (d.exponent + digitCount d.digits) := by
  have hlt : (d.digits : ℚ) < 10 ^ digitCount d.digits := by
    exact_mod_cast lt_pow_digitCount d.digits
  rw [magnitude, zpow_add₀ (by decide), zpow_natCast, mul_comm]
  exact mul_lt_mul_of_pos_left hlt (zpow_pos (by decide) _)

theorem le_magnitude (h : d.digits ≠ 0) :
    10 ^ (d.exponent + digitCount d.digits - 1) ≤ d.magnitude := by
  have hlen : 0 < digitCount d.digits := Nat.length_toDigits_pos
  have hle : (10 : ℚ) ^ (digitCount d.digits - 1) ≤ d.digits := by
    exact_mod_cast pow_digitCount_le h
  have hexponent : d.exponent + digitCount d.digits - 1 =
      d.exponent + (digitCount d.digits - 1 : ℕ) := by
    omega
  rw [magnitude, hexponent, zpow_add₀ (by decide), zpow_natCast, mul_comm]
  exact mul_le_mul_of_nonneg_right hle (zpow_nonneg (by decide) _)

theorem magnitude_infinityCode : Binary64.magnitude infinityCode = 2 ^ (1024 : ℤ) := by
  have hdiv : infinityCode / 2 ^ 52 = 2047 := by decide
  have hmod : infinityCode % 2 ^ 52 = 0 := by decide
  rw [Binary64.magnitude, if_neg (by decide), hdiv, hmod, Nat.cast_zero, add_zero,
    ← zpow_natCast, ← zpow_add₀ (by decide)]
  rfl

/-- Powers are compared as natural numbers. -/
theorem two_zpow_le_ten_zpow {a b : ℕ} (h : 2 ^ a ≤ 10 ^ b) : (2 : ℚ) ^ (a : ℤ) ≤ 10 ^ (b : ℤ) := by
  rw [zpow_natCast, zpow_natCast]
  exact_mod_cast h

/-- From 10^310 on everything is infinite. -/
theorem nearest_of_large {q : ℚ} (h : 10 ^ (310 : ℤ) ≤ q) : Nearest q infinityCode := by
  refine nearest_infinity (le_trans ?_ h)
  rw [magnitude_infinityCode]
  exact two_zpow_le_ten_zpow (a := 1024) (b := 310) (by decide +kernel)

/-- Below 10^-330 everything is zero. -/
theorem nearest_of_small {q : ℚ} (hq : 0 ≤ q) (h : q < 10 ^ (-330 : ℤ)) : Nearest q 0 := by
  have hhalf : q < halfway 0 1 := by
    refine lt_of_lt_of_le h ?_
    rw [halfway_eq, units_zero, units_one, Nat.zero_add, Nat.cast_one, one_div, zpow_neg,
      ← zpow_natCast]
    exact inv_anti₀ (zpow_pos two_pos _)
      (two_zpow_le_ten_zpow (a := 1075) (b := 330) (by decide +kernel))
  refine (within_lower ?_ (le_of_lt hhalf) fun heq => absurd heq (ne_of_lt hhalf)).nearest
    (Nat.zero_le _)
  rw [magnitude_eq, units_zero, Nat.cast_zero, zero_div]
  exact hq

theorem magnitude_nonneg (d : Decimal) : 0 ≤ d.magnitude :=
  mul_nonneg (Nat.cast_nonneg _) (zpow_nonneg (by decide) _)

/-- **A decimal is rounded to the nearest number**, whether or not the fraction is formed. -/
theorem nearest_magnitudeCode (d : Decimal) : Nearest d.magnitude d.magnitudeCode := by
  by_cases hzero : d.digits = 0
  · have hmagnitude : d.magnitude = 0 := by
      rw [magnitude, hzero, Nat.cast_zero, zero_mul]
    rw [magnitudeCode, if_pos hzero, hmagnitude]
    exact nearest_of_small (le_refl _) (zpow_pos (by decide) _)
  · unfold magnitudeCode
    rw [if_neg hzero]
    simp only []
    split
    · rename_i hlarge
      refine nearest_of_large (le_trans ?_ (le_magnitude hzero))
      exact zpow_le_zpow_right₀ (by decide) (by omega)
    · split
      · rename_i hsmall
        refine nearest_of_small d.magnitude_nonneg (lt_of_lt_of_le d.magnitude_lt ?_)
        exact zpow_le_zpow_right₀ (by decide) (by omega)
      · have hexponent : d.magnitude = d.digits * 10 ^ d.exponent := rfl
        split
        · rename_i k hk
          have hq : d.magnitude = ((d.digits * Nat.pow 10 k : ℕ) : ℚ) / (1 : ℕ) := by
            rw [hexponent, hk, Int.ofNat_eq_natCast, zpow_natCast, Nat.cast_one, div_one,
              Nat.pow_eq]
            push_cast
            rfl
          rw [hq]
          exact nearest_nearestCode _ Nat.one_pos
        · rename_i k hk
          have hq : d.magnitude = (d.digits : ℚ) / (Nat.pow 10 (k + 1) : ℕ) := by
            rw [hexponent, hk, zpow_negSucc, Nat.pow_eq, div_eq_mul_inv]
            push_cast
            rfl
          rw [hq]
          exact nearest_nearestCode _ (Nat.pow_pos (by decide))

theorem rounds_toBinary64 (d : Decimal) : Rounds d.negative d.magnitude d.toBinary64 :=
  rounds_ofCode (nearest_magnitudeCode d) d.negative

end Decimal

end YamlDelta
