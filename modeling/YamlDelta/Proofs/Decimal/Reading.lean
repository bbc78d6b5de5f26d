/-
Decimals are read as what they denote.

Every reader is matched with the rule of the grammar that it implements: signs and
integers, the mantissa, the exponent, and with them the decimal that is read from a text
(`number_iff`), which is the number of the grammar before it is rounded.  The readers cut
a text at a sign, at a point and at the letter of an exponent, and a rule puts its parts
together, so each proof is about where the first such character stands.
-/
import Mathlib.Data.List.TakeWhile
import Mathlib.Tactic.FieldSimp
import YamlDelta.Proofs.Decimal.Rounding
import YamlDelta.Proofs.Node.Numerals

namespace YamlDelta

open Text Numeral

/-! ### Signs and integers -/

theorem digits_decimal {cs : List Char} {n : ℕ} :
    Digits 10 cs n ↔ isRun Char.isDigit cs = true ∧ ofDigits 10 cs = n :=
  digits_iff isClass_decimal

theorem splitSign_spec (cs : List Char) :
    ∃ sign, Sign sign (splitSign cs).1 ∧ sign ++ (splitSign cs).2 = cs := by
  unfold splitSign
  split
  · exact ⟨['-'], .minus, rfl⟩
  · exact ⟨['+'], .plus, rfl⟩
  · exact ⟨[], .absent, rfl⟩

/-- A sign is found in front of anything that has none. -/
theorem splitSign_append {sign cs : List Char} {negative : Bool} (h : Sign sign negative)
    (hcs : ∀ c, cs.head? = some c → c ≠ '-' ∧ c ≠ '+') :
    splitSign (sign ++ cs) = (negative, cs) := by
  cases h with
  | plus => rfl
  | minus => rfl
  | absent =>
      rw [List.nil_append]
      unfold splitSign
      split
      · exact absurd rfl (hcs '-' rfl).1
      · exact absurd rfl (hcs '+' rfl).2
      · rfl

theorem head_of_run {cs : List Char} (h : isRun Char.isDigit cs = true) :
    ∀ c, cs.head? = some c → c ≠ '-' ∧ c ≠ '+' := by
  intro c hc
  have hdigit : c.isDigit = true := (isRun_iff.mp h).2 c (List.mem_of_mem_head? hc)
  exact ⟨ne_of_isDigit hdigit rfl, ne_of_isDigit hdigit rfl⟩

theorem decimalInteger_iff {cs : List Char} {n : ℤ} :
    DecimalInteger cs n ↔ isRun Char.isDigit (splitSign cs).2 = true ∧
      signed (splitSign cs).1 (ofDigits 10 (splitSign cs).2) = n := by
  constructor
  · intro h
    obtain ⟨hsign, hdigits⟩ := h
    obtain ⟨hrun, rfl⟩ := digits_decimal.mp hdigits
    rw [splitSign_append hsign (head_of_run hrun)]
    exact ⟨hrun, rfl⟩
  · intro h
    obtain ⟨hrun, rfl⟩ := h
    obtain ⟨sign, hsign, hcs⟩ := splitSign_spec cs
    have hnumeral := DecimalInteger.mk hsign (digits_decimal.mpr ⟨hrun, rfl⟩)
    rw [hcs] at hnumeral
    exact hnumeral

/-! ### Decimals -/

namespace Decimal

theorem splitFirst_eq (p : Char → Bool) (cs : List Char) :
    splitFirst p cs = match cs.dropWhile (!p ·) with
      | [] => (cs.takeWhile (!p ·), none)
      | _ :: after => (cs.takeWhile (!p ·), some after) := by
  rw [splitFirst, List.span_eq_takeWhile_dropWhile]
  cases cs.dropWhile (!p ·) <;> rfl

variable {p : Char → Bool} {cs before after : List Char}

theorem splitFirst_of_none (h : ∀ c ∈ cs, p c = false) : splitFirst p cs = (cs, none) := by
  have hall : ∀ c ∈ cs, (!p c) = true := fun c hc => by simp [h c hc]
  rw [splitFirst_eq, List.dropWhile_eq_nil_iff.mpr hall, List.takeWhile_eq_self_iff.mpr hall]

theorem splitFirst_append {c : Char} (h : ∀ c ∈ before, p c = false) (hc : p c = true) :
    splitFirst p (before ++ c :: after) = (before, some after) := by
  have hall : ∀ c ∈ before, (!p c) = true := fun c hc => by simp [h c hc]
  rw [splitFirst_eq, List.dropWhile_append_of_pos hall, List.takeWhile_append_of_pos hall]
  simp [hc]

/-- Either the class does not occur, or the text is split at its first character of it. -/
theorem splitFirst_cases (p : Char → Bool) (cs : List Char) :
    (splitFirst p cs = (cs, none) ∧ ∀ c ∈ cs, p c = false) ∨
      ∃ before c after, cs = before ++ c :: after ∧ p c = true ∧ (∀ c ∈ before, p c = false) ∧
        splitFirst p cs = (before, some after) := by
  by_cases h : ∀ c ∈ cs, p c = false
  · exact .inl ⟨splitFirst_of_none h, h⟩
  · refine .inr ?_
    obtain ⟨before, c, after, rfl, hbefore, hc⟩ :
        ∃ before c after, cs = before ++ c :: after ∧ (∀ c ∈ before, p c = false) ∧
          p c = true := by
      have hany : cs.any p = true := by simpa using h
      have hfind := List.find?_isSome.mpr (List.any_eq_true.mp hany)
      obtain ⟨c, hfind⟩ := Option.isSome_iff_exists.mp hfind
      obtain ⟨hc, before, after, hcs, hbefore⟩ := List.find?_eq_some_iff_append.mp hfind
      exact ⟨before, c, after, hcs, by simpa using hbefore, hc⟩
    exact ⟨before, c, after, rfl, hc, hbefore, splitFirst_append hbefore hc⟩

theorem mantissa?_of_no_point (h : ∀ c ∈ cs, (c == '.') = false) :
    mantissa? cs = if isRun Char.isDigit cs then some (cs, 0) else none := by
  rw [mantissa?, splitFirst_of_none h]
  simp only [Option.getD_none, List.append_nil, List.length_nil]

theorem mantissa?_append (h : ∀ c ∈ before, (c == '.') = false) :
    mantissa? (before ++ '.' :: after) =
      if isRun Char.isDigit (before ++ after) then some (before ++ after, after.length)
      else none := by
  rw [mantissa?, splitFirst_append h rfl]
  rfl

theorem not_point_of_run (h : isRun Char.isDigit cs = true) : ∀ c ∈ cs, (c == '.') = false := by
  intro c hc
  have hdigit : c.isDigit = true := (isRun_iff.mp h).2 c hc
  exact beq_eq_false_iff_ne.mpr (ne_of_isDigit hdigit rfl)

/-- Digits behind the point are worth a fraction of what they denote. -/
theorem ofDigits_append_div (cs ds : List Char) :
    (ofDigits 10 (cs ++ ds) : ℚ) / 10 ^ ds.length =
      ofDigits 10 cs + ofDigits 10 ds / 10 ^ ds.length := by
  rw [ofDigits_append]
  push_cast
  field_simp

/-- The point stands before, after or among the digits. -/
theorem mantissa_of_run (before after : List Char)
    (h : isRun Char.isDigit (before ++ after) = true) :
    Mantissa (before ++ '.' :: after)
      (ofDigits 10 (before ++ after) / 10 ^ after.length) := by
  by_cases hbefore : before = []
  · subst hbefore
    exact .fraction (digits_decimal.mpr ⟨h, rfl⟩)
  by_cases hafter : after = []
  · subst hafter
    rw [List.append_nil] at h
    rw [List.append_nil, List.length_nil, pow_zero, div_one]
    exact .point (digits_decimal.mpr ⟨h, rfl⟩)
  · have hall := (isRun_iff.mp h).2
    rw [ofDigits_append_div]
    refine .both (digits_decimal.mpr ⟨isRun_iff.mpr ⟨hbefore, fun c hc => ?_⟩, rfl⟩)
      (digits_decimal.mpr ⟨isRun_iff.mpr ⟨hafter, fun c hc => ?_⟩, rfl⟩)
    · exact hall c (List.mem_append_left _ hc)
    · exact hall c (List.mem_append_right _ hc)

/-- What is read of a mantissa is what it denotes. -/
theorem mantissa_iff {q : ℚ} :
    Mantissa cs q ↔ ∃ digits places, mantissa? cs = some (digits, places) ∧
      q = ofDigits 10 digits / 10 ^ places := by
  constructor
  · intro h
    cases h with
    | @fraction ds f hf =>
        obtain ⟨hrun, rfl⟩ := digits_decimal.mp hf
        refine ⟨ds, ds.length, ?_, rfl⟩
        exact (mantissa?_append (List.forall_mem_nil _)).trans (if_pos hrun)
    | @whole _ n hn =>
        obtain ⟨hrun, rfl⟩ := digits_decimal.mp hn
        refine ⟨cs, 0, ?_, by rw [pow_zero, div_one]⟩
        rw [mantissa?_of_no_point (not_point_of_run hrun), if_pos hrun]
    | @point ds n hn =>
        obtain ⟨hrun, rfl⟩ := digits_decimal.mp hn
        refine ⟨ds, 0, ?_, by rw [pow_zero, div_one]⟩
        rw [mantissa?_append (not_point_of_run hrun), List.append_nil, if_pos hrun,
          List.length_nil]
    | @both ds fs n f hn hf =>
        obtain ⟨hrun, rfl⟩ := digits_decimal.mp hn
        obtain ⟨hrun', rfl⟩ := digits_decimal.mp hf
        refine ⟨ds ++ fs, fs.length, ?_, (ofDigits_append_div ds fs).symm⟩
        rw [mantissa?_append (not_point_of_run hrun), if_pos (isRun_append hrun hrun')]
  · intro h
    obtain ⟨digits, places, hread, rfl⟩ := h
    rcases splitFirst_cases (· == '.') cs with
      ⟨-, hnone⟩ | ⟨before, c, after, rfl, hc, hbefore, -⟩
    · rw [mantissa?_of_no_point hnone, Option.ite_none_right_eq_some] at hread
      obtain ⟨hrun, heq⟩ := hread
      cases heq
      rw [pow_zero, div_one]
      exact .whole (digits_decimal.mpr ⟨hrun, rfl⟩)
    · obtain rfl : c = '.' := beq_iff_eq.mp hc
      rw [mantissa?_append hbefore, Option.ite_none_right_eq_some] at hread
      obtain ⟨hrun, heq⟩ := hread
      cases heq
      exact mantissa_of_run _ _ hrun

/-- What is read of an exponent is what it denotes. -/
theorem exponent_some {e : ℤ} : exponent? (some cs) = some e ↔ DecimalInteger cs e := by
  rw [decimalInteger_iff]
  simp only [exponent?, Option.ite_none_right_eq_some, Option.some.injEq]

/-- The letter that begins an exponent. -/
abbrev isMark (c : Char) : Bool :=
  c == 'e' || c == 'E'

theorem isMark_iff {c : Char} : isMark c = true ↔ c = 'e' ∨ c = 'E' := by
  simp [isMark]

/-- An exponent is split off where it begins. -/
theorem exponent_read {e : ℤ} (h : ∀ c ∈ before, isMark c = false) (he : Exponent after e) :
    (splitFirst isMark (before ++ after)).1 = before ∧
      exponent? (splitFirst isMark (before ++ after)).2 = some e := by
  cases he with
  | absent =>
      rw [List.append_nil, splitFirst_of_none h]
      exact ⟨rfl, rfl⟩
  | present hmark he =>
      rw [splitFirst_append h (isMark_iff.mpr hmark)]
      exact ⟨rfl, exponent_some.mpr he⟩

theorem exponent_of_read {e : ℤ} (h : exponent? (splitFirst isMark cs).2 = some e) :
    ∃ rest, Exponent rest e ∧ (splitFirst isMark cs).1 ++ rest = cs := by
  rcases splitFirst_cases isMark cs with
    ⟨hsplit, -⟩ | ⟨before, c, after, rfl, hc, -, hsplit⟩
  · rw [hsplit] at h ⊢
    obtain rfl : 0 = e := Option.some.inj h
    exact ⟨[], .absent, List.append_nil cs⟩
  · rw [hsplit] at h ⊢
    exact ⟨c :: after, .present (isMark_iff.mp hc) (exponent_some.mp h), rfl⟩

/-- A mantissa begins with a digit or the point and consists of these. -/
theorem forall_mem_mantissa {q : ℚ} (h : Mantissa cs q) :
    cs ≠ [] ∧ ∀ c ∈ cs, c.isDigit = true ∨ c = '.' := by
  have hdigits : ∀ {ds n}, Digits 10 ds n → ds ≠ [] ∧ ∀ c ∈ ds, c.isDigit = true :=
    fun h => isRun_iff.mp (digits_decimal.mp h).1
  cases h with
  | fraction hf => simpa using fun c hc => .inl ((hdigits hf).2 c hc)
  | whole hn => exact ⟨(hdigits hn).1, fun c hc => .inl ((hdigits hn).2 c hc)⟩
  | point hn =>
      refine ⟨by simp, fun c hc => ?_⟩
      rcases List.mem_append.mp hc with hc | hc
      · exact .inl ((hdigits hn).2 c hc)
      · exact .inr (List.mem_singleton.mp hc)
  | both hn hf =>
      refine ⟨by simp, fun c hc => ?_⟩
      rcases List.mem_append.mp hc with hc | hc
      · exact .inl ((hdigits hn).2 c hc)
      · rcases List.mem_cons.mp hc with hc | hc
        · exact .inr hc
        · exact .inl ((hdigits hf).2 c hc)

/-- It does not begin with a sign, whatever follows. -/
theorem head_of_mantissa {q : ℚ} (h : Mantissa cs q) (rest : List Char) :
    ∀ c, (cs ++ rest).head? = some c → c ≠ '-' ∧ c ≠ '+' := by
  obtain ⟨hne, hmem⟩ := forall_mem_mantissa h
  intro c hc
  rw [List.head?_append_of_ne_nil cs hne] at hc
  rcases hmem c (List.mem_of_mem_head? hc) with hdigit | rfl
  · exact ⟨ne_of_isDigit hdigit rfl, ne_of_isDigit hdigit rfl⟩
  · decide

/-- The letter of an exponent is not in it. -/
theorem not_mark_of_mantissa {q : ℚ} (h : Mantissa cs q) : ∀ c ∈ cs, isMark c = false := by
  intro c hc
  rw [Bool.eq_false_iff, Ne, isMark_iff, not_or]
  rcases (forall_mem_mantissa h).2 c hc with hdigit | rfl
  · exact ⟨ne_of_isDigit hdigit rfl, ne_of_isDigit hdigit rfl⟩
  · decide

theorem ofText?_iff {d : Decimal} :
    ofText? cs = some d ↔ ∃ digits places e,
      mantissa? (splitFirst isMark (splitSign cs).2).1 = some (digits, places) ∧
        exponent? (splitFirst isMark (splitSign cs).2).2 = some e ∧
        ⟨(splitSign cs).1, ofDigits 10 digits, e - places⟩ = d := by
  simp only [ofText?, Option.bind_eq_bind, Option.bind_eq_some_iff, Prod.exists, Option.some.injEq,
    exists_and_left]

theorem magnitude_sub (negative : Bool) (n places : ℕ) (e : ℤ) :
    magnitude ⟨negative, n, e - places⟩ = n / 10 ^ places * 10 ^ e := by
  rw [magnitude, zpow_sub₀ (by decide), zpow_natCast]
  ring

/-- **The decimal that is read is the number denoted.** -/
theorem number_iff {negative : Bool} {q : ℚ} :
    Number cs negative q ↔ ∃ d, ofText? cs = some d ∧ d.negative = negative ∧ d.magnitude = q := by
  constructor
  · intro h
    obtain ⟨hsign, hmantissa, hexponent⟩ := h
    rename_i sign m rest q e
    obtain ⟨digits, places, hread, rfl⟩ := mantissa_iff.mp hmantissa
    obtain ⟨hsplit, hexp⟩ := exponent_read (not_mark_of_mantissa hmantissa) hexponent
    refine ⟨⟨negative, ofDigits 10 digits, e - places⟩, ?_, rfl, magnitude_sub ..⟩
    rw [ofText?_iff, List.append_assoc, splitSign_append hsign (head_of_mantissa hmantissa rest)]
    exact ⟨digits, places, e, by rw [hsplit, hread], hexp, rfl⟩
  · intro h
    obtain ⟨d, hread, rfl, rfl⟩ := h
    obtain ⟨digits, places, e, hmantissa, hexponent, rfl⟩ := ofText?_iff.mp hread
    obtain ⟨sign, hsign, hbody⟩ := splitSign_spec cs
    obtain ⟨rest, hrest, hsplit⟩ := exponent_of_read hexponent
    have hnumber := Number.mk hsign (mantissa_iff.mpr ⟨digits, places, hmantissa, rfl⟩) hrest
    rw [List.append_assoc, hsplit, hbody] at hnumber
    rw [magnitude_sub]
    exact hnumber

/-- An integer consists of digits and signs. -/
theorem forall_mem_decimalInteger {n : ℤ} (h : DecimalInteger cs n) :
    ∀ c ∈ cs, c.isDigit = true ∨ c = '-' ∨ c = '+' := by
  obtain ⟨hsign, hdigits⟩ := h
  have hrun := (isRun_iff.mp (digits_decimal.mp hdigits).1).2
  intro c hc
  rcases List.mem_append.mp hc with hc | hc
  · cases hsign with
    | absent => exact absurd hc List.not_mem_nil
    | plus => exact .inr (.inr (List.mem_singleton.mp hc))
    | minus => exact .inr (.inl (List.mem_singleton.mp hc))
  · exact .inl (hrun c hc)

/-- The characters of a decimal number. -/
def isNumeric (c : Char) : Bool :=
  c.isDigit || c == '-' || c == '+' || c == '.' || isMark c

theorem isNumeric_of_mem_decimalInteger {n : ℤ} (h : DecimalInteger cs n) {c : Char}
    (hc : c ∈ cs) : isNumeric c = true := by
  rcases forall_mem_decimalInteger h c hc with hdigit | rfl | rfl
  · simp [isNumeric, hdigit]
  · rfl
  · rfl

theorem isNumeric_of_mem_number {negative : Bool} {q : ℚ} (h : Number cs negative q) {c : Char}
    (hc : c ∈ cs) : isNumeric c = true := by
  obtain ⟨hsign, hmantissa, hexponent⟩ := h
  rw [List.mem_append, List.mem_append] at hc
  rcases hc with (hc | hc) | hc
  · -- a sign is also that of an integer
    exact isNumeric_of_mem_decimalInteger (.mk hsign (.one (c := '0') (v := 0) (by decide)))
      (List.mem_append_left _ hc)
  · rcases (forall_mem_mantissa hmantissa).2 c hc with hdigit | rfl
    · simp [isNumeric, hdigit]
    · rfl
  · cases hexponent with
    | absent => exact absurd hc List.not_mem_nil
    | present hmark h =>
        rcases List.mem_cons.mp hc with rfl | hc
        · simp [isNumeric, isMark_iff.mpr hmark]
        · exact isNumeric_of_mem_decimalInteger h hc

/-- A decimal number has no prefix. -/
theorem ne_prefix_of_number {negative : Bool} {q : ℚ} {c : Char}
    (h : Number ('0' :: c :: cs) negative q) : c ≠ 'x' ∧ c ≠ 'o' := by
  have hnumeric := isNumeric_of_mem_number h (c := c) (by simp)
  constructor
  · rintro rfl
    exact absurd hnumeric (by decide)
  · rintro rfl
    exact absurd hnumeric (by decide)

/-- Rounding depends on the number, not on how it is split into digits and exponent. -/
theorem toBinary64_congr {d d' : Decimal} (hnegative : d.negative = d'.negative)
    (hmagnitude : d.magnitude = d'.magnitude) : d.toBinary64 = d'.toBinary64 := by
  have hrounds := rounds_toBinary64 d
  rw [hnegative, hmagnitude] at hrounds
  exact hrounds.unique (rounds_toBinary64 d')

/-- Reading a number and rounding it is correct rounding of what it denotes. -/
theorem exists_rounds_iff {x : Binary64} :
    (∃ negative q, Number cs negative q ∧ x.Rounds negative q) ↔
      ∃ d, ofText? cs = some d ∧ d.toBinary64 = x := by
  simp only [number_iff]
  constructor
  · intro h
    obtain ⟨_, _, ⟨d, hread, rfl, rfl⟩, hrounds⟩ := h
    exact ⟨d, hread, (rounds_toBinary64 d).unique hrounds⟩
  · intro h
    obtain ⟨d, hread, rfl⟩ := h
    exact ⟨_, _, ⟨d, hread, rfl, rfl⟩, rounds_toBinary64 d⟩

end Decimal

end YamlDelta
