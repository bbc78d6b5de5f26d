/-
The numerals of the core schema.

What counts as a number is given twice.  As regular languages (`integers`, `prefixed`,
`numbers`), written the way the schema writes them, it is a matter of spelling alone.  As
a grammar whose rules carry a value (`DecimalInteger`, `PrefixedInteger`, `Number`) it
also says what is denoted: an integer, or a sign and a magnitude, for the two zeros
differ in nothing else.  The magnitude is a rational number, so nothing is rounded here.

Both accept the same texts.
-/
import Mathlib.Algebra.Order.Field.Rat
import Mathlib.Computability.Language
import YamlDelta.Node.Resolution
import YamlDelta.Proofs.Text.Digits

namespace YamlDelta.Numeral

open Text
open scoped Computability

/-! ### Spelling -/

/-- A single character, one of those listed. -/
def anyOf (s : String) : Language Char :=
  {w | ∃ c ∈ s.toList, w = [c]}

/-- Nothing, or a word of the language. -/
def maybe (L : Language Char) : Language Char :=
  1 + L

/-- One word of the language or several in a row. -/
def many (L : Language Char) : Language Char :=
  L * L∗

/-- A sign that may be missing: `[-+]?`. -/
def signs : Language Char :=
  maybe (anyOf "-+")

/-- `[0-9]+` -/
def decimals : Language Char :=
  many (anyOf "0123456789")

/-- `[-+]?[0-9]+` -/
def integers : Language Char :=
  signs * decimals

/-- `0x[0-9a-fA-F]+|0o[0-7]+` -/
def prefixed : Language Char :=
  anyOf "0" * anyOf "x" * many (anyOf "0123456789abcdefABCDEF") +
    anyOf "0" * anyOf "o" * many (anyOf "01234567")

/-- `\.[0-9]+|[0-9]+(\.[0-9]*)?` -/
def mantissas : Language Char :=
  anyOf "." * decimals + decimals * maybe (anyOf "." * (anyOf "0123456789")∗)

/-- `[-+]?(\.[0-9]+|[0-9]+(\.[0-9]*)?)([eE][-+]?[0-9]+)?` -/
def numbers : Language Char :=
  signs * mantissas * maybe (anyOf "eE" * integers)

/-! ### Meaning -/

/-- A sign that may be missing; true stands for minus. -/
inductive Sign : List Char → Bool → Prop
  | absent : Sign [] false
  | plus : Sign ['+'] false
  | minus : Sign ['-'] true

/-- A decimal integer with the number it denotes. -/
inductive DecimalInteger : List Char → ℤ → Prop
  | mk {sign digits : List Char} {negative : Bool} {n : ℕ} (hsign : Sign sign negative)
      (hdigits : Digits 10 digits n) :
      DecimalInteger (sign ++ digits) (if negative then -n else n)

/-- A hexadecimal or octal integer with the number it denotes. -/
inductive PrefixedInteger : List Char → ℤ → Prop
  | hexadecimal {digits : List Char} {n : ℕ} (h : Digits 16 digits n) :
      PrefixedInteger ('0' :: 'x' :: digits) n
  | octal {digits : List Char} {n : ℕ} (h : Digits 8 digits n) :
      PrefixedInteger ('0' :: 'o' :: digits) n

/-- Digits with or without a point, which may stand before, after or among them. -/
inductive Mantissa : List Char → ℚ → Prop
  | fraction {ds : List Char} {f : ℕ} (hf : Digits 10 ds f) :
      Mantissa ('.' :: ds) (f / 10 ^ ds.length)
  | whole {cs : List Char} {n : ℕ} (hn : Digits 10 cs n) : Mantissa cs n
  | point {cs : List Char} {n : ℕ} (hn : Digits 10 cs n) : Mantissa (cs ++ ['.']) n
  | both {cs ds : List Char} {n f : ℕ} (hn : Digits 10 cs n) (hf : Digits 10 ds f) :
      Mantissa (cs ++ '.' :: ds) (n + f / 10 ^ ds.length)

/-- An exponent that may be missing. -/
inductive Exponent : List Char → ℤ → Prop
  | absent : Exponent [] 0
  | present {c : Char} {cs : List Char} {e : ℤ} (hmark : c = 'e' ∨ c = 'E')
      (h : DecimalInteger cs e) : Exponent (c :: cs) e

/-- A decimal number with its sign and its magnitude. -/
inductive Number : List Char → Bool → ℚ → Prop
  | mk {sign mantissa exponent : List Char} {negative : Bool} {q : ℚ} {e : ℤ}
      (hsign : Sign sign negative) (hmantissa : Mantissa mantissa q)
      (hexponent : Exponent exponent e) :
      Number (sign ++ mantissa ++ exponent) negative (q * 10 ^ e)

/-! ### The same texts -/

theorem mem_anyOf {s : String} {w : List Char} : w ∈ anyOf s ↔ ∃ c ∈ s.toList, w = [c] := Iff.rfl

theorem mem_maybe {L : Language Char} {w : List Char} : w ∈ maybe L ↔ w = [] ∨ w ∈ L := by
  rw [maybe, Language.mem_add, Language.mem_one]

theorem mem_kstar_anyOf {s : String} {w : List Char} :
    w ∈ (anyOf s)∗ ↔ ∀ c ∈ w, c ∈ s.toList := by
  rw [Language.mem_kstar]
  constructor
  · intro h c hc
    obtain ⟨ws, rfl, hws⟩ := h
    obtain ⟨v, hv, hcv⟩ := List.mem_flatten.mp hc
    obtain ⟨d, hd, rfl⟩ := hws v hv
    rw [List.mem_singleton.mp hcv]
    exact hd
  · intro h
    refine ⟨w.map fun c => [c], ?_, fun v hv => ?_⟩
    · rw [← List.flatMap_def, List.flatMap_singleton']
    · obtain ⟨c, hc, rfl⟩ := List.mem_map.mp hv
      exact ⟨c, h c hc, rfl⟩

theorem mem_many_anyOf {s : String} {w : List Char} :
    w ∈ many (anyOf s) ↔ w ≠ [] ∧ ∀ c ∈ w, c ∈ s.toList := by
  simp only [many, Language.mem_mul, mem_kstar_anyOf]
  constructor
  · intro h
    obtain ⟨_, ⟨c, hc, rfl⟩, v, hv, rfl⟩ := h
    simpa using ⟨hc, hv⟩
  · intro h
    cases w with
    | nil => exact absurd rfl h.1
    | cons c cs =>
        have hall := List.forall_mem_cons.mp h.2
        exact ⟨[c], ⟨c, hall.1, rfl⟩, cs, hall.2, rfl⟩

/-- The digits of a base are rows of the characters listed, if these are its digits. -/
theorem exists_digits_iff {p : Char → Bool} {base : ℕ} (hp : IsClass p base) {s : String}
    (hlisted : s.toList.all p = true)
    (hall : ∀ v < base, v.digitChar ∈ s.toList ∧ v.digitChar.toUpper ∈ s.toList) {w : List Char} :
    (∃ n, Digits base w n) ↔ w ∈ many (anyOf s) := by
  have hmem : ∀ c, p c = true ↔ c ∈ s.toList := by
    intro c
    constructor
    · intro h
      obtain ⟨hlt, hc⟩ := (hp c _).mpr ⟨h, rfl⟩
      rcases hc with hc | hc
      · exact hc ▸ (hall _ hlt).1
      · exact hc ▸ (hall _ hlt).2
    · exact List.all_eq_true.mp hlisted c
  simp only [digits_iff hp, exists_and_left, exists_eq', and_true, isRun_iff, hmem,
    mem_many_anyOf]

theorem exists_decimal_iff {w : List Char} : (∃ n, Digits 10 w n) ↔ w ∈ decimals :=
  exists_digits_iff isClass_decimal (by decide) (by decide)

theorem exists_sign_iff {w : List Char} : (∃ negative, Sign w negative) ↔ w ∈ signs := by
  rw [signs, mem_maybe, mem_anyOf]
  constructor
  · intro h
    obtain ⟨negative, h⟩ := h
    cases h with
    | absent => exact .inl rfl
    | plus => exact .inr ⟨'+', by decide, rfl⟩
    | minus => exact .inr ⟨'-', by decide, rfl⟩
  · intro h
    rcases h with rfl | ⟨c, hc, rfl⟩
    · exact ⟨_, .absent⟩
    · have hcases : c = '-' ∨ c = '+' := by simpa using hc
      rcases hcases with rfl | rfl
      · exact ⟨_, .minus⟩
      · exact ⟨_, .plus⟩

/-- The decimal integers are `[-+]?[0-9]+`. -/
theorem exists_decimalInteger_iff {w : List Char} :
    (∃ n, DecimalInteger w n) ↔ w ∈ integers := by
  rw [integers, Language.mem_mul]
  constructor
  · intro h
    obtain ⟨_, ⟨hsign, hdigits⟩⟩ := h
    exact ⟨_, exists_sign_iff.mp ⟨_, hsign⟩, _, exists_decimal_iff.mp ⟨_, hdigits⟩, rfl⟩
  · intro h
    obtain ⟨sign, hsign, digits, hdigits, rfl⟩ := h
    obtain ⟨negative, hsign⟩ := exists_sign_iff.mpr hsign
    obtain ⟨n, hdigits⟩ := exists_decimal_iff.mpr hdigits
    exact ⟨_, .mk hsign hdigits⟩

theorem mem_prefix_mul {a b : String} {c d : Char} (ha : a.toList = [c]) (hb : b.toList = [d])
    {L : Language Char} {w : List Char} :
    w ∈ anyOf a * anyOf b * L ↔ ∃ v ∈ L, c :: d :: v = w := by
  simp only [Language.mem_mul, mem_anyOf, ha, hb, List.mem_singleton]
  constructor
  · intro h
    obtain ⟨_, ⟨_, ⟨_, rfl, rfl⟩, _, ⟨_, rfl, rfl⟩, rfl⟩, v, hv, rfl⟩ := h
    exact ⟨v, hv, rfl⟩
  · intro h
    obtain ⟨v, hv, rfl⟩ := h
    exact ⟨[c, d], ⟨[c], ⟨c, rfl, rfl⟩, [d], ⟨d, rfl, rfl⟩, rfl⟩, v, hv, rfl⟩

/-- The integers with a prefix are `0x[0-9a-fA-F]+|0o[0-7]+`. -/
theorem exists_prefixedInteger_iff {w : List Char} :
    (∃ n, PrefixedInteger w n) ↔ w ∈ prefixed := by
  have hhex : ∀ {v}, (∃ n, Digits 16 v n) ↔ v ∈ many (anyOf "0123456789abcdefABCDEF") :=
    exists_digits_iff isClass_hex (by decide) (by decide)
  have hoctal : ∀ {v}, (∃ n, Digits 8 v n) ↔ v ∈ many (anyOf "01234567") :=
    exists_digits_iff isClass_octal (by decide) (by decide)
  rw [prefixed, Language.mem_add, mem_prefix_mul (c := '0') (d := 'x') rfl rfl,
    mem_prefix_mul (c := '0') (d := 'o') rfl rfl]
  simp only [← hhex, ← hoctal]
  constructor
  · intro h
    obtain ⟨_, h | h⟩ := h
    · exact .inl ⟨_, ⟨_, h⟩, rfl⟩
    · exact .inr ⟨_, ⟨_, h⟩, rfl⟩
  · intro h
    rcases h with ⟨v, ⟨n, h⟩, rfl⟩ | ⟨v, ⟨n, h⟩, rfl⟩
    · exact ⟨n, .hexadecimal h⟩
    · exact ⟨n, .octal h⟩

theorem mem_point_mul {L : Language Char} {w : List Char} :
    w ∈ anyOf "." * L ↔ ∃ v ∈ L, '.' :: v = w := by
  simp [Language.mem_mul, mem_anyOf]

theorem exists_mantissa_iff {w : List Char} : (∃ q, Mantissa w q) ↔ w ∈ mantissas := by
  have hrest : ∀ {v : List Char}, v ∈ (anyOf "0123456789")∗ ↔ v = [] ∨ v ∈ decimals := by
    intro v
    rw [mem_kstar_anyOf, decimals, mem_many_anyOf]
    by_cases h : v = [] <;> simp [h]
  simp only [mantissas, Language.mem_add, Language.mem_mul (l := decimals), mem_point_mul,
    mem_maybe, hrest, ← exists_decimal_iff]
  constructor
  · intro h
    obtain ⟨_, h⟩ := h
    cases h with
    | fraction hf => exact .inl ⟨_, ⟨_, hf⟩, rfl⟩
    | whole hn => exact .inr ⟨_, ⟨_, hn⟩, _, .inl rfl, List.append_nil _⟩
    | point hn => exact .inr ⟨_, ⟨_, hn⟩, _, .inr ⟨_, .inl rfl, rfl⟩, rfl⟩
    | both hn hf => exact .inr ⟨_, ⟨_, hn⟩, _, .inr ⟨_, .inr ⟨_, hf⟩, rfl⟩, rfl⟩
  · intro h
    rcases h with ⟨v, ⟨f, hf⟩, rfl⟩ | ⟨v, ⟨n, hn⟩, _, rfl | ⟨u, rfl | ⟨f, hf⟩, rfl⟩, rfl⟩
    · exact ⟨_, .fraction hf⟩
    · rw [List.append_nil]
      exact ⟨_, .whole hn⟩
    · exact ⟨_, .point hn⟩
    · exact ⟨_, .both hn hf⟩

theorem exists_exponent_iff {w : List Char} :
    (∃ e, Exponent w e) ↔ w ∈ maybe (anyOf "eE" * integers) := by
  simp only [mem_maybe, Language.mem_mul, mem_anyOf, ← exists_decimalInteger_iff]
  constructor
  · intro h
    obtain ⟨e, h⟩ := h
    cases h with
    | absent => exact .inl rfl
    | present hmark h => exact .inr ⟨_, ⟨_, by simpa using hmark, rfl⟩, _, ⟨e, h⟩, rfl⟩
  · intro h
    rcases h with rfl | ⟨_, ⟨c, hc, rfl⟩, v, ⟨e, h⟩, rfl⟩
    · exact ⟨0, .absent⟩
    · exact ⟨e, .present (by simpa using hc) h⟩

/-- The numbers are `[-+]?(\.[0-9]+|[0-9]+(\.[0-9]*)?)([eE][-+]?[0-9]+)?`. -/
theorem exists_number_iff {w : List Char} : (∃ negative q, Number w negative q) ↔ w ∈ numbers := by
  simp only [numbers, Language.mem_mul, ← exists_sign_iff, ← exists_mantissa_iff,
    ← exists_exponent_iff]
  constructor
  · intro h
    obtain ⟨_, _, ⟨hsign, hmantissa, hexponent⟩⟩ := h
    exact ⟨_, ⟨_, ⟨_, hsign⟩, _, ⟨_, hmantissa⟩, rfl⟩, _, ⟨_, hexponent⟩, rfl⟩
  · intro h
    obtain ⟨_, ⟨_, ⟨_, hsign⟩, _, ⟨_, hmantissa⟩, rfl⟩, _, ⟨_, hexponent⟩, rfl⟩ := h
    exact ⟨_, _, .mk hsign hmantissa hexponent⟩

end YamlDelta.Numeral
