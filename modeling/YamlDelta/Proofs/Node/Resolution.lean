/-
Plain scalars are read by the core schema.

A numeral in range is an integer, and any other is rounded correctly (`Denotes`); a name
is looked up.  The readers are tried one after the other, so what is left to see is that
the order does not matter: no name is a numeral (`number?_of_name`), no decimal number has
the prefix of another base (`ne_prefix_of_number`), and a decimal integer that does not
fit is read like any other decimal.
-/
import YamlDelta.Proofs.Decimal.Reading

namespace YamlDelta

open Text Numeral

namespace Scalar

variable {cs : List Char} {v : Scalar}

theorem inRange_iff {n : ℤ} : inRange n = true ↔ -2 ^ 63 ≤ n ∧ n < 2 ^ 63 := by
  simp only [inRange, Bool.and_eq_true, decide_eq_true_eq]
  omega

theorem inRange_toInt (i : Int64) : inRange i.toInt = true :=
  inRange_iff.mpr ⟨i.le_toInt, i.toInt_lt⟩

theorem ofInt_eq_iff {n : ℤ} {i : Int64} (h : inRange n = true) :
    Int64.ofInt n = i ↔ n = i.toInt := by
  obtain ⟨hlow, hhigh⟩ := inRange_iff.mp h
  rw [← Int64.toInt_inj, Int64.toInt_ofInt_of_le hlow hhigh]

theorem ofBase?_iff {p : Char → Bool} {base : ℕ} (hp : IsClass p base) :
    ofBase? p base cs = some v ↔
      ∃ (n : ℕ) (i : Int64), Digits base cs n ∧ n = i.toInt ∧ v = .integer i := by
  simp only [ofBase?, Option.ite_none_right_eq_some, Bool.and_eq_true, Option.some.injEq,
    digits_iff hp]
  constructor
  · intro h
    obtain ⟨⟨hrun, hrange⟩, rfl⟩ := h
    exact ⟨_, _, ⟨hrun, rfl⟩, (ofInt_eq_iff hrange).mp rfl, rfl⟩
  · intro h
    obtain ⟨_, i, ⟨hrun, rfl⟩, heq, rfl⟩ := h
    have hrange : inRange (ofDigits base cs) = true := heq ▸ inRange_toInt i
    exact ⟨⟨hrun, hrange⟩, congrArg _ ((ofInt_eq_iff hrange).mpr heq)⟩

/-- A decimal integer is a decimal number without a point or an exponent. -/
theorem number_of_decimalInteger {n : ℤ} (h : DecimalInteger cs n) :
    Number cs (splitSign cs).1 (ofDigits 10 (splitSign cs).2) := by
  obtain ⟨hrun, -⟩ := decimalInteger_iff.mp h
  obtain ⟨sign, hsign, hcs⟩ := splitSign_spec cs
  have hnumber := Number.mk hsign (.whole (digits_decimal.mpr ⟨hrun, rfl⟩)) .absent
  rw [List.append_nil, hcs, zpow_zero, mul_one] at hnumber
  exact hnumber

theorem ofWhole?_of_inRange {n : ℤ} (h : DecimalInteger cs n) (hrange : inRange n = true) :
    ofWhole? cs = some (.integer (Int64.ofInt n)) := by
  obtain ⟨hrun, rfl⟩ := decimalInteger_iff.mp h
  rw [ofWhole?]
  simp only []
  rw [if_pos hrun, if_pos hrange]

/-- What does not fit is read like any other decimal. -/
theorem ofWhole?_of_not_inRange {n : ℤ} (h : DecimalInteger cs n) (hrange : ¬inRange n = true) :
    ofWhole? cs = (Decimal.ofText? cs).map (.float ·.toBinary64) := by
  obtain ⟨hrun, rfl⟩ := decimalInteger_iff.mp h
  obtain ⟨d, hread, hnegative, hmagnitude⟩ :=
    Decimal.number_iff.mp (number_of_decimalInteger h)
  have hsame : Decimal.toBinary64 ⟨(splitSign cs).1, ofDigits 10 (splitSign cs).2, 0⟩ =
      d.toBinary64 := by
    refine Decimal.toBinary64_congr hnegative.symm (Eq.trans ?_ hmagnitude.symm)
    rw [Decimal.magnitude, zpow_zero, mul_one]
  rw [ofWhole?, hread]
  simp only []
  rw [if_pos hrun, if_neg hrange, hsame]
  rfl

theorem ofWhole?_eq_none (h : ∀ n, ¬DecimalInteger cs n) : ofWhole? cs = none := by
  rw [ofWhole?]
  refine if_neg fun hrun => h _ (decimalInteger_iff.mpr ⟨hrun, rfl⟩)

theorem number?_unprefixed (hhex : ∀ ds, cs ≠ '0' :: 'x' :: ds)
    (hoctal : ∀ ds, cs ≠ '0' :: 'o' :: ds) :
    number? cs = (ofWhole? cs).or ((Decimal.ofText? cs).map (.float ·.toBinary64)) := by
  unfold number?
  split
  · exact absurd rfl (hhex _)
  · exact absurd rfl (hoctal _)
  · exact Option.orElse_eq_or ..

/-- A decimal integer in range is read as that integer. -/
theorem number?_of_inRange {n : ℤ} (h : DecimalInteger cs n) (hrange : inRange n = true) :
    number? cs = some (.integer (Int64.ofInt n)) := by
  have hnumber := number_of_decimalInteger h
  rw [number?_unprefixed, ofWhole?_of_inRange h hrange]
  · rfl
  · rintro ds rfl
    exact absurd rfl (Decimal.ne_prefix_of_number hnumber).1
  · rintro ds rfl
    exact absurd rfl (Decimal.ne_prefix_of_number hnumber).2

/-- Any other text without a prefix is read as a decimal. -/
theorem number?_of_not_inRange (hhex : ∀ ds, cs ≠ '0' :: 'x' :: ds)
    (hoctal : ∀ ds, cs ≠ '0' :: 'o' :: ds)
    (hrange : ∀ n, DecimalInteger cs n → ¬inRange n = true) :
    number? cs = (Decimal.ofText? cs).map (.float ·.toBinary64) := by
  rw [number?_unprefixed hhex hoctal]
  by_cases h : ∃ n, DecimalInteger cs n
  · obtain ⟨n, hn⟩ := h
    rw [ofWhole?_of_not_inRange hn (hrange n hn), Option.or_self]
  · rw [ofWhole?_eq_none (not_exists.mp h), Option.none_or]

/-- What a numeral denotes as a scalar: an integer if it is one that fits, else the number nearest
to it. -/
inductive Denotes (cs : List Char) : Scalar → Prop
  | integer {i : Int64} (h : DecimalInteger cs i.toInt ∨ PrefixedInteger cs i.toInt) :
      Denotes cs (.integer i)
  | float {x : Binary64} {negative : Bool} {q : ℚ} (h : Number cs negative q)
      (hx : x.Rounds negative q)
      (hbig : ∀ n, DecimalInteger cs n → ¬inRange n = true) : Denotes cs (.float x)

theorem denotes_integer {i : Int64} :
    Denotes cs (.integer i) ↔ DecimalInteger cs i.toInt ∨ PrefixedInteger cs i.toInt := by
  constructor
  · intro h
    cases h with
    | integer h => exact h
  · exact .integer

theorem denotes_float {x : Binary64} :
    Denotes cs (.float x) ↔ (∃ negative q, Number cs negative q ∧ x.Rounds negative q) ∧
      ∀ n, DecimalInteger cs n → ¬(-2 ^ 63 ≤ n ∧ n < 2 ^ 63) := by
  simp only [← inRange_iff]
  constructor
  · intro h
    cases h with
    | float h hx hbig => exact ⟨⟨_, _, h, hx⟩, hbig⟩
  · intro h
    obtain ⟨⟨negative, q, hnumber, hx⟩, hbig⟩ := h
    exact .float hnumber hx hbig

/-- An integer that fits is denoted. -/
theorem denotes_of_inRange {n : ℤ} (hrange : inRange n = true)
    (h : DecimalInteger cs n ∨ PrefixedInteger cs n) : Denotes cs (.integer (Int64.ofInt n)) := by
  refine .integer ?_
  rw [← (ofInt_eq_iff hrange).mp rfl]
  exact h

/-- Every number is denoted, as an integer or as a float. -/
theorem exists_denotes {negative : Bool} {q : ℚ} (h : Number cs negative q) :
    ∃ v, Denotes cs v := by
  by_cases hrange : ∃ n, DecimalInteger cs n ∧ inRange n = true
  · obtain ⟨n, hn, hrange⟩ := hrange
    exact ⟨_, denotes_of_inRange hrange (.inl hn)⟩
  · obtain ⟨d, hread, -, -⟩ := Decimal.number_iff.mp h
    obtain ⟨_, _, hnumber, hrounds⟩ := Decimal.exists_rounds_iff.mpr ⟨d, hread, rfl⟩
    exact ⟨_, .float hnumber hrounds fun n hn hr => hrange ⟨n, hn, hr⟩⟩

theorem prefixedInteger_nonneg {n : ℤ} (h : PrefixedInteger cs n) : 0 ≤ n := by
  cases h with
  | hexadecimal => exact Int.natCast_nonneg _
  | octal => exact Int.natCast_nonneg _

/-- A text denotes nothing if it is no decimal number and no integer of another base that fits. -/
theorem forall_not_denotes : (∀ w, ¬Denotes cs w) ↔
    (∀ n, PrefixedInteger cs n → 2 ^ 63 ≤ n) ∧ ∀ negative q, ¬Number cs negative q := by
  constructor
  · intro h
    constructor
    · intro n hn
      by_contra hlt
      have hnonneg := prefixedInteger_nonneg hn
      exact h _ (denotes_of_inRange (inRange_iff.mpr ⟨by omega, by omega⟩) (.inr hn))
    · intro negative q hnumber
      obtain ⟨w, hw⟩ := exists_denotes hnumber
      exact h w hw
  · intro h w hw
    cases hw with
    | float hnumber => exact h.2 _ _ hnumber
    | @integer i hi =>
        rcases hi with hi | hi
        · exact h.2 _ _ (number_of_decimalInteger hi)
        · exact absurd (h.1 _ hi) (not_le.mpr i.toInt_lt)

/-- With a prefix nothing is denoted but the integer of that base. -/
theorem ofBase?_iff_denotes {p : Char → Bool} {base : ℕ} {c : Char} (hp : IsClass p base)
    (hc : c = 'x' ∨ c = 'o')
    (hprefixed : ∀ z, PrefixedInteger ('0' :: c :: cs) z ↔ ∃ n : ℕ, Digits base cs n ∧ n = z) :
    ofBase? p base cs = some v ↔ Denotes ('0' :: c :: cs) v := by
  have hnone : ∀ negative q, ¬Number ('0' :: c :: cs) negative q := by
    intro negative q h
    obtain ⟨hx, ho⟩ := Decimal.ne_prefix_of_number h
    exact hc.elim hx ho
  rw [ofBase?_iff hp]
  constructor
  · intro h
    obtain ⟨n, i, hdigits, heq, rfl⟩ := h
    exact .integer (.inr ((hprefixed _).mpr ⟨n, hdigits, heq⟩))
  · intro h
    cases h with
    | float h => exact absurd h (hnone _ _)
    | @integer i h =>
        rcases h with h | h
        · exact absurd (number_of_decimalInteger h) (hnone _ _)
        · obtain ⟨n, hdigits, heq⟩ := (hprefixed _).mp h
          exact ⟨n, i, hdigits, heq, rfl⟩

theorem number?_iff_of_inRange (hprefixed : ∀ z, ¬PrefixedInteger cs z) {n : ℤ}
    (hn : DecimalInteger cs n) (hrange : inRange n = true) :
    number? cs = some v ↔ Denotes cs v := by
  have hread := number?_of_inRange hn hrange
  rw [hread]
  constructor
  · intro h
    cases h
    exact denotes_of_inRange hrange (.inl hn)
  · intro h
    cases h with
    | float _ _ hbig => exact absurd hrange (hbig n hn)
    | @integer i h =>
        have hi := number?_of_inRange (h.resolve_right (hprefixed _)) (inRange_toInt i)
        rw [← hread, hi, Int64.ofInt_toInt]

theorem number?_iff_of_not_inRange (hhex : ∀ ds, cs ≠ '0' :: 'x' :: ds)
    (hoctal : ∀ ds, cs ≠ '0' :: 'o' :: ds) (hprefixed : ∀ z, ¬PrefixedInteger cs z)
    (hbig : ∀ n, DecimalInteger cs n → ¬inRange n = true) :
    number? cs = some v ↔ Denotes cs v := by
  rw [number?_of_not_inRange hhex hoctal hbig, Option.map_eq_some_iff]
  constructor
  · intro h
    obtain ⟨d, hread, rfl⟩ := h
    obtain ⟨negative, q, hnumber, hrounds⟩ := Decimal.exists_rounds_iff.mpr ⟨d, hread, rfl⟩
    exact .float hnumber hrounds hbig
  · intro h
    cases h with
    | @integer i h => exact absurd (inRange_toInt i) (hbig _ (h.resolve_right (hprefixed _)))
    | float hnumber hrounds _ =>
        obtain ⟨d, hread, rfl⟩ := Decimal.exists_rounds_iff.mp ⟨_, _, hnumber, hrounds⟩
        exact ⟨d, hread, rfl⟩

/-- **What is read of a numeral is what it denotes.** -/
theorem number?_iff : number? cs = some v ↔ Denotes cs v := by
  by_cases hhex : ∃ ds, cs = '0' :: 'x' :: ds
  · obtain ⟨ds, rfl⟩ := hhex
    refine ofBase?_iff_denotes isClass_hex (.inl rfl) fun z => ⟨fun h => ?_, fun h => ?_⟩
    · cases h with
      | hexadecimal h => exact ⟨_, h, rfl⟩
    · obtain ⟨n, h, rfl⟩ := h
      exact .hexadecimal h
  by_cases hoctal : ∃ ds, cs = '0' :: 'o' :: ds
  · obtain ⟨ds, rfl⟩ := hoctal
    refine ofBase?_iff_denotes isClass_octal (.inr rfl) fun z => ⟨fun h => ?_, fun h => ?_⟩
    · cases h with
      | octal h => exact ⟨_, h, rfl⟩
    · obtain ⟨n, h, rfl⟩ := h
      exact .octal h
  have hprefixed : ∀ z, ¬PrefixedInteger cs z := by
    intro z h
    cases h with
    | hexadecimal h => exact hhex ⟨_, rfl⟩
    | octal h => exact hoctal ⟨_, rfl⟩
  by_cases hrange : ∃ n, DecimalInteger cs n ∧ inRange n = true
  · obtain ⟨n, hn, hrange⟩ := hrange
    exact number?_iff_of_inRange hprefixed hn hrange
  · exact number?_iff_of_not_inRange (not_exists.mp hhex) (not_exists.mp hoctal) hprefixed
      fun n hn hr => hrange ⟨n, hn, hr⟩

/-! ### Names -/

/-- The spellings that stand for something other than a numeral. -/
def names : List (String × Scalar) :=
  nullSpellings.map (·, .null) ++ trueSpellings.map (·, .bool true) ++
    falseSpellings.map (·, .bool false) ++ nanSpellings.map (·, .float .nan) ++
    infinitySpellings.map (·, .float (.infinity false)) ++
    minusInfinitySpellings.map (·, .float (.infinity true))

theorem mem_names {s : String} :
    (s, v) ∈ names ↔ v = .null ∧ s ∈ nullSpellings ∨ v = .bool true ∧ s ∈ trueSpellings ∨
      v = .bool false ∧ s ∈ falseSpellings ∨ v = .float .nan ∧ s ∈ nanSpellings ∨
      v = .float (.infinity false) ∧ s ∈ infinitySpellings ∨
      v = .float (.infinity true) ∧ s ∈ minusInfinitySpellings := by
  simp only [names, List.mem_append, List.mem_map, Prod.mk.injEq, or_assoc]
  simp [and_comm, eq_comm]

theorem forall_not_mem_names {s : String} : (∀ w, (s, w) ∉ names) ↔
    s ∉ nullSpellings ++ trueSpellings ++ falseSpellings ++ nanSpellings ++ infinitySpellings ++
      minusInfinitySpellings := by
  simp [mem_names, forall_and]

theorem named?_iff {s : String} : named? s = some v ↔ (s, v) ∈ names := by
  constructor
  · intro h
    unfold named? at h
    rw [mem_names]
    split_ifs at h with hnull htrue hfalse hnan hinf hminus
    all_goals
      cases h
      simp_all
  · intro h
    have hall : ∀ e ∈ names, named? e.1 = some e.2 := by decide +kernel
    exact hall _ h

/-- No name is a numeral. -/
theorem number?_of_name {s : String} (h : (s, v) ∈ names) : number? s.toList = none := by
  have hall : ∀ e ∈ names, number? e.1.toList = none := by decide +kernel
  exact hall _ h

/-- A plain scalar is what its name or its numeral says, and a string if it is neither. -/
theorem ofPlain_iff {s : String} :
    ofPlain s = v ↔ (s, v) ∈ names ∨ Denotes s.toList v ∨
      v = .string s ∧ (∀ w, (s, w) ∉ names) ∧ ∀ w, ¬Denotes s.toList w := by
  have hread : ofPlain s = ((named? s).or (number? s.toList)).getD (.string s) := by
    rw [ofPlain, Option.orElse_eq_orElse, Option.orElse_eq_or]
  simp only [← named?_iff, ← number?_iff, ← Option.eq_none_iff_forall_ne_some]
  rw [hread]
  cases hnamed : named? s with
  | some w =>
      have hnumber := number?_of_name (named?_iff.mp hnamed)
      simp [hnumber]
  | none =>
      cases hnumber : number? s.toList with
      | some w => simp
      | none => simp [eq_comm]

/-- A plain scalar is a text only as a string of its own characters. -/
theorem ofPlain_cases (s : String) : ofPlain s = .string s ∨ (ofPlain s).text? = none := by
  rcases ofPlain_iff.mp (rfl : ofPlain s = ofPlain s) with hname | hnumeral | ⟨hv, -⟩
  · have hall : ∀ e ∈ names, e.2.text? = none := by decide
    exact .inr (hall _ hname)
  · cases hv : ofPlain s with
    | integer i => exact .inr rfl
    | float x => exact .inr rfl
    | _ =>
        rw [hv] at hnumeral
        cases hnumeral
  · exact .inl hv

/-- **Plain scalars are resolved by the core schema.**  The listed spellings give null, the
booleans and the special floats; a decimal integer in range and a hexadecimal or octal one that
fits are integers; every other text that matches the grammar of decimal numbers is the float
nearest to what it denotes, and whatever remains is a string.

Integers and numbers are texts of the regular languages `integers`, `prefixed` and `numbers`. -/
theorem plain_resolution (s : String) :
    (ofPlain s = .null ↔ s ∈ ["", "~", "null", "Null", "NULL"]) ∧
    (ofPlain s = .bool true ↔ s ∈ ["true", "True", "TRUE"]) ∧
    (ofPlain s = .bool false ↔ s ∈ ["false", "False", "FALSE"]) ∧
    (∀ i : Int64, ofPlain s = .integer i ↔
      DecimalInteger s.toList i.toInt ∨ PrefixedInteger s.toList i.toInt) ∧
    (∀ x, ofPlain s = .float x ↔
      x = .nan ∧ s ∈ [".nan", ".NaN", ".NAN"] ∨
      x = .infinity false ∧ s ∈ [".inf", ".Inf", ".INF", "+.inf", "+.Inf", "+.INF"] ∨
      x = .infinity true ∧ s ∈ ["-.inf", "-.Inf", "-.INF"] ∨
      (∃ negative q, Number s.toList negative q ∧ x.Rounds negative q) ∧
        ∀ n, DecimalInteger s.toList n → ¬(-2 ^ 63 ≤ n ∧ n < 2 ^ 63)) ∧
    (∀ t, ofPlain s = .string t ↔ t = s ∧
      s ∉ nullSpellings ++ trueSpellings ++ falseSpellings ++ nanSpellings ++
        infinitySpellings ++ minusInfinitySpellings ∧
      (∀ n, PrefixedInteger s.toList n → 2 ^ 63 ≤ n) ∧
      ∀ negative q, ¬Number s.toList negative q) ∧
    (∀ t, ofPlain s ≠ .literal t) ∧
    ((∃ n, DecimalInteger s.toList n) ↔ s.toList ∈ integers) ∧
    ((∃ n, PrefixedInteger s.toList n) ↔ s.toList ∈ prefixed) ∧
    ((∃ negative q, Number s.toList negative q) ↔ s.toList ∈ numbers) := by
  refine ⟨?_, ?_, ?_, fun i => ?_, fun x => ?_, fun t => ?_, fun t => ?_,
    exists_decimalInteger_iff, exists_prefixedInteger_iff, exists_number_iff⟩
  · have hnull : ¬Denotes s.toList .null := nofun
    simp [ofPlain_iff, mem_names, hnull, nullSpellings]
  · have hbool : ¬Denotes s.toList (.bool true) := nofun
    simp [ofPlain_iff, mem_names, hbool, trueSpellings]
  · have hbool : ¬Denotes s.toList (.bool false) := nofun
    simp [ofPlain_iff, mem_names, hbool, falseSpellings]
  · simp [ofPlain_iff, mem_names, denotes_integer]
  · simp only [ofPlain_iff, mem_names, denotes_float, nanSpellings, infinitySpellings,
      minusInfinitySpellings]
    simp [or_assoc]
  · have hstring : ¬Denotes s.toList (.string t) := nofun
    rw [ofPlain_iff, forall_not_denotes, forall_not_mem_names]
    simp [mem_names, hstring, eq_comm]
  · have hliteral : ¬Denotes s.toList (.literal t) := nofun
    simp [ofPlain_iff, mem_names, hliteral]

/-- Digits with a sign stay text behind a prefix, and so do names without a dot. -/
example : ofPlain "0x-1" = .string "0x-1" ∧ ofPlain "infinity" = .string "infinity" := by
  decide +kernel

end Scalar

end YamlDelta
