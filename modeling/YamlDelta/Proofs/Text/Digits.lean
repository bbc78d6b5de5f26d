/-
Digits and the numbers they denote.

A digit of a base is a character that stands for a number below it, and a row of digits
denotes a number by place value: one more digit multiplies what is there by the base and
adds its own value (`Digits`).  This says what a numeral means without saying how it is
read.  Reading tests every character for a class and folds the row from the left;
wherever the class is that of the base, the two agree (`digits_iff`), and the digits a
number is written with are read back as that number.
-/
import Mathlib.Data.List.Induction
import Mathlib.Tactic.Ring
import YamlDelta.Text.Digit

namespace YamlDelta.Text

/-! ### Digits -/

/-- The character is the digit of a value in a base; a letter may be written in either case. -/
def IsDigit (base : ℕ) (c : Char) (value : ℕ) : Prop :=
  value < base ∧ (c = value.digitChar ∨ c = value.digitChar.toUpper)

instance (base : ℕ) (c : Char) (value : ℕ) : Decidable (IsDigit base c value) :=
  inferInstanceAs (Decidable (_ ∧ _))

/-- The row of digits, of which there is one at least, denotes the number. -/
inductive Digits (base : ℕ) : List Char → ℕ → Prop
  | one {c : Char} {v : ℕ} (h : IsDigit base c v) : Digits base [c] v
  | concat {cs : List Char} {n : ℕ} {c : Char} {v : ℕ} (hs : Digits base cs n)
      (h : IsDigit base c v) : Digits base (cs ++ [c]) (n * base + v)

/-- The class holds the digits of the base and no other character. -/
def IsClass (p : Char → Bool) (base : ℕ) : Prop :=
  ∀ c v, IsDigit base c v ↔ p c = true ∧ digitValue c = v

/-- A class of ASCII characters is looked up in a table. -/
theorem isClass_of_table {p : Char → Bool} {base : ℕ} (hascii : ∀ c, p c = true → c.toNat < 128)
    (hto : ∀ v < base, (p v.digitChar = true ∧ digitValue v.digitChar = v) ∧
      p v.digitChar.toUpper = true ∧ digitValue v.digitChar.toUpper = v)
    (hfrom : ∀ n < 128, p (Char.ofNat n) = true →
      IsDigit base (Char.ofNat n) (digitValue (Char.ofNat n))) : IsClass p base := by
  intro c v
  constructor
  · intro h
    obtain ⟨hlt, rfl | rfl⟩ := h
    · exact (hto v hlt).1
    · exact (hto v hlt).2
  · intro h
    obtain ⟨hp, rfl⟩ := h
    have hdigit := hfrom c.toNat (hascii c hp)
    rw [Char.ofNat_toNat] at hdigit
    exact hdigit hp

theorem toNat_le_of_le {c d : Char} (h : c ≤ d) : c.toNat ≤ d.toNat := h

theorem isDigit_ascii {c : Char} (h : c.isDigit = true) : c.toNat < 128 := by
  simp only [Char.isDigit, Bool.and_eq_true, decide_eq_true_eq] at h
  exact Nat.lt_of_le_of_lt (toNat_le_of_le (d := '9') h.2) (by decide)

theorem ne_of_isDigit {c d : Char} (hc : c.isDigit = true) (hd : d.isDigit = false) : c ≠ d := by
  rintro rfl
  rw [hc] at hd
  cases hd

theorem isClass_decimal : IsClass Char.isDigit 10 :=
  isClass_of_table (fun _ => isDigit_ascii) (by decide) (by decide +kernel)

theorem isClass_octal : IsClass isOctalDigit 8 := by
  refine isClass_of_table (fun c h => ?_) (by decide) (by decide +kernel)
  simp only [isOctalDigit, Bool.and_eq_true, decide_eq_true_eq] at h
  exact Nat.lt_of_le_of_lt (toNat_le_of_le h.2) (by decide)

theorem isClass_hex : IsClass isHexDigit 16 := by
  refine isClass_of_table (fun c h => ?_) (by decide) (by decide +kernel)
  simp only [isHexDigit, Bool.or_eq_true, Bool.and_eq_true, decide_eq_true_eq] at h
  rcases h with (h | h) | h
  · exact isDigit_ascii h
  · exact Nat.lt_of_le_of_lt (toNat_le_of_le h.2) (by decide)
  · exact Nat.lt_of_le_of_lt (toNat_le_of_le h.2) (by decide)

/-! ### Rows of digits -/

theorem isRun_iff {p : Char → Bool} {cs : List Char} :
    isRun p cs = true ↔ cs ≠ [] ∧ ∀ c ∈ cs, p c = true := by
  simp [isRun]

theorem isRun_append {p : Char → Bool} {cs ds : List Char} (hcs : isRun p cs = true)
    (hds : isRun p ds = true) : isRun p (cs ++ ds) = true := by
  rw [isRun_iff] at *
  refine ⟨List.append_ne_nil_of_left_ne_nil hcs.1 ds, fun c hc => ?_⟩
  rcases List.mem_append.mp hc with hc | hc
  · exact hcs.2 c hc
  · exact hds.2 c hc

/-- **A row of digits is what reading takes for one**, and denotes what reading makes of it. -/
theorem digits_iff {p : Char → Bool} {base : ℕ} (hp : IsClass p base) {cs : List Char} {n : ℕ} :
    Digits base cs n ↔ isRun p cs = true ∧ ofDigits base cs = n := by
  constructor
  · intro h
    induction h with
    | @one c v h =>
        obtain ⟨hc, hv⟩ := (hp _ _).mp h
        simp [isRun, ofDigits, hc, hv]
    | @concat cs n c v _ h ih =>
        obtain ⟨hc, hv⟩ := (hp _ _).mp h
        obtain ⟨hrun, hn⟩ := ih
        rw [ofDigits_concat, hn, hv]
        rw [isRun_iff] at hrun ⊢
        refine ⟨⟨by simp, fun d hd => ?_⟩, rfl⟩
        rcases List.mem_append.mp hd with hd | hd
        · exact hrun.2 d hd
        · rw [List.mem_singleton.mp hd]
          exact hc
  · intro h
    obtain ⟨hrun, rfl⟩ := h
    rw [isRun_iff] at hrun
    induction cs using List.reverseRecOn with
    | nil => exact absurd rfl hrun.1
    | append_singleton cs c ih =>
        have hc : IsDigit base c (digitValue c) :=
          (hp _ _).mpr ⟨hrun.2 c (List.mem_concat_self), rfl⟩
        rw [ofDigits_concat]
        by_cases hcs : cs = []
        · subst hcs
          have hzero : ofDigits base [] * base + digitValue c = digitValue c := by simp [ofDigits]
          rw [hzero]
          exact .one hc
        · exact .concat (ih ⟨hcs, fun d hd => hrun.2 d (List.mem_append_left _ hd)⟩) hc

/-- What comes first is multiplied by a power of the base. -/
theorem ofDigits_append (base : ℕ) (cs ds : List Char) :
    ofDigits base (cs ++ ds) = ofDigits base cs * base ^ ds.length + ofDigits base ds := by
  induction ds using List.reverseRecOn with
  | nil => simp [ofDigits]
  | append_singleton ds d ih =>
      rw [← List.append_assoc, ofDigits_concat, ofDigits_concat, ih, List.length_append,
        List.length_singleton, pow_succ]
      ring

/-! ### The digits of a number -/

theorem digitValue_digitChar {n : ℕ} (h : n < 16) : digitValue n.digitChar = n := by
  have htable : ∀ n < 16, digitValue (Nat.digitChar n) = n := by decide
  exact htable n h

/-- A number is written with digits only. -/
theorem notMem_toString {c : Char} (hc : c.isDigit = false) (n : ℕ) : c ∉ (toString n).toList := by
  intro h
  have hdigit : c.isDigit = true :=
    Nat.isDigit_of_mem_toDigits (b := 10) (by decide) (by decide) (by simpa using h)
  rw [hc] at hdigit
  cases hdigit

/-- The digits of a number denote it. -/
theorem ofDigits_toDigits {base : ℕ} (hone : 1 < base) (hle : base ≤ 16) (n : ℕ) :
    ofDigits base (Nat.toDigits base n) = n := by
  induction n using Nat.strongRecOn with
  | ind n ih =>
      rw [Nat.toDigits_eq_if hone]
      split
      · rename_i h
        simp [ofDigits, digitValue_digitChar (Nat.lt_of_lt_of_le h hle)]
      · have hlt : n % base < 16 := Nat.lt_of_lt_of_le (Nat.mod_lt n (by omega)) hle
        rw [ofDigits_concat, ih (n / base) (Nat.div_lt_self (by omega) hone),
          digitValue_digitChar hlt, Nat.mul_comm]
        exact Nat.div_add_mod n base

end YamlDelta.Text
