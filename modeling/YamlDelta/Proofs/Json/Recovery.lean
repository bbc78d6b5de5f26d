/-
The text of a JSON value tells the value.

A value is a word (null, a boolean, a number), a string in quotes, or a row of parts
between brackets.  A word goes on until a character comes that no word has, a string up
to its closing quote, a row up to its closing bracket; none of them can be taken for
another, for they begin differently.  So a text is taken apart in one way only, and two
values that are written alike, whatever follows them, are the same value.

The one thing that is lost on the way is a float that is no number of JSON: it is written
`null`, and `shown` says what a reader gets back.
-/
import YamlDelta.Json.Value
import YamlDelta.Proofs.Text.Quoted
import YamlDelta.Proofs.Node.Canonical

namespace YamlDelta.Json

open Text (Escaping digitValue digitValue_digitChar isRun isRun_iff ofDigits)

/-! ### Induction -/

/-- Items come before their array, and members before their object. -/
theorem child_induct {P : Json → Prop} (null : P null) (bool : ∀ b, P (bool b))
    (integer : ∀ n, P (integer n)) (number : ∀ x, P (number x)) (string : ∀ s, P (string s))
    (array : ∀ is, (∀ i ∈ is, P i) → P (array is))
    (object : ∀ ms, (∀ m ∈ ms, P m.2) → P (object ms)) : ∀ j, P j
  | .null => null
  | .bool b => bool b
  | .integer n => integer n
  | .number x => number x
  | .string s => string s
  | .array is => array is fun i _ =>
      child_induct null bool integer number string array object i
  | .object ms => object ms fun m _ =>
      child_induct null bool integer number string array object m.2
decreasing_by
  · rename_i hi
    have hlt := List.sizeOf_lt_of_mem hi
    rw [Json.array.sizeOf_spec]
    omega
  · rename_i hm
    have hlt := List.sizeOf_lt_of_mem hm
    have hmember : sizeOf m = 1 + sizeOf m.1 + sizeOf m.2 := rfl
    rw [Json.object.sizeOf_spec]
    omega

/-! ### What a reader gets back -/

mutual
/-- The value with every float that is no number of JSON replaced by null. -/
def shown : Json → Json
  | null => null
  | bool b => bool b
  | integer n => integer n
  | number x => if x.isNaN || x.isInfinite then null else number x
  | string s => string s
  | array is => array (shownItems is)
  | object ms => object (shownMembers ms)
def shownItems : List Json → List Json
  | [] => []
  | j :: js => j.shown :: shownItems js
def shownMembers : List (String × Json) → List (String × Json)
  | [] => []
  | (k, j) :: ms => (k, j.shown) :: shownMembers ms
end

theorem shownItems_eq (is : List Json) : shownItems is = is.map shown := by
  induction is with
  | nil => rfl
  | cons j js ih => rw [shownItems, ih, List.map_cons]

/-- A member as a reader gets it back. -/
def shownMember (m : String × Json) : String × Json :=
  (m.1, m.2.shown)

theorem shownMembers_eq (ms : List (String × Json)) : shownMembers ms = ms.map shownMember := by
  induction ms with
  | nil => rfl
  | cons m ms ih => rw [shownMembers, ih, List.map_cons, shownMember]

/-! ### Strings -/

/-- The characters that are escaped by a letter of their own, and the letters. -/
def shortEscapes : List (Char × Char) :=
  [('"', '"'), ('\\', '\\'), ('\n', 'n'), ('\r', 'r'), ('\t', 't'), ('\x08', 'b'), ('\x0c', 'f')]

/-- A control character by its code. -/
def controlPiece (c : Char) : List Char :=
  ['\\', 'u', '0', '0', Nat.digitChar (c.toNat / 16), Nat.digitChar (c.toNat % 16)]

/-- A character stands for itself, for its short escape, or for its code. -/
theorem stringPiece_cases (c : Char) :
    (stringPiece c = [c] ∧ c ≠ '"' ∧ c ≠ '\\') ∨
      (∃ e, (c, e) ∈ shortEscapes ∧ stringPiece c = ['\\', e]) ∨
        (c.toNat < 256 ∧ stringPiece c = controlPiece c) := by
  unfold stringPiece
  split_ifs with h1 h2 h3 h4 h5 h6 h7 h8
  · exact .inr (.inl ⟨'"', by simp [h1, shortEscapes], rfl⟩)
  · exact .inr (.inl ⟨'\\', by simp [h2, shortEscapes], rfl⟩)
  · exact .inr (.inl ⟨'n', by simp [h3, shortEscapes], rfl⟩)
  · exact .inr (.inl ⟨'r', by simp [h4, shortEscapes], rfl⟩)
  · exact .inr (.inl ⟨'t', by simp [h5, shortEscapes], rfl⟩)
  · exact .inr (.inl ⟨'b', by simp [h6, shortEscapes], rfl⟩)
  · exact .inr (.inl ⟨'f', by simp [h7, shortEscapes], rfl⟩)
  · exact .inr (.inr ⟨by omega, rfl⟩)
  · exact .inl ⟨rfl, h1, h2⟩

/-- The two digits of a code tell it. -/
theorem controlPiece_append_inj {c d : Char} {x y : List Char} (hc : c.toNat < 256)
    (hd : d.toNat < 256) (h : controlPiece c ++ x = controlPiece d ++ y) : c = d := by
  simp only [controlPiece, List.cons_append, List.nil_append, List.cons.injEq, true_and] at h
  obtain ⟨hhigh, hlow, -⟩ := h
  have hhigh := congrArg digitValue hhigh
  have hlow := congrArg digitValue hlow
  rw [digitValue_digitChar (by omega), digitValue_digitChar (by omega)] at hhigh hlow
  exact Char.toNat_inj.mp (by omega)

theorem escaping_stringPiece :
    Escaping stringPiece shortEscapes (·.toNat < 256) controlPiece where
  cases := stringPiece_cases
  letters := by decide
  code_head c := ⟨_, rfl⟩
  code_inj := controlPiece_append_inj

/-- A string ends where its quotes end. -/
theorem stringText_append_inj {s t : String} {x y : List Char}
    (h : (stringText s).toList ++ x = (stringText t).toList ++ y) : s = t ∧ x = y :=
  escaping_stringPiece.append_inj h

/-! ### Words -/

/-- The characters of words. -/
def isWordChar (c : Char) : Bool :=
  c.isAlpha || Decimal.isNumeric c

/-- The character that what is no word begins with. -/
def opening : Json → Option Char
  | null | bool _ | integer _ | number _ => none
  | string _ => some '"'
  | array _ => some '['
  | object _ => some '\x7b'

/-- The value is written as one word. -/
abbrev IsWord (j : Json) : Prop :=
  j.opening = none

/-- The value a word stands for. -/
def ofWord (cs : List Char) : Json :=
  if cs = ['n', 'u', 'l', 'l'] then null
  else if cs = ['t', 'r', 'u', 'e'] then bool true
  else if cs = ['f', 'a', 'l', 's', 'e'] then bool false
  else if isRun Char.isDigit (splitSign cs).2 then
    integer (signed (splitSign cs).1 (ofDigits 10 (splitSign cs).2))
  else match Decimal.ofText? cs with
    | some d => number d.toBinary64
    | none => null

/-- What is made of the characters of numbers is no other word. -/
theorem ne_names_of_numeric {cs : List Char} (h : ∀ c ∈ cs, Decimal.isNumeric c = true) :
    cs ≠ ['n', 'u', 'l', 'l'] ∧ cs ≠ ['t', 'r', 'u', 'e'] ∧ cs ≠ ['f', 'a', 'l', 's', 'e'] := by
  refine ⟨?_, ?_, ?_⟩
  all_goals
    rintro rfl
    exact absurd (h _ (List.mem_cons_self ..)) (by decide)

theorem decimalInteger_toString (n : ℤ) : Numeral.DecimalInteger (toString n).toList n := by
  rw [Scalar.toList_toString]
  exact Decimal.decimalInteger_toDigits false n

theorem ofWord_of_decimalInteger {cs : List Char} {n : ℤ} (h : Numeral.DecimalInteger cs n) :
    ofWord cs = integer n := by
  obtain ⟨hnull, htrue, hfalse⟩ := ne_names_of_numeric
    fun c hc => Decimal.isNumeric_of_mem_decimalInteger h hc
  obtain ⟨hrun, hvalue⟩ := decimalInteger_iff.mp h
  rw [ofWord, if_neg hnull, if_neg htrue, if_neg hfalse, if_pos hrun, hvalue]

theorem ofWord_of_number {cs : List Char} {negative : Bool} {q : ℚ} {x : Binary64}
    (h : Numeral.Number cs negative q) (hx : x.Rounds negative q)
    (hinteger : ∀ n, ¬Numeral.DecimalInteger cs n) : ofWord cs = number x := by
  obtain ⟨hnull, htrue, hfalse⟩ := ne_names_of_numeric
    fun c hc => Decimal.isNumeric_of_mem_number h hc
  have hrun : ¬isRun Char.isDigit (splitSign cs).2 = true := fun hrun =>
    hinteger _ (decimalInteger_iff.mpr ⟨hrun, rfl⟩)
  obtain ⟨d, hd, rfl⟩ := Decimal.exists_rounds_iff.mp ⟨negative, q, h, hx⟩
  rw [ofWord, if_neg hnull, if_neg htrue, if_neg hfalse, if_neg hrun, hd]

theorem lt_infinityCode {x : Binary64} (h : ¬(x.isNaN || x.isInfinite) = true) :
    x.code < Binary64.infinityCode := by
  simp only [Bool.or_eq_true, Binary64.isNaN, Binary64.isInfinite, decide_eq_true_eq] at h
  omega

/-- A reader gets back the value of a word. -/
theorem ofWord_prettyAt {j : Json} (h : j.IsWord) (level : Nat) :
    ofWord (j.prettyAt level).toList = j.shown := by
  cases j with
  | null => rw [prettyAt, shown]; rfl
  | bool b => cases b <;> rw [prettyAt, shown] <;> rfl
  | integer n =>
      rw [prettyAt, shown]
      exact ofWord_of_decimalInteger (decimalInteger_toString n)
  | number x =>
      rw [prettyAt, numberText, shown]
      by_cases hnull : (x.isNaN || x.isInfinite) = true
      · rw [if_pos hnull, if_pos hnull]
        rfl
      · rw [if_neg hnull, if_neg hnull]
        obtain ⟨q, hnumber, hrounds⟩ :=
          Decimal.exists_number_text numberStyle (lt_infinityCode hnull)
        exact ofWord_of_number hnumber hrounds (Decimal.not_decimalInteger_text numberStyle x)
  | string s => cases h
  | array is => cases h
  | object ms => cases h

theorem isRun_of_decimalInteger {cs : List Char} {n : ℤ} (h : Numeral.DecimalInteger cs n) :
    isRun isWordChar cs = true := by
  refine isRun_iff.mpr ⟨?_, fun c hc => ?_⟩
  · obtain ⟨-, hdigits⟩ := h
    exact List.append_ne_nil_of_right_ne_nil _ (isRun_iff.mp (digits_decimal.mp hdigits).1).1
  · rw [isWordChar, Decimal.isNumeric_of_mem_decimalInteger h hc, Bool.or_true]

theorem isRun_of_number {cs : List Char} {negative : Bool} {q : ℚ}
    (h : Numeral.Number cs negative q) : isRun isWordChar cs = true := by
  refine isRun_iff.mpr ⟨?_, fun c hc => ?_⟩
  · obtain ⟨-, hmantissa, -⟩ := h
    have hne := (Decimal.forall_mem_mantissa hmantissa).1
    exact List.append_ne_nil_of_left_ne_nil (List.append_ne_nil_of_right_ne_nil _ hne) _
  · rw [isWordChar, Decimal.isNumeric_of_mem_number h hc, Bool.or_true]

/-- A word consists of characters of words. -/
theorem isRun_word {j : Json} (h : j.IsWord) (level : Nat) :
    isRun isWordChar (j.prettyAt level).toList = true := by
  cases j with
  | null => rw [prettyAt]; rfl
  | bool b => cases b <;> rw [prettyAt] <;> rfl
  | integer n =>
      rw [prettyAt]
      exact isRun_of_decimalInteger (decimalInteger_toString n)
  | number x =>
      rw [prettyAt, numberText]
      split
      · rfl
      · rename_i hnumber
        obtain ⟨q, hnumeral, -⟩ := Decimal.exists_number_text numberStyle (lt_infinityCode hnumber)
        exact isRun_of_number hnumeral
  | string s => cases h
  | array is => cases h
  | object ms => cases h

/-! ### Rows between brackets -/

/-- A word is over here. -/
def Ends (x : List Char) : Prop :=
  ∀ c, x.head? = some c → isWordChar c = false

theorem ends_cons {c : Char} {x : List Char} (h : isWordChar c = false) : Ends (c :: x) := by
  rintro d ⟨⟩
  exact h

/-- The text of a value tells the value, whatever ends it. -/
def Tells {α β : Type} (text : α → String) (value : α → β) (a : α) : Prop :=
  ∀ {b : α} {x y : List Char}, Ends x → Ends y →
    (text a).toList ++ x = (text b).toList ++ y → value a = value b ∧ x = y

/-- The parts behind the first, each after a comma on a line of its own, and the closing bracket. -/
def tailText (after : Char) (level : Nat) (parts : List String) : List Char :=
  parts.flatMap (fun p => ',' :: (newLine (level + 1)).toList ++ p.toList) ++
    (newLine level).toList ++ [after]

theorem toList_newLine (level : Nat) :
    (newLine level).toList = '\n' :: List.replicate (2 * level) ' ' := by
  rw [newLine, String.toList_ofList]

theorem toList_intercalate_cons (sep p : String) (ps : List String) :
    (sep.intercalate (p :: ps)).toList =
      p.toList ++ ps.flatMap fun q => sep.toList ++ q.toList := by
  induction ps generalizing p with
  | nil => simp
  | cons q ps ih =>
      rw [String.intercalate_cons_cons, String.toList_append, String.toList_append, ih]
      simp

theorem toList_enclose_cons (before after : Char) (level : Nat) (p : String) (ps : List String) :
    (enclose (String.singleton before) (String.singleton after) level (p :: ps)).toList =
      before :: (newLine (level + 1)).toList ++ p.toList ++ tailText after level ps := by
  rw [enclose, if_neg (by simp)]
  simp only [String.toList_append, toList_intercalate_cons, tailText, String.toList_singleton]
  simp

variable {α β : Type} {text : α → String} {value : α → β}

theorem tailText_nil (after : Char) (level : Nat) :
    tailText after level [] = '\n' :: List.replicate (2 * level) ' ' ++ [after] := by
  rw [tailText, List.flatMap_nil, List.nil_append, toList_newLine]

theorem tailText_cons (after : Char) (level : Nat) (p : String) (ps : List String) :
    tailText after level (p :: ps) =
      ',' :: (newLine (level + 1)).toList ++ p.toList ++ tailText after level ps := by
  simp [tailText]

/-- A comma and another part, or a line feed and the closing bracket, end a word. -/
theorem ends_tailText (after : Char) (level : Nat) (parts : List String) (x : List Char) :
    Ends (tailText after level parts ++ x) := by
  cases parts with
  | nil =>
      rw [tailText_nil]
      exact ends_cons (by decide)
  | cons p ps => exact ends_cons (by decide)

theorem tailText_append_inj {after : Char} {level : Nat} {as bs : List α} {x y : List Char}
    (h : ∀ a ∈ as, Tells text value a)
    (heq : tailText after level (as.map text) ++ x = tailText after level (bs.map text) ++ y) :
    as.map value = bs.map value ∧ x = y := by
  induction as generalizing bs with
  | nil =>
      cases bs with
      | nil => exact ⟨rfl, List.append_cancel_left heq⟩
      | cons b bs =>
          rw [List.map_cons, tailText_cons, List.map_nil, tailText_nil] at heq
          exact absurd (List.cons.inj heq).1 (by decide)
  | cons a as ih =>
      cases bs with
      | nil =>
          rw [List.map_cons, tailText_cons, List.map_nil, tailText_nil] at heq
          exact absurd (List.cons.inj heq).1 (by decide)
      | cons b bs =>
          rw [List.map_cons, List.map_cons, tailText_cons, tailText_cons] at heq
          simp only [List.cons_append, List.append_assoc, List.cons.injEq, true_and,
            List.append_cancel_left_eq] at heq
          obtain ⟨hvalue, hrest⟩ := h a (List.mem_cons_self ..) (ends_tailText _ _ _ _)
            (ends_tailText _ _ _ _) heq
          obtain ⟨hvalues, hxy⟩ := ih (fun c hc => h c (List.mem_cons_of_mem _ hc)) hrest
          exact ⟨by rw [List.map_cons, List.map_cons, hvalue, hvalues], hxy⟩

/-- **A row between brackets tells its parts**, if each part does. -/
theorem enclose_append_inj (before : Char) {after : Char} {level : Nat} {as bs : List α}
    {x y : List Char} (hafter : after ≠ '\n') (h : ∀ a ∈ as, Tells text value a)
    (heq : (enclose (String.singleton before) (String.singleton after) level
        (as.map text)).toList ++ x =
      (enclose (String.singleton before) (String.singleton after) level
        (bs.map text)).toList ++ y) :
    as.map value = bs.map value ∧ x = y := by
  have hempty : (enclose (String.singleton before) (String.singleton after) level []).toList =
      [before, after] := by
    simp [enclose]
  cases as with
  | nil =>
      cases bs with
      | nil => exact ⟨rfl, List.append_cancel_left heq⟩
      | cons b bs =>
          rw [List.map_cons, toList_enclose_cons, List.map_nil, hempty, toList_newLine] at heq
          exact absurd (List.cons.inj (List.cons.inj heq).2).1 hafter
  | cons a as =>
      cases bs with
      | nil =>
          rw [List.map_cons, toList_enclose_cons, List.map_nil, hempty, toList_newLine] at heq
          exact absurd (List.cons.inj (List.cons.inj heq).2).1.symm hafter
      | cons b bs =>
          rw [List.map_cons, List.map_cons, toList_enclose_cons, toList_enclose_cons] at heq
          simp only [List.cons_append, List.append_assoc, List.cons.injEq, true_and,
            List.append_cancel_left_eq] at heq
          obtain ⟨hvalue, hrest⟩ := h a (List.mem_cons_self ..) (ends_tailText _ _ _ _)
            (ends_tailText _ _ _ _) heq
          obtain ⟨hvalues, hxy⟩ := tailText_append_inj
            (fun c hc => h c (List.mem_cons_of_mem _ hc)) hrest
          exact ⟨by rw [List.map_cons, List.map_cons, hvalue, hvalues], hxy⟩

/-! ### Values -/

theorem prettyItems_eq (level : Nat) (is : List Json) :
    prettyItems level is = is.map (prettyAt level) := by
  induction is with
  | nil => rfl
  | cons j js ih => rw [prettyItems, ih, List.map_cons]

/-- The text of a member. -/
def memberText (level : Nat) (m : String × Json) : String :=
  stringText m.1 ++ ": " ++ m.2.prettyAt level

theorem prettyMembers_eq (level : Nat) (ms : List (String × Json)) :
    prettyMembers level ms = ms.map (memberText level) := by
  induction ms with
  | nil => rfl
  | cons m ms ih => rw [prettyMembers, ih, List.map_cons, memberText]

theorem exists_enclose (before after : Char) (level : Nat) (parts : List String) :
    ∃ cs, (enclose (String.singleton before) (String.singleton after) level parts).toList =
      before :: cs := by
  cases parts with
  | nil => exact ⟨[after], by simp [enclose]⟩
  | cons p ps => exact ⟨_, toList_enclose_cons before after level p ps⟩

theorem exists_lead_word {j : Json} (h : j.IsWord) (level : Nat) :
    ∃ c cs, (j.prettyAt level).toList = c :: cs ∧
      j.opening = if isWordChar c then none else some c := by
  obtain ⟨hne, hmem⟩ := isRun_iff.mp (isRun_word h level)
  obtain ⟨c, cs, htext⟩ := List.exists_cons_of_ne_nil hne
  refine ⟨c, cs, htext, ?_⟩
  rw [if_pos (hmem c (htext ▸ List.mem_cons_self ..))]
  exact h

/-- The first character of a text tells of what form the value is. -/
theorem exists_lead (j : Json) (level : Nat) :
    ∃ c cs, (j.prettyAt level).toList = c :: cs ∧
      j.opening = if isWordChar c then none else some c := by
  cases j with
  | string s =>
      have htext : (prettyAt level (string s)).toList =
          '"' :: (s.toList.flatMap stringPiece ++ ['"']) := by
        rw [prettyAt, stringText, String.toList_ofList]
        rfl
      exact ⟨'"', _, htext, rfl⟩
  | array is =>
      obtain ⟨cs, hcs⟩ := exists_enclose '[' ']' level (prettyItems (level + 1) is)
      exact ⟨'[', cs, by rw [prettyAt]; exact hcs, rfl⟩
  | object ms =>
      obtain ⟨cs, hcs⟩ := exists_enclose '\x7b' '\x7d' level (prettyMembers (level + 1) ms)
      exact ⟨'\x7b', cs, by rw [prettyAt]; exact hcs, rfl⟩
  | null => exact exists_lead_word rfl level
  | bool b => exact exists_lead_word rfl level
  | integer n => exact exists_lead_word rfl level
  | number x => exact exists_lead_word rfl level

theorem opening_eq_of_append {j j' : Json} {level : Nat} {x y : List Char}
    (h : (j.prettyAt level).toList ++ x = (j'.prettyAt level).toList ++ y) :
    j.opening = j'.opening := by
  obtain ⟨c, cs, hc, hj⟩ := exists_lead j level
  obtain ⟨d, ds, hd, hj'⟩ := exists_lead j' level
  rw [hc, hd] at h
  rw [hj, hj', (List.cons.inj h).1]

/-- A word tells its value: it goes on until something else comes. -/
theorem tells_word {j : Json} (hword : j.IsWord) (level : Nat) :
    Tells (prettyAt level) shown j := by
  intro j' x y hx hy heq
  have hword' : j'.IsWord := (opening_eq_of_append heq).symm.trans hword
  obtain ⟨htext, hxy⟩ := Text.run_append_inj (isRun_iff.mp (isRun_word hword level)).2
    (isRun_iff.mp (isRun_word hword' level)).2 hx hy heq
  exact ⟨by rw [← ofWord_prettyAt hword level, htext, ofWord_prettyAt hword' level], hxy⟩

/-- A member tells its name and its value, if the value does. -/
theorem tells_member {m : String × Json} {level : Nat}
    (h : Tells (prettyAt level) shown m.2) : Tells (memberText level) shownMember m := by
  intro m' x y hx hy heq
  simp only [memberText, String.toList_append, List.append_assoc] at heq
  obtain ⟨hname, hrest⟩ := stringText_append_inj heq
  obtain ⟨hvalue, hxy⟩ := h hx hy (List.append_cancel_left hrest)
  exact ⟨by rw [shownMember, shownMember, hname, hvalue], hxy⟩

/-- **A text tells the value it is of**, up to floats that are no numbers, whatever ends it. -/
theorem tells_prettyAt (j : Json) : ∀ level, Tells (prettyAt level) shown j := by
  induction j using child_induct with
  | null => exact tells_word rfl
  | bool b => exact tells_word rfl
  | integer n => exact tells_word rfl
  | number z => exact tells_word rfl
  | string s =>
      intro level j x y _ _ heq
      have hopening := opening_eq_of_append heq
      cases j with
      | string t =>
          rw [prettyAt, prettyAt] at heq
          obtain ⟨rfl, hxy⟩ := stringText_append_inj heq
          exact ⟨rfl, hxy⟩
      | _ => cases hopening
  | array is ih =>
      intro level j x y _ _ heq
      have hopening := opening_eq_of_append heq
      cases j with
      | array js =>
          rw [prettyAt, prettyAt, prettyItems_eq, prettyItems_eq] at heq
          obtain ⟨hvalues, hxy⟩ := enclose_append_inj '[' (by decide : ']' ≠ '\n')
            (fun i hi => ih i hi (level + 1)) heq
          exact ⟨by rw [shown, shown, shownItems_eq, shownItems_eq, hvalues], hxy⟩
      | _ => cases hopening
  | object ms ih =>
      intro level j x y _ _ heq
      have hopening := opening_eq_of_append heq
      cases j with
      | object ns =>
          rw [prettyAt, prettyAt, prettyMembers_eq, prettyMembers_eq] at heq
          obtain ⟨hvalues, hxy⟩ := enclose_append_inj '\x7b'
            (by decide : '\x7d' ≠ '\n') (fun m hm => tells_member (ih m hm (level + 1))) heq
          exact ⟨by rw [shown, shown, shownMembers_eq, shownMembers_eq, hvalues], hxy⟩
      | _ => cases hopening

/-- Nothing that a reader does not get back is in the text. -/
theorem prettyAt_shown (j : Json) : ∀ level, j.shown.prettyAt level = j.prettyAt level := by
  induction j using child_induct with
  | null => exact fun level => by rw [shown]
  | bool b => exact fun level => by rw [shown]
  | integer n => exact fun level => by rw [shown]
  | string s => exact fun level => by rw [shown]
  | number x =>
      intro level
      rw [shown]
      split
      · rename_i hnull
        rw [prettyAt, prettyAt, numberText, if_pos hnull]
      · rfl
  | array is ih =>
      intro level
      rw [shown, prettyAt, prettyAt, shownItems_eq, prettyItems_eq, prettyItems_eq, List.map_map]
      exact congrArg _ (List.map_congr_left fun i hi => ih i hi (level + 1))
  | object ms ih =>
      intro level
      rw [shown, prettyAt, prettyAt, shownMembers_eq, prettyMembers_eq, prettyMembers_eq,
        List.map_map]
      refine congrArg _ (List.map_congr_left fun m hm => ?_)
      simp only [Function.comp_apply, memberText, shownMember, ih m hm (level + 1)]

/-- **Two values are written alike exactly if a reader gets back the same.** -/
theorem prettyAt_eq_iff {j j' : Json} {level : Nat} :
    j.prettyAt level = j'.prettyAt level ↔ j.shown = j'.shown := by
  constructor
  · intro h
    have hends : Ends [] := fun c hc => by cases hc
    exact (tells_prettyAt j level hends hends (by rw [h])).1
  · intro h
    rw [← prettyAt_shown j, h, prettyAt_shown]

end YamlDelta.Json
