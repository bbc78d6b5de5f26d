/-
Quoted texts are read back.

A quoted text is a row of pieces, one for each character, and then a closing quote.  No
piece is the beginning of another and none begins like what may follow the last one, so
the row can be taken apart from the left in one way only: texts that are written alike
up to whatever comes after them are the same texts, followed by the same.
-/
import Mathlib.Data.List.Basic
import YamlDelta.Proofs.Text.Digits
import YamlDelta.Text.Quoted

namespace YamlDelta.Text

/-- A piece tells its character, whatever comes after it. -/
def PrefixFree (piece : Char → List Char) : Prop :=
  ∀ {c d : Char} {x y : List Char}, piece c ++ x = piece d ++ y → c = d

/-- **A row of pieces is taken apart in one way only**, if what closes it begins with no piece. -/
theorem pieces_append_inj {piece : Char → List Char} {P : List Char → Prop}
    (hfree : PrefixFree piece) (hclosing : ∀ c x, ¬P (piece c ++ x))
    {cs ds x y : List Char} (hx : P x) (hy : P y)
    (h : cs.flatMap piece ++ x = ds.flatMap piece ++ y) : cs = ds ∧ x = y := by
  induction cs generalizing ds with
  | nil =>
      cases ds with
      | nil => exact ⟨rfl, h⟩
      | cons d ds =>
          rw [List.flatMap_nil, List.nil_append, List.flatMap_cons, List.append_assoc] at h
          exact absurd (h ▸ hx) (hclosing d _)
  | cons c cs ih =>
      cases ds with
      | nil =>
          rw [List.flatMap_nil, List.nil_append, List.flatMap_cons, List.append_assoc] at h
          exact absurd (h ▸ hy) (hclosing c _)
      | cons d ds =>
          simp only [List.flatMap_cons, List.append_assoc] at h
          obtain rfl := hfree h
          obtain ⟨rfl, rfl⟩ := ih (List.append_cancel_left h)
          exact ⟨rfl, rfl⟩

/-- Two runs of a class of elements that end where the class does are one run. -/
theorem run_append_inj {α : Type} {p : α → Bool} {as bs x y : List α} (has : ∀ c ∈ as, p c = true)
    (hbs : ∀ c ∈ bs, p c = true) (hx : ∀ c, x.head? = some c → p c = false)
    (hy : ∀ c, y.head? = some c → p c = false) (h : as ++ x = bs ++ y) : as = bs ∧ x = y := by
  have hend : ∀ {z : List α}, (∀ c, z.head? = some c → p c = false) → z.takeWhile p = [] := by
    intro z hz
    cases z with
    | nil => rfl
    | cons c z => rw [List.takeWhile_cons_of_neg (by simp [hz c rfl])]
  have htake := congrArg (List.takeWhile p) h
  rw [List.takeWhile_append_of_pos has, List.takeWhile_append_of_pos hbs, hend hx, hend hy,
    List.append_nil, List.append_nil] at htake
  subst htake
  exact ⟨rfl, List.append_cancel_left h⟩

/-! ### Single quotes -/

/-- The quote that closes, and no second one that would make it a quote inside. -/
def ClosesSingle (x : List Char) : Prop :=
  ∃ rest, x = '\'' :: rest ∧ rest.head? ≠ some '\''

theorem singlePiece_eq_cons (c : Char) :
    singlePiece c = c :: if c = '\'' then ['\''] else [] := by
  unfold singlePiece
  split
  · rename_i h
    rw [h]
  · rfl

theorem prefixFree_singlePiece : PrefixFree singlePiece := by
  intro c d x y h
  rw [singlePiece_eq_cons, singlePiece_eq_cons] at h
  exact (List.cons.inj h).1

theorem not_closesSingle_piece (c : Char) (x : List Char) : ¬ClosesSingle (singlePiece c ++ x) := by
  rintro ⟨rest, hrest, hhead⟩
  rw [singlePiece_eq_cons, List.cons_append] at hrest
  obtain ⟨rfl, rfl⟩ := List.cons.inj hrest
  exact hhead rfl

/-- A text in single quotes ends where its quotes end. -/
theorem singleQuoted_append_inj {s t : String} {x y : List Char} (hx : x.head? ≠ some '\'')
    (hy : y.head? ≠ some '\'')
    (h : (singleQuoted s).toList ++ x = (singleQuoted t).toList ++ y) : s = t ∧ x = y := by
  simp only [singleQuoted, String.toList_ofList, List.cons_append, List.append_assoc,
    List.nil_append, List.cons.injEq, true_and] at h
  obtain ⟨hst, hxy⟩ := pieces_append_inj prefixFree_singlePiece not_closesSingle_piece
    ⟨x, rfl, hx⟩ ⟨y, rfl, hy⟩ h
  exact ⟨String.toList_inj.mp hst, (List.cons.inj hxy).2⟩

/-! ### Double quotes -/

/-- Between double quotes a character stands for itself, for a backslash and the letter that a
table gives it, or for a backslash, `u` and a code. -/
structure Escaping (piece : Char → List Char) (table : List (Char × Char))
    (coded : Char → Prop) (code : Char → List Char) : Prop where
  cases : ∀ c, (piece c = [c] ∧ c ≠ '"' ∧ c ≠ '\\') ∨
    (∃ e, (c, e) ∈ table ∧ piece c = ['\\', e]) ∨ (coded c ∧ piece c = code c)
  /-- No two characters share a letter, and none of the letters begins a code. -/
  letters : ∀ a ∈ table, a.2 ≠ 'u' ∧ ∀ b ∈ table, a.2 = b.2 → a.1 = b.1
  code_head : ∀ c, ∃ more, code c = '\\' :: 'u' :: more
  code_inj : ∀ {c d : Char} {x y : List Char}, coded c → coded d → code c ++ x = code d ++ y →
    c = d

namespace Escaping

variable {piece : Char → List Char} {table : List (Char × Char)} {coded : Char → Prop}
  {code : Char → List Char}

theorem prefixFree (h : Escaping piece table coded code) : PrefixFree piece := by
  intro c d x y heq
  rcases h.cases c with ⟨hc, -, hcs⟩ | ⟨e, hce, hc⟩ | ⟨hcoded, hc⟩ <;>
    rcases h.cases d with ⟨hd, -, hds⟩ | ⟨f, hdf, hd⟩ | ⟨hcoded', hd⟩ <;> rw [hc, hd] at heq
  case inl.inl => exact (List.cons.inj heq).1
  case inl.inr.inl => exact absurd (List.cons.inj heq).1 hcs
  case inl.inr.inr =>
    obtain ⟨more, hmore⟩ := h.code_head d
    rw [hmore] at heq
    exact absurd (List.cons.inj heq).1 hcs
  case inr.inl.inl => exact absurd (List.cons.inj heq).1.symm hds
  case inr.inr.inl =>
    obtain ⟨more, hmore⟩ := h.code_head c
    rw [hmore] at heq
    exact absurd (List.cons.inj heq).1.symm hds
  case inr.inl.inr.inl =>
    exact (h.letters _ hce).2 _ hdf (List.cons.inj (List.cons.inj heq).2).1
  case inr.inl.inr.inr =>
    obtain ⟨more, hmore⟩ := h.code_head d
    rw [hmore] at heq
    exact absurd (List.cons.inj (List.cons.inj heq).2).1 (h.letters _ hce).1
  case inr.inr.inr.inl =>
    obtain ⟨more, hmore⟩ := h.code_head c
    rw [hmore] at heq
    exact absurd (List.cons.inj (List.cons.inj heq).2).1.symm (h.letters _ hdf).1
  case inr.inr.inr.inr => exact h.code_inj hcoded hcoded' heq

theorem head?_ne (h : Escaping piece table coded code) (c : Char) (x : List Char) :
    (piece c ++ x).head? ≠ some '"' := by
  rcases h.cases c with ⟨hc, hne, -⟩ | ⟨e, -, hc⟩ | ⟨-, hc⟩
  · rw [hc]
    simpa using hne
  · rw [hc]
    simp
  · obtain ⟨more, hmore⟩ := h.code_head c
    rw [hc, hmore]
    simp

/-- A text between double quotes ends where its quotes end. -/
theorem append_inj (h : Escaping piece table coded code) {s t : String} {x y : List Char}
    (heq : (String.ofList ('"' :: s.toList.flatMap piece ++ ['"'])).toList ++ x =
      (String.ofList ('"' :: t.toList.flatMap piece ++ ['"'])).toList ++ y) : s = t ∧ x = y := by
  simp only [String.toList_ofList, List.cons_append, List.append_assoc, List.nil_append,
    List.cons.injEq, true_and] at heq
  obtain ⟨hst, hxy⟩ := pieces_append_inj (P := fun z => z.head? = some '"') h.prefixFree h.head?_ne
    rfl rfl heq
  exact ⟨String.toList_inj.mp hst, (List.cons.inj hxy).2⟩

end Escaping

/-! ### Double quotes, on one line -/

/-- The characters that are escaped between double quotes, and the letters they are escaped by. -/
def lineEscapes : List (Char × Char) :=
  [('"', '"'), ('\\', '\\'), ('\n', 'n'), ('\t', 't'), ('\r', 'r')]

/-- A character stands for itself or for its escape. -/
theorem doublePiece_cases (c : Char) :
    (doublePiece c = [c] ∧ c ∉ lineEscapes.map Prod.fst) ∨
      ∃ e, (c, e) ∈ lineEscapes ∧ doublePiece c = ['\\', e] := by
  by_cases h : c ∈ lineEscapes.map Prod.fst
  · refine .inr ?_
    obtain ⟨⟨c, e⟩, he, rfl⟩ := List.mem_map.mp h
    refine ⟨e, he, ?_⟩
    have htable : ∀ a ∈ lineEscapes, doublePiece a.1 = ['\\', a.2] := by decide
    exact htable _ he
  · refine .inl ⟨?_, h⟩
    simp only [lineEscapes, List.map_cons, List.map_nil, List.mem_cons, List.not_mem_nil, or_false,
      not_or] at h
    simp only [doublePiece, h, if_false]

theorem escaping_doublePiece :
    Escaping doublePiece lineEscapes (fun _ => False) (fun _ => ['\\', 'u']) where
  cases c := by
    rcases doublePiece_cases c with ⟨h, hc⟩ | h
    · refine .inl ⟨h, ?_, ?_⟩
      all_goals
        rintro rfl
        exact hc (by decide)
    · exact .inr (.inl h)
  letters := by decide
  code_head _ := ⟨[], rfl⟩
  code_inj h := h.elim

/-- A text in double quotes ends where its quotes end. -/
theorem doubleQuoted_append_inj {s t : String} {x y : List Char}
    (h : (doubleQuoted s).toList ++ x = (doubleQuoted t).toList ++ y) : s = t ∧ x = y :=
  escaping_doublePiece.append_inj h

/-! ### Double quotes, everything visible -/

/-- The characters that are escaped by a letter of their own, and the letters. -/
def shortEscapes : List (Char × Char) :=
  [('\x00', '0'), ('"', '"'), ('\\', '\\'), ('\n', 'n'), ('\t', 't'), ('\r', 'r')]

/-- A character stands for itself, for its short escape, or for its code point. -/
theorem visiblePiece_cases (c : Char) :
    (visiblePiece c = [c] ∧ c ≠ '"' ∧ c ≠ '\\') ∨
      (∃ e, (c, e) ∈ shortEscapes ∧ visiblePiece c = ['\\', e]) ∨
        visiblePiece c = codePoint c := by
  unfold visiblePiece
  split
  · rename_i h
    exact .inr (.inl ⟨'0', by simp [h, shortEscapes], rfl⟩)
  · split
    · rename_i h
      refine .inr (.inl ?_)
      rcases h with rfl | rfl | rfl | rfl | rfl
      all_goals exact ⟨_, by simp [shortEscapes], rfl⟩
    · rename_i h
      simp only [not_or] at h
      split
      · exact .inl ⟨rfl, h.1, h.2.1⟩
      · exact .inr (.inr rfl)

theorem exists_of_mem_toDigits {n : Nat} {c : Char} (h : c ∈ Nat.toDigits 16 n) :
    ∃ d < 16, c = Nat.digitChar d := by
  induction n using Nat.strongRecOn with
  | ind n ih =>
      rw [Nat.toDigits_eq_if (by decide)] at h
      split at h
      · rename_i hn
        exact ⟨n, hn, List.mem_singleton.mp h⟩
      · rcases List.mem_append.mp h with h | h
        · exact ih (n / 16) (by omega) h
        · exact ⟨_, Nat.mod_lt n (by decide), List.mem_singleton.mp h⟩

theorem ne_brace_of_mem_toDigits {n : Nat} {c : Char} (h : c ∈ Nat.toDigits 16 n) : c ≠ '\x7d' := by
  have htable : ∀ d < 16, Nat.digitChar d ≠ '\x7d' := by decide
  obtain ⟨d, hd, rfl⟩ := exists_of_mem_toDigits h
  exact htable d hd

/-- The digits of a code point tell it, up to the brace that closes them. -/
theorem codePoint_append_inj {c d : Char} {x y : List Char}
    (h : codePoint c ++ x = codePoint d ++ y) : c = d := by
  simp only [codePoint, List.cons_append, List.append_assoc, List.nil_append,
    List.cons.injEq, true_and] at h
  obtain ⟨hdigits, -⟩ := run_append_inj (p := fun c => c != '\x7d')
    (fun _ hc => by simpa using ne_brace_of_mem_toDigits hc)
    (fun _ hc => by simpa using ne_brace_of_mem_toDigits hc)
    (by rintro _ ⟨⟩; rfl) (by rintro _ ⟨⟩; rfl) h
  have hnat := congrArg (ofDigits 16) hdigits
  rw [ofDigits_toDigits (by decide) (by decide), ofDigits_toDigits (by decide) (by decide)] at hnat
  exact Char.toNat_inj.mp hnat

theorem escaping_visiblePiece :
    Escaping visiblePiece shortEscapes (fun _ => True) codePoint where
  cases c := by
    rcases visiblePiece_cases c with ⟨h, hquote, hslash⟩ | h | h
    · exact .inl ⟨h, hquote, hslash⟩
    · exact .inr (.inl h)
    · exact .inr (.inr ⟨trivial, h⟩)
  letters := by decide
  code_head c := ⟨_, rfl⟩
  code_inj _ _ h := codePoint_append_inj h

/-- A text in visible double quotes ends where its quotes end. -/
theorem quoted_append_inj {s t : String} {x y : List Char}
    (h : (quoted s).toList ++ x = (quoted t).toList ++ y) : s = t ∧ x = y :=
  escaping_visiblePiece.append_inj h

/-- The characters that escapes are made of. -/
def escapeLetters : List Char :=
  ['\\', 'u', '{', '}'] ++ shortEscapes.map Prod.snd ++ (List.range 16).map Nat.digitChar

/-- What is escaped, by other characters, is in no piece. -/
theorem notMem_visiblePiece {x : Char} (hself : x ∉ visiblePiece x) (hletters : x ∉ escapeLetters)
    (c : Char) : x ∉ visiblePiece c := by
  intro hx
  refine hletters ?_
  rcases visiblePiece_cases c with ⟨h, -, -⟩ | ⟨e, he, h⟩ | h
  · rw [h] at hx
    obtain rfl := List.mem_singleton.mp hx
    exact absurd (h ▸ hx) hself
  · rw [h] at hx
    rcases List.mem_cons.mp hx with rfl | hx
    · decide
    · obtain rfl := List.mem_singleton.mp hx
      exact List.mem_append_left _ (List.mem_append_right _ (List.mem_map_of_mem he))
  · rw [h, codePoint, List.mem_append, List.mem_append] at hx
    rcases hx with (hx | hx) | hx
    · exact List.mem_append_left _ (List.mem_append_left _ (List.mem_append_left ['}'] hx))
    · obtain ⟨d, hd, rfl⟩ := exists_of_mem_toDigits hx
      exact List.mem_append_right _ (List.mem_map_of_mem (List.mem_range.mpr hd))
    · obtain rfl := List.mem_singleton.mp hx
      decide

/-- What is escaped, by other characters, is in no text in visible double quotes. -/
theorem notMem_quoted {x : Char} (hself : x ∉ visiblePiece x) (hletters : x ∉ escapeLetters)
    (hquote : x ≠ '"') (s : String) : x ∉ (quoted s).toList := by
  rw [quoted, String.toList_ofList, List.mem_append, List.mem_cons, List.mem_flatMap,
    List.mem_singleton]
  rintro ((hx | ⟨c, -, hc⟩) | hx)
  · exact hquote hx
  · exact notMem_visiblePiece hself hletters c hc
  · exact hquote hx

/-- A text in visible double quotes stands on one line. -/
theorem newline_notMem_quoted (s : String) : '\n' ∉ (quoted s).toList :=
  notMem_quoted (by decide) (by decide) (by decide) s

end YamlDelta.Text
