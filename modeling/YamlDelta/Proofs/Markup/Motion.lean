/-
How a cursor moves.

A cursor goes along a line, or it comes to a later one.  `Along` and `Below` say where it
stands afterwards, which is all that a scanner wants to know: what comes next, in which
column, and on which line.
-/
import Mathlib.Data.List.Infix
import YamlDelta.Markup.Cursor

namespace YamlDelta.Markup.Cursor

/-! ### Going along a line -/

/-- The cursor has gone on by so many characters of its line. -/
structure Along (n : Nat) (c c' : Cursor) : Prop where
  rest : c'.rest = c.rest.drop n
  column : c'.column = c.column + n
  index : c'.mark.index = c.mark.index + n
  line : c'.mark.line = c.mark.line

variable {c c' c'' : Cursor} {m n : Nat}

theorem along_look (n : Nat) (c : Cursor) : Along 0 c (c.look n) :=
  ⟨rfl, rfl, rfl, rfl⟩

theorem along_advance (n : Nat) (c : Cursor) : Along n c (c.advance n) :=
  ⟨rfl, rfl, rfl, rfl⟩

theorem along_advanceBlank (n : Nat) (c : Cursor) : Along n c (c.advanceBlank n) :=
  ⟨rfl, rfl, rfl, rfl⟩

theorem Along.trans (h : Along m c c') (h' : Along n c' c'') : Along (m + n) c c'' where
  rest := by rw [h'.rest, h.rest, List.drop_drop]
  column := by rw [h'.column, h.column, Nat.add_assoc]
  index := by rw [h'.index, h.index, Nat.add_assoc]
  line := h'.line.trans h.line

theorem Along.rest_append {t r : List Char} (h : Along t.length c c') (hc : c.rest = t ++ r) :
    c'.rest = r := by
  rw [h.rest, hc, List.drop_left]

theorem head_of_rest {ch : Char} {r : List Char} (h : c.rest = ch :: r) : c.head = ch := by
  simp [head, peek, h]

theorem head_of_rest_nil (h : c.rest = []) : c.head = '\x00' := by
  simp [head, peek, h]

theorem head_eq_headD (c : Cursor) : c.head = c.rest.headD '\x00' := by
  cases h : c.rest with
  | nil => rw [head_of_rest_nil h]; rfl
  | cons ch r => rw [head_of_rest h]; rfl

/-- Neither white space nor a line break comes next; the text may end. -/
def Starts (r : List Char) : Prop :=
  isBlank (r.headD '\x00') = false ∧ isBreak (r.headD '\x00') = false

theorem starts_cons {ch : Char} {r : List Char} (h : isGap ch = false) : Starts (ch :: r) := by
  simp only [isGap, isLineEnd, Bool.or_eq_false_iff] at h
  exact ⟨h.1, h.2.1⟩

/-- The cursor has come to a later line, where it stands behind so many spaces. -/
structure Below (r : List Char) (column : Nat) (c c' : Cursor) : Prop where
  rest : c'.rest = r
  column : c'.column = column
  line : c.mark.line < c'.mark.line
  margin : c'.atMargin = true

section Below

variable {r : List Char} {d : Nat}

theorem below_passBreak (h : c.rest = '\n' :: r) : Below r 0 c c.passBreak := by
  have hhead : (c.look 2).head = '\n' := head_of_rest (c := c.look 2) h
  have hbreak : c.passBreak = (c.look 2).advanceBreak := by
    unfold passBreak
    dsimp only
    rw [hhead]
    rfl
  rw [hbreak]
  refine ⟨?_, rfl, Nat.lt_succ_self _, rfl⟩
  show c.rest.drop 1 = r
  rw [h]
  rfl

theorem Below.look (h : Below r d c c') (n : Nat) : Below r d c (c'.look n) := by
  exact ⟨h.rest, h.column, h.line, h.margin⟩

theorem Below.advanceBlank {n : Nat} (h : Below (List.replicate n ' ' ++ r) d c c') :
    Below r (d + n) c (c'.advanceBlank n) := by
  refine ⟨?_, congrArg (· + n) h.column, h.line, h.margin⟩
  show c'.rest.drop n = r
  rw [h.rest, List.drop_left' List.length_replicate]

theorem Below.of_line_eq (h : Below r d c' c'') (hline : c'.mark.line = c.mark.line) :
    Below r d c c'' :=
  ⟨h.rest, h.column, hline ▸ h.line, h.margin⟩

/-- Going along the line leads below the same cursor. -/
theorem Below.along {n : Nat} {t : List Char} (h : Below (t ++ r) d c c') (h' : Along n c' c'')
    (hn : t.length = n) (hmargin : c''.atMargin = c'.atMargin) : Below r (d + n) c c'' := by
  subst hn
  exact ⟨h'.rest_append h.rest, by rw [h'.column, h.column], h'.line ▸ h.line,
    hmargin.trans h.margin⟩

/-- The next line is below everything that this one is below. -/
theorem Below.passBreak (h : Below ('\n' :: r) d c c') : Below r 0 c c'.passBreak := by
  have h' := below_passBreak h.rest
  exact ⟨h'.rest, h'.column, Nat.lt_trans h.line h'.line, h'.margin⟩

theorem Below.head (h : Below r d c c') : c'.head = r.headD '\x00' := by
  rw [head_eq_headD, h.rest]

end Below

end YamlDelta.Markup.Cursor
