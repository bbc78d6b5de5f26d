/-
Where an offset lies in a text: its line and its column.

A line ends after `\n`, after `\r\n`, and after a `\r` that no `\n` follows.  The
offsets just after these terminators, with the 0 of the first line in front, are the
line starts.  They increase, so the line of an offset is the number of starts up to
it and its column is the distance from the last of those.  An offset past the end of
the text has no start of its own and stays on the last line.
-/

namespace YamlDelta.Text

/-- A place in a text as people count it, from line 1 and column 1. -/
structure Position where
  line : Nat
  column : Nat
deriving Repr, DecidableEq

/-- The offsets just after each line terminator of a text that begins at offset `i`. -/
def lineEnds (i : Nat) : List Char → List Nat
  | [] => []
  | '\n' :: cs => (i + 1) :: lineEnds (i + 1) cs
  | '\r' :: '\n' :: cs => (i + 2) :: lineEnds (i + 2) cs
  | '\r' :: cs => (i + 1) :: lineEnds (i + 1) cs
  | _ :: cs => lineEnds (i + 1) cs

/-- The offsets at which the lines of a text begin. -/
def lineStarts (cs : List Char) : List Nat :=
  0 :: lineEnds 0 cs

/-- The position of an offset among increasing line starts, given the lines passed so far. -/
def locateFrom (line start : Nat) : List Nat → Nat → Position
  | s :: ss, i => if s ≤ i then locateFrom (line + 1) s ss i else ⟨line, i - start + 1⟩
  | [], i => ⟨line, i - start + 1⟩

/-- The position of an offset among the line starts of a text. -/
def locate (starts : List Nat) (i : Nat) : Position :=
  match starts with
  | [] => ⟨1, i + 1⟩
  | s :: ss => locateFrom 1 s ss i

/-- The position of offset `i` in a text. -/
def position (cs : List Char) (i : Nat) : Position :=
  locate (lineStarts cs) i

/-! ### The terminators come in order -/

/-- Every line end lies beyond the offset at which the text begins. -/
theorem lt_of_mem_lineEnds (cs : List Char) :
    ∀ (i : Nat), ∀ e ∈ lineEnds i cs, i < e := by
  intro i
  fun_induction lineEnds i cs with
  | case1 => simp
  | case2 i cs ih =>
      intro e he
      rcases List.mem_cons.1 he with rfl | he
      · omega
      · have := ih e he; omega
  | case3 i cs ih =>
      intro e he
      rcases List.mem_cons.1 he with rfl | he
      · omega
      · have := ih e he; omega
  | case4 i cs _ ih =>
      intro e he
      rcases List.mem_cons.1 he with rfl | he
      · omega
      · have := ih e he; omega
  | case5 i c cs _ _ _ ih =>
      intro e he
      have := ih e he; omega

end YamlDelta.Text
