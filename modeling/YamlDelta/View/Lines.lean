/-
Blocks of lines, and how they are set inside each other.

A block is a list of lines.  It is indented by putting spaces before its lines, and made
an item of a list by a hyphen before the first and as many spaces before the others.
Empty lines stay empty either way.
-/

namespace YamlDelta.Lines

/-- Put a text before a line, unless the line is empty. -/
def pad (before line : String) : String :=
  if line.isEmpty then line else before ++ line

/-- Indent a block. -/
def indent (width : Nat) (lines : List String) : List String :=
  lines.map (pad (String.ofList (List.replicate width ' ')))

/-- Make a block an item of a list. -/
def bullet : List String → List String
  | [] => []
  | l :: ls => ("- " ++ l) :: ls.map (pad "  ")

/-- Put a text before the first line of a block. -/
def lead (before : String) : List String → List String
  | [] => []
  | l :: ls => (before ++ l) :: ls

/-- The lines of a text, which line feeds separate. -/
def ofText (s : String) : List String :=
  (s.toList.splitOn '\n').map String.ofList

@[simp] theorem length_indent (width : Nat) (lines : List String) :
    (indent width lines).length = lines.length := by
  simp [indent]

@[simp] theorem length_bullet (lines : List String) : (bullet lines).length = lines.length := by
  cases lines <;> simp [bullet]

@[simp] theorem length_lead (before : String) (lines : List String) :
    (lead before lines).length = lines.length := by
  cases lines <;> rfl

end YamlDelta.Lines
