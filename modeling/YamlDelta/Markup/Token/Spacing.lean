/-
White space inside a scalar.

Between two words of a scalar that is not a block, blanks on one line stand for
themselves, and line breaks are folded: one break becomes a space, and of several all
but the first remain.  Blanks next to a break vanish.
-/

namespace YamlDelta.Markup

/-- Line breaks and blanks between two words of a scalar. -/
structure Spacing where
  /-- The blanks before any break, the last one first. -/
  blanks : List Char
  /-- There was a break. -/
  broken : Bool
  /-- The number of breaks after the first. -/
  extra : Nat

namespace Spacing

/-- No white space. -/
def none : Spacing := ⟨[], false, 0⟩

/-- A break on a line with text drops the blanks before it; one on an empty line is counted. -/
def addBreak (fresh : Bool) (s : Spacing) : Spacing :=
  if fresh then { s with extra := s.extra + 1 } else ⟨[], true, s.extra⟩

/-- What the white space becomes when it is folded: a single break is a space. -/
def folded (s : Spacing) : List Char :=
  if s.broken && s.extra == 0 then [' '] else List.replicate s.extra '\n'

end Spacing

end YamlDelta.Markup
