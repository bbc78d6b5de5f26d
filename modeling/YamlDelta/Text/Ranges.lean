/-
Sets of characters given by tables of code point ranges.

A Unicode property is data, not logic: it is a list of closed ranges, and a
character has the property when its code point lies in one of them.  Everything a
later module asks of such a set goes through `mem`, so that a table can grow with
the standard without a proof noticing, as long as it does not touch the few
characters the proof is about.
-/

namespace YamlDelta.Text

/-- A set of characters, as closed ranges of code points. -/
structure Ranges where
  /-- First and last code point of each range. -/
  bounds : List (Nat × Nat)

namespace Ranges

/-- The character's code point lies in one of the ranges. -/
def mem (r : Ranges) (c : Char) : Bool :=
  r.bounds.any fun b => b.1 ≤ c.toNat && c.toNat ≤ b.2

theorem mem_iff (r : Ranges) (c : Char) :
    r.mem c = true ↔ ∃ b ∈ r.bounds, b.1 ≤ c.toNat ∧ c.toNat ≤ b.2 := by
  simp [mem]

end Ranges

/-- The characters with the `White_Space` property of Unicode. -/
def whitespace : Ranges :=
  ⟨[(0x9, 0xD), (0x20, 0x20), (0x85, 0x85), (0xA0, 0xA0), (0x1680, 0x1680), (0x2000, 0x200A),
    (0x2028, 0x2029), (0x202F, 0x202F), (0x205F, 0x205F), (0x3000, 0x3000)]⟩

/-- White space in the sense of Unicode, which is wider than that of `Char.isWhitespace`. -/
def isWhitespace (c : Char) : Bool :=
  whitespace.mem c

end YamlDelta.Text
