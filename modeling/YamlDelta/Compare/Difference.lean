/-
Differences: single points where two documents diverge.

A difference has a node on the left, on the right, or on both sides.  With one side it
is a deletion or an addition of a whole subtree; with two it is a modification.  It is
located by its right node if it is an addition and by its left node otherwise, and that
node gives it its path and its line.
-/
import YamlDelta.Node.Basic

namespace YamlDelta

/-- What happened from left to right. -/
inductive ChangeKind where
  | added
  | deleted
  | modified
deriving Repr, DecidableEq

namespace ChangeKind

/-- The order of differences on one line: deletions, modifications, additions. -/
def rank : ChangeKind → Nat
  | deleted => 0
  | modified => 1
  | added => 2

def name : ChangeKind → String
  | added => "added"
  | deleted => "deleted"
  | modified => "modified"

/-- The kind with a given name. -/
def ofName? (s : String) : Option ChangeKind :=
  [added, deleted, modified].find? (·.name == s)

/-- Kinds of one rank are the same. -/
theorem eq_of_rank_eq {a b : ChangeKind} (h : a.rank = b.rank) : a = b := by
  cases a <;> cases b <;> simp_all [rank]

end ChangeKind

/-- A node that was added, deleted or replaced. -/
inductive Difference where
  | added (right : Node)
  | deleted (left : Node)
  | modified (left right : Node)

namespace Difference

def kind : Difference → ChangeKind
  | added _ => .added
  | deleted _ => .deleted
  | modified _ _ => .modified

def left? : Difference → Option Node
  | added _ => none
  | deleted l | modified l _ => some l

def right? : Difference → Option Node
  | deleted _ => none
  | added r | modified _ r => some r

/-- The difference with the given sides; without any side there is none. -/
def ofSides? : Option Node → Option Node → Option Difference
  | none, none => none
  | none, some r => some (added r)
  | some l, none => some (deleted l)
  | some l, some r => some (modified l r)

/-- The node that locates the difference. -/
def anchor : Difference → Node
  | added r => r
  | deleted l | modified l _ => l

def path (d : Difference) : String := d.anchor.path

def line (d : Difference) : Nat := d.anchor.line

/-- The difference seen from the other side. -/
def swap : Difference → Difference
  | added r => deleted r
  | deleted l => added l
  | modified l r => modified r l

/-- The two differences are of one kind and have identical sides. -/
def identical : Difference → Difference → Bool
  | added r, added r' => r.identical r'
  | deleted l, deleted l' => l.identical l'
  | modified l r, modified l' r' => l.identical l' && r.identical r'
  | _, _ => false

/-- The sides determine the difference. -/
theorem ofSides?_left?_right? (d : Difference) : ofSides? d.left? d.right? = some d := by
  cases d <;> rfl

theorem swap_swap (d : Difference) : d.swap.swap = d := by
  cases d <;> rfl

end Difference

end YamlDelta
