/-
The eight kinds of node, and which of them can be compared by content.

Two nodes of one kind are compared by what they hold; nodes of different kinds are
different as wholes.  The one exception is text: a block of literal text and a string
say the same thing if their characters agree, however they were written down.
-/

namespace YamlDelta

/-- What sort of value a node holds. -/
inductive Kind where
  | mapping
  | sequence
  | string
  /-- A block of text, written after `|` or `>`. -/
  | literal
  | integer
  | float
  | bool
  | null
deriving Repr, DecidableEq

namespace Kind

/-- All kinds. -/
def all : List Kind :=
  [mapping, sequence, string, literal, integer, float, bool, null]

/-- The name shown to people. -/
def name : Kind → String
  | mapping => "Mapping"
  | sequence => "Sequence"
  | string => "String"
  | literal => "Literal"
  | integer => "Integer"
  | float => "Float"
  | bool => "Bool"
  | null => "Null"

/-- The kind with a given name. -/
def ofName? (s : String) : Option Kind :=
  all.find? (·.name == s)

/-- Both kinds hold text. -/
def isText : Kind → Bool
  | string | literal => true
  | _ => false

/-- Nodes of these kinds are compared by content, not reported as replaced. -/
def compatible (a b : Kind) : Bool :=
  decide (a = b) || a.isText && b.isText

/-- Mappings and sequences. -/
def isCollection : Kind → Bool
  | mapping | sequence => true
  | _ => false

/-- Every kind is listed. -/
theorem mem_all (k : Kind) : k ∈ all := by
  cases k <;> decide

theorem compatible_refl (a : Kind) : a.compatible a = true := by
  simp [compatible]

theorem compatible_comm (a b : Kind) : a.compatible b = b.compatible a := by
  cases a <;> cases b <;> rfl

end Kind

end YamlDelta
