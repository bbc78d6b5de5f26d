/-
A node on one line, in flow style: `{a: 1, b: [x, y]}`.

Keys and scalars appear as they were written.  A block of text has no one-line form of
its own, so it is shown in double quotes.
-/
import YamlDelta.Node.Basic

namespace YamlDelta.Node

/-- A scalar in flow style. -/
def scalarFlow (v : Scalar) (p : Place) : String :=
  match v with
  | .literal s => Text.quoted s
  | _ => p.text

mutual
/-- The node in flow style. -/
def flow : Node → String
  | mapping es _ => "\x7b" ++ ", ".intercalate (flowEntries es) ++ "\x7d"
  | sequence is _ => "[" ++ ", ".intercalate (flowItems is) ++ "]"
  | scalar v p => scalarFlow v p
/-- The entries of a mapping in flow style. -/
def flowEntries : List (String × Node) → List String
  | [] => []
  | (k, n) :: es => (k ++ ": " ++ n.flow) :: flowEntries es
/-- The items of a sequence in flow style. -/
def flowItems : List Node → List String
  | [] => []
  | n :: is => n.flow :: flowItems is
end

/-- The text that stands for a node used as a mapping key: the content of a text, the flow style
of anything else. -/
def keyText : Node → String
  | scalar (.string s) _ | scalar (.literal s) _ => s
  | n => n.flow

end YamlDelta.Node
