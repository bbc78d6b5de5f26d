/-
Paths: where a node lies in its document, as text.

A path is read from the root, which has the empty path.  A mapping entry adds a dot
and its key, a sequence item adds its index in brackets.  A key that could be taken
for several steps, or for none, is put in single quotes: one that is empty, or that
holds a dot, a bracket, a quote or white space.  With that, the steps can be read
back from the text.
-/
import YamlDelta.Text.Quoted

namespace YamlDelta

/-- One step down a document. -/
inductive Step where
  | key (k : String)
  | index (i : Nat)
deriving Repr, DecidableEq

namespace Path

/-- A character that has a meaning of its own in a path. -/
def isSpecial (c : Char) : Bool :=
  c == '.' || c == '[' || c == ']' || c == '\'' || Text.isWhitespace c

/-- The key would not be read back as one step. -/
def isAmbiguous (key : String) : Bool :=
  key.isEmpty || key.toList.any isSpecial

/-- The path of the value under `key` in the mapping at `parent`. -/
def key (parent k : String) : String :=
  parent ++ "." ++ if isAmbiguous k then Text.singleQuoted k else k

/-- The path of the item at `i` in the sequence at `parent`. -/
def index (parent : String) (i : Nat) : String :=
  parent ++ "[" ++ toString i ++ "]"

/-- The path of one step from `parent`. -/
def step (parent : String) : Step → String
  | .key k => key parent k
  | .index i => index parent i

/-- The path of a list of steps from the root. -/
def render (steps : List Step) : String :=
  steps.foldl step ""

/-- The text after `path` in `longer` begins a further step. -/
def isBelow (path longer : String) : Bool :=
  path.toList.isPrefixOf longer.toList &&
    match longer.toList.drop path.toList.length with
    | c :: _ => c == '.' || c == '['
    | [] => false

theorem render_nil : render [] = "" := rfl

/-- The last step is the last piece of the path. -/
theorem render_concat (steps : List Step) (s : Step) :
    render (steps ++ [s]) = step (render steps) s := by
  simp [render, List.foldl_append]

end Path

end YamlDelta
