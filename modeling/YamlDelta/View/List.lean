/-
The list view: one entry for each difference.

An entry has a sign, the path, and the value that was added or deleted, or both values
of a modification with an arrow between them.  A value that takes several lines starts
on a line of its own below the path, indented by four; then the arrow points down and
stands on its own line too.  The root has no path, so its value starts right after the
sign, and its further lines are indented by two.
-/
import YamlDelta.Compare.Result
import YamlDelta.View.Emitter

namespace YamlDelta.ListView

/-- What the list view shows. -/
structure Options where
  palette : Palette
  /-- Only signs and paths. -/
  pathsOnly : Bool
  /-- The line and kind of each value. -/
  metadata : Bool
  /-- The counts of each document before its differences. -/
  counts : Bool

/-- The indentation of a value on lines of its own. -/
def valueIndent : String := "    "

/-- The indentation of the further lines of a root. -/
def rootIndent : String := "  "

/-- The mark of a kind of difference. -/
def sign : ChangeKind → String
  | .added => "+"
  | .deleted => "-"
  | .modified => "~"

/-- Append a part, after a space unless it starts a line. -/
def joinPart (out part : String) : String :=
  if part.isEmpty then out
  else if out.isEmpty || part.toList.head? == some '\n' then out ++ part
  else out ++ " " ++ part

/-- Join the parts of an entry. -/
def joinParts (parts : List String) : String :=
  parts.foldl joinPart ""

/-- The value takes lines of its own. -/
def isMultiline (n : Node) : Bool :=
  n.kind.isCollection || n.kind == .literal

/-- A line with a line feed before it and an indentation, unless it is empty. -/
def onNewLine (indentation line : String) : String :=
  "\n" ++ Lines.pad indentation line

/-- A value.  One that takes lines of its own starts below the path, or after the sign at the
root. -/
def value (o : Options) (root : Bool) (n : Node) : String :=
  if isMultiline n then
    match Emitter.nodeLines o.palette n, root with
    | l :: ls, true => l ++ String.join (ls.map (onNewLine rootIndent))
    | ls, _ => String.join (ls.map (onNewLine valueIndent))
  else Emitter.inline o.palette n

/-- The line and kind of a node, if they are shown. -/
def metadata (o : Options) (n : Node) : String :=
  if o.metadata then
    o.palette.metadata ("[line:" ++ toString n.line ++ " <" ++ n.kind.name ++ ">]")
  else ""

/-- Both values of a modification and the arrow between them.  If only one value takes lines of its
own, the other is put on a line of its own as well. -/
def modification (o : Options) (root : Bool) (l r : Node) : List String :=
  let left := value o root l
  let right := value o root r
  let (left, arrow, right) :=
    if isMultiline l || isMultiline r then
      let start := "\n" ++ if root then rootIndent else valueIndent
      let arrow := "\n" ++ valueIndent ++ "↓"
      if !isMultiline l && !root then (start ++ left, arrow, right)
      else if !isMultiline r || root then (left, arrow, start ++ right)
      else (left, arrow, right)
    else (left, "→", right)
  [metadata o l, left, arrow, metadata o r, right]

/-- The entry of a difference. -/
def difference (o : Options) (d : Difference) : String :=
  let sign := o.palette.change d.kind (sign d.kind)
  let path := o.palette.change d.kind d.path
  let root := d.path.isEmpty
  if o.pathsOnly then joinParts [sign, path]
  else
    let label := if root then "" else path ++ ":"
    match d with
    | .added n | .deleted n => joinParts [sign, label, metadata o n, value o root n]
    | .modified l r => joinParts (sign :: label :: modification o root l r)

/-- The entries of a document, one after the other. -/
def document (o : Options) (d : DocumentDiff) : String :=
  let body := "\n".intercalate (d.differences.map (difference o))
  if o.counts then d.counts.text ++ "\n" ++ body else body

/-- All documents, with a line of hyphens between them. -/
def render (o : Options) (d : StreamDiff) : String :=
  "\n---\n".intercalate (d.documents.map (document o))

end YamlDelta.ListView
