/-
The unified view: both documents merged into one, every line with a status.

The two trees are walked together.  Where the comparison has reported a difference, its
left side is removed and its right side added; a collection with differences further
below is opened, and only the lines that changed are marked; everything else is context,
shown as on the right.  A difference is found by its path, and a collection has
differences below it when some path goes on from its own.

When order is ignored, differences that cancelled leave positions where only one side is
reported.  In a sequence the other side is then shown as it is: an item on the right
whose partner was deleted is context.
-/
import YamlDelta.Compare.Result
import YamlDelta.View.Emitter

namespace YamlDelta.Unified

/-- What happened to a line. -/
inductive Status where
  | context
  | added
  | removed
deriving Repr, DecidableEq

/-- A line of the merged document. -/
structure Line where
  status : Status
  content : String
deriving Repr, DecidableEq

/-- The line behind the sign of its status. -/
def Line.render (p : Palette) (l : Line) : String :=
  match l.status with
  | .context => " " ++ l.content
  | .added => p.added ("+" ++ l.content)
  | .removed => p.deleted ("-" ++ l.content)

/-- Lines of one status. -/
def annotate (status : Status) (lines : List String) : List Line :=
  lines.map (⟨status, ·⟩)

/-- Change the layout of lines; each keeps its status. -/
def relayout (layout : List String → List String) (lines : List Line) : List Line :=
  (lines.zip (layout (lines.map (·.content)))).map fun (l, content) => { l with content }

/-! ### Finding differences -/

/-- The difference at a path; of several, the last one reported. -/
def differenceAt? (ds : List Difference) (path : String) : Option Difference :=
  ds.reverse.find? (·.path == path)

/-- Some difference lies below a path. -/
def hasBelow (ds : List Difference) (path : String) : Bool :=
  ds.any fun d => Path.isBelow path d.path

/-! ### Merging -/

/-- A way to write one side of a position. -/
abbrev Writer := Node → List String

/-- Write a position as its difference says, if it has one. -/
def changed? (ds : List Difference) (write : Writer) (l r : Node) : Option (List Line) :=
  (differenceAt? ds r.path).map fun
    | .added _ => annotate .added (write r)
    | .deleted _ => annotate .removed (write l)
    | .modified _ _ => annotate .removed (write l) ++ annotate .added (write r)

/-- Merge two nodes, given how to merge the parts of collections. -/
def nodes (ds : List Difference) (parts : Node → Node → Option (List Line)) (l r : Node) :
    List Line :=
  match changed? ds (Emitter.nodeLines .plain) l r with
  | some lines => lines
  | none =>
    match parts l r with
    | some lines => lines
    | none => annotate .context (Emitter.nodeLines .plain r)

/-- Merge the two values of a key. -/
def entry (ds : List Difference) (parts : Node → Node → Option (List Line)) (key : String) :
    Option Node → Option Node → List Line
  | some l, some r =>
    match changed? ds (Emitter.entryLines .plain key) l r with
    | some lines => lines
    | none =>
      if hasBelow ds r.path then
        ⟨.context, Emitter.keyLine .plain key⟩ ::
          relayout (Lines.indent 2) (nodes ds parts l r)
      else annotate .context (Emitter.entryLines .plain key r)
  | some l, none => annotate .removed (Emitter.entryLines .plain key l)
  | none, some r => annotate .added (Emitter.entryLines .plain key r)
  | none, none => []

/-- Merge two mappings: the keys of the left one, then those of the right one only. -/
def mappings (ds : List Difference) (parts : Node → Node → Option (List Line))
    (ls rs : List (String × Node)) : List Line :=
  (Compare.keys (ls ++ rs)).flatMap fun k =>
    entry ds parts k (Node.lookup k ls) (Node.lookup k rs)

/-- Merge two items at one index. -/
def item (ds : List Difference) (parts : Node → Node → Option (List Line)) (l r : Node) :
    List Line :=
  let left := Emitter.itemLines .plain l
  let right := Emitter.itemLines .plain r
  match differenceAt? ds r.path with
  | some (.deleted _) => annotate .removed left ++ annotate .context right
  | some (.added _) => annotate .added right
  | some (.modified _ _) => annotate .removed left ++ annotate .added right
  | none =>
    if hasBelow ds r.path then
      match parts l r with
      | some lines => relayout Lines.bullet lines
      | none => annotate .context right
    else annotate .context right

/-- Merge two sequences index by index. -/
def sequences (ds : List Difference) (parts : Node → Node → Option (List Line)) :
    List Node → List Node → List Line
  | l :: ls, r :: rs => item ds parts l r ++ sequences ds parts ls rs
  | ls, [] => ls.flatMap fun l => annotate .removed (Emitter.itemLines .plain l)
  | [], rs => rs.flatMap fun r => annotate .added (Emitter.itemLines .plain r)

/-- Merge the parts of two collections of one kind, to a depth. -/
def partsWithin (ds : List Difference) : Nat → Node → Node → Option (List Line)
  | 0, _, _ => none
  | depth + 1, .mapping ls _, .mapping rs _ => some (mappings ds (partsWithin ds depth) ls rs)
  | depth + 1, .sequence ls _, .sequence rs _ => some (sequences ds (partsWithin ds depth) ls rs)
  | _ + 1, _, _ => none

/-- Merge the parts of two collections of one kind. -/
def parts? (ds : List Difference) (l r : Node) : Option (List Line) :=
  partsWithin ds l.height l r

/-! ### Documents -/

/-- Merge two documents by the differences between them. -/
def document (ds : List Difference) : Option Node → Option Node → List Line
  | none, none => []
  | none, some r => annotate .added (Emitter.nodeLines .plain r)
  | some l, none => annotate .removed (Emitter.nodeLines .plain l)
  | some l, some r => nodes ds (parts? ds) l r

/-- The lines of the documents at an index. -/
def documentAt (l r : Stream) (d : StreamDiff) (i : Nat) : List Line :=
  document ((d.document? i).elim [] (·.differences)) (l.document i) (r.document i)

/-- All lines of the view, with a line of hyphens between documents. -/
def lines (p : Palette) (l r : Stream) (d : StreamDiff) : List String :=
  (List.range (max l.length r.length)).flatMap fun i =>
    (if i = 0 then [] else ["---"]) ++ (documentAt l r d i).map (·.render p)

/-- The unified view of two streams. -/
def render (p : Palette) (l r : Stream) (d : StreamDiff) : String :=
  "\n".intercalate (lines p l r d)

end YamlDelta.Unified
