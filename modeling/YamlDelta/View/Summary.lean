/-
The summary views: counts, and the differences as data.

The data of a node is its value: a scalar is the JSON value of its content, a mapping an
object, a sequence an array.  Where it was written is left out.  A difference is an object
of its kind, path and line and of the sides it has.
-/
import YamlDelta.Compare.Result
import YamlDelta.Json.Value

namespace YamlDelta

/-- The content of a scalar as data. -/
def Scalar.toJson : Scalar → Json
  | string s | literal s => .string s
  | integer i => .integer i.toInt
  | float x => .number x
  | bool b => .bool b
  | null => .null

namespace Node

mutual
/-- The value of a node as data. -/
def toJson : Node → Json
  | mapping es _ => .object (entriesToJson es)
  | sequence is _ => .array (itemsToJson is)
  | scalar v _ => v.toJson
def entriesToJson : List (String × Node) → List (String × Json)
  | [] => []
  | (k, n) :: es => (k, n.toJson) :: entriesToJson es
def itemsToJson : List Node → List Json
  | [] => []
  | n :: is => n.toJson :: itemsToJson is
end

end Node

/-- A side of a difference as a member of an object; an absent side is no member. -/
def sideMember (name : String) (side : Option Node) : List (String × Json) :=
  match side with
  | none => []
  | some n => [(name, n.toJson)]

/-- A difference as data. -/
def Difference.toJson (d : Difference) : Json :=
  .object ([("kind", .string d.kind.name), ("path", .string d.path), ("line", .integer d.line)] ++
    sideMember "left" d.left? ++ sideMember "right" d.right?)

/-- All differences as data: an array for each document. -/
def StreamDiff.toJson (d : StreamDiff) : Json :=
  .array (d.documents.map fun doc => .array (doc.differences.map Difference.toJson))

namespace Summary

/-- The counts of all documents together. -/
def stat (d : StreamDiff) : String := d.counts.text

/-- All differences as data. -/
def json (d : StreamDiff) : String := d.toJson.pretty

end Summary

end YamlDelta
