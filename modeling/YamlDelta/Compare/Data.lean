/-
Options, counts and kinds as JSON data.

A record is written as an object and read from an object or from the array of its fields
in order.  Fields may come in any order and unknown ones are passed over, but none may
come twice.  A name among a fixed set is a string, or an object whose only member has
that name and no value.
-/
import YamlDelta.Compare.Result
import YamlDelta.Json.Reader

namespace YamlDelta

namespace Json.Raw

/-- The values of a record's fields: those of an object by name, those of an array by position.
A missing field has no value; a repeated or surplus one spoils the record. -/
def fields? (names : List String) : Raw → Option (List (Option Raw))
  | .object ms => do
    let ms ← ms.mapM fun (name, v) => name.map (·, v)
    names.mapM fun name =>
      match ms.filter (·.1 == name) with
      | [] => some none
      | [(_, v)] => some (some v)
      | _ => none
  | .array is =>
    if is.length ≤ names.length then
      some (is.map some ++ List.replicate (names.length - is.length) none)
    else none
  | _ => none

def bool? : Raw → Option Bool
  | .bool b => some b
  | _ => none

/-- A number of 64 bits without sign, point or exponent. -/
def word? : Raw → Option Nat
  | .number ds =>
    if Text.isRun Char.isDigit ds && Text.ofDigits 10 ds < UInt64.size then
      some (Text.ofDigits 10 ds)
    else none
  | _ => none

/-- A name on its own, or as the only member of an object without a value. -/
def name? : Raw → Option String
  | .string s => s
  | .object [(s, .null)] => s
  | _ => none

end Json.Raw

open Json (Raw)

namespace CompareOptions

def fieldNames : List String := ["ignore_seq_order"]

def toJson (o : CompareOptions) : Json :=
  .object [("ignore_seq_order", .bool o.ignoreOrder)]

/-- A missing field means positional comparison. -/
def ofRaw? (j : Raw) : Option CompareOptions := do
  match ← j.fields? fieldNames with
  | [none] => some .positional
  | [some v] => (⟨·⟩) <$> v.bool?
  | _ => none

end CompareOptions

namespace Counts

def fieldNames : List String := ["added", "deleted", "modified"]

def toJson (c : Counts) : Json :=
  .object [("added", .integer c.added), ("deleted", .integer c.deleted),
    ("modified", .integer c.modified)]

/-- All fields must be present. -/
def ofRaw? (j : Raw) : Option Counts := do
  match ← j.fields? fieldNames with
  | [some a, some d, some m] => some ⟨← a.word?, ← d.word?, ← m.word?⟩
  | _ => none

end Counts

def Kind.ofRaw? (j : Raw) : Option Kind :=
  j.name?.bind Kind.ofName?

def Kind.toJson (k : Kind) : Json := .string k.name

def ChangeKind.ofRaw? (j : Raw) : Option ChangeKind :=
  j.name?.bind ChangeKind.ofName?

def ChangeKind.toJson (k : ChangeKind) : Json := .string k.name

end YamlDelta
