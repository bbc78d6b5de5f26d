/-
The differences of whole documents and streams, in the order in which they are reported.

A document's differences are sorted by line and, on one line, by kind: deletions, then
modifications, then additions.  The sort is stable, so what shares both keeps the order
of the comparison.  Streams are compared document by document to the end of the longer
one, a missing document counting as an absent one.
-/
import YamlDelta.Compare.Nodes

namespace YamlDelta

/-! ### Counts -/

/-- Numbers of differences by kind. -/
structure Counts where
  added : Nat
  deleted : Nat
  modified : Nat
deriving Repr, DecidableEq

namespace Counts

def zero : Counts := ⟨0, 0, 0⟩

def add (a b : Counts) : Counts :=
  ⟨a.added + b.added, a.deleted + b.deleted, a.modified + b.modified⟩

def total (c : Counts) : Nat :=
  c.added + c.deleted + c.modified

/-- The counts in words. -/
def text (c : Counts) : String :=
  toString c.added ++ " added, " ++ toString c.deleted ++ " deleted, " ++
    toString c.modified ++ " modified"

end Counts

/-! ### Documents -/

namespace Difference

/-- The first difference is reported no later than the second. -/
def notAfter (a b : Difference) : Bool :=
  a.line < b.line || a.line == b.line && a.kind.rank ≤ b.kind.rank

/-- Insert a difference before the first one that it is not reported after. -/
def insert (d : Difference) : List Difference → List Difference
  | [] => [d]
  | e :: es => if d.notAfter e then d :: e :: es else e :: insert d es

/-- Put differences into reporting order.  A comparison makes them nearly in this order, and then
every insertion ends early. -/
def sort : List Difference → List Difference
  | [] => []
  | d :: ds => insert d (sort ds)

theorem length_insert (d : Difference) (ds : List Difference) :
    (insert d ds).length = ds.length + 1 := by
  induction ds with
  | nil => rfl
  | cons e es ih =>
      unfold insert
      split <;> simp [ih]

theorem length_sort (ds : List Difference) : (sort ds).length = ds.length := by
  induction ds with
  | nil => rfl
  | cons d ds ih => simp [sort, length_insert, ih]

end Difference

/-- The differences of one document, in reporting order. -/
structure DocumentDiff where
  differences : List Difference

namespace DocumentDiff

/-- The document with the given differences. -/
def ofDifferences (ds : List Difference) : DocumentDiff :=
  ⟨Difference.sort ds⟩

/-- The number of differences of one kind. -/
def count (kind : ChangeKind) (d : DocumentDiff) : Nat :=
  d.differences.countP (·.kind == kind)

def counts (d : DocumentDiff) : Counts :=
  ⟨d.count .added, d.count .deleted, d.count .modified⟩

/-- The two have identical differences in the same order. -/
def identical (a b : DocumentDiff) : Bool :=
  a.differences.length == b.differences.length &&
    (a.differences.zip b.differences).all fun (x, y) => x.identical y

end DocumentDiff

/-! ### Streams -/

/-- The differences of two streams, document by document. -/
structure StreamDiff where
  documents : List DocumentDiff

namespace StreamDiff

/-- Compare two streams. -/
def ofStreams (options : CompareOptions) (l r : Stream) : StreamDiff :=
  ⟨(List.range (max l.length r.length)).map fun i =>
    .ofDifferences (Compare.optional options (l.document i) (r.document i))⟩

/-- Some document has a difference. -/
def hasDifferences (d : StreamDiff) : Bool :=
  d.documents.any fun d => !d.differences.isEmpty

/-- The counts of all documents together. -/
def counts (d : StreamDiff) : Counts :=
  d.documents.foldl (fun c d => c.add d.counts) .zero

/-- The differences of a document, if it was compared. -/
def document? (d : StreamDiff) (i : Nat) : Option DocumentDiff :=
  d.documents[i]?

end StreamDiff

/-! ### Counting is additive -/

/-- Every difference is counted under exactly one kind. -/
theorem DocumentDiff.total_counts (d : DocumentDiff) :
    d.counts.total = d.differences.length := by
  unfold DocumentDiff.counts Counts.total DocumentDiff.count
  induction d.differences with
  | nil => rfl
  | cons x xs ih =>
      cases x <;> simp only [List.countP_cons, List.length_cons, Difference.kind] at ih ⊢ <;>
        simp <;> omega

end YamlDelta
