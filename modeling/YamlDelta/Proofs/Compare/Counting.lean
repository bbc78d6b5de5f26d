/-
Counting differences by kind.

Putting differences into reporting order neither drops nor repeats any, so a document
counts what the comparison found.  A difference has a right side unless it is a deletion
and a left side unless it is an addition; so additions outnumber deletions by exactly as
much as right sides outnumber left ones.  That number is the `surplus`, and it is what a
step that clears sides in pairs cannot change.
-/
import YamlDelta.Compare.Result
import YamlDelta.Proofs.Compare.Pairing

namespace YamlDelta

namespace Difference

theorem perm_insert (d : Difference) (ds : List Difference) : (insert d ds).Perm (d :: ds) := by
  induction ds with
  | nil => exact .refl _
  | cons e es ih =>
      unfold insert
      split
      · exact .refl _
      · exact (ih.cons e).trans (.swap d e es)

/-- Sorting leaves nothing out and adds nothing. -/
theorem perm_sort (ds : List Difference) : (sort ds).Perm ds := by
  induction ds with
  | nil => exact .refl _
  | cons d ds ih => exact (perm_insert d (sort ds)).trans (ih.cons d)

end Difference

namespace Compare

/-- How many of the differences are of one kind. -/
def count (kind : ChangeKind) (ds : List Difference) : Nat :=
  ds.countP (·.kind == kind)

theorem count_cons (kind : ChangeKind) (d : Difference) (ds : List Difference) :
    count kind (d :: ds) = count kind ds + if d.kind = kind then 1 else 0 := by
  simp [count, List.countP_cons]

/-- A difference has a right side unless it is a deletion, and a left side unless it is an
addition. -/
theorem length_rights_add_deleted (ds : List Difference) :
    (rights ds).length + count .deleted ds = (lefts ds).length + count .added ds := by
  induction ds with
  | nil => rfl
  | cons d ds ih =>
      rw [count_cons, count_cons, lefts_cons, rights_cons]
      cases d <;> simp [Difference.kind, Difference.left?, Difference.right?] <;> omega

/-- By how many additions outnumber deletions. -/
def surplus (ds : List Difference) : Int :=
  (count .added ds : Int) - count .deleted ds

end Compare

/-! ### Documents and streams -/

namespace DocumentDiff

/-- A document counts what was found. -/
theorem counts_ofDifferences (ds : List Difference) :
    (ofDifferences ds).counts =
      ⟨Compare.count .added ds, Compare.count .deleted ds, Compare.count .modified ds⟩ := by
  have hcount : ∀ kind, (ofDifferences ds).count kind = Compare.count kind ds := by
    intro kind
    exact (Difference.perm_sort ds).countP_eq _
  rw [counts, hcount, hcount, hcount]

end DocumentDiff

namespace Counts

/-- By how many additions outnumber deletions. -/
def surplus (c : Counts) : Int :=
  (c.added : Int) - c.deleted

/-- The counts of the same differences seen from the other side. -/
def mirrored (c : Counts) : Counts :=
  ⟨c.deleted, c.added, c.modified⟩

theorem surplus_add (c d : Counts) : (c.add d).surplus = c.surplus + d.surplus := by
  simp only [surplus, add]
  omega

/-- What adds up from documents of equal surplus has equal surplus. -/
theorem surplus_foldl {ds es : List DocumentDiff}
    (h : ds.map (fun d => d.counts.surplus) = es.map (fun d => d.counts.surplus)) :
    ∀ a b : Counts, a.surplus = b.surplus →
      (ds.foldl (fun c d => c.add d.counts) a).surplus =
        (es.foldl (fun c d => c.add d.counts) b).surplus := by
  induction ds generalizing es with
  | nil =>
      intro a b hab
      cases es with
      | nil => exact hab
      | cons e es => simp at h
  | cons d ds ih =>
      intro a b hab
      cases es with
      | nil => simp at h
      | cons e es =>
          simp only [List.map_cons, List.cons.injEq] at h
          refine ih h.2 _ _ ?_
          rw [surplus_add, surplus_add, hab, h.1]

end Counts

end YamlDelta
