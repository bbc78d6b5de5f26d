/-
Swapping the documents mirrors the positional report.

Two collections are walked along the steps that lead to a child on either side.  Swapped,
they are walked along the same steps, for a step leads somewhere whichever side is asked
first; only their order is another one, as keys on the left come before keys on the right
only.  At each step the children are swapped in turn, and so by induction the two reports
are each other's mirror images, up to order.
-/
import YamlDelta.Proofs.Compare.Counting
import YamlDelta.Proofs.Compare.Equality

namespace YamlDelta

/-- The kind of a change seen from the other side. -/
def ChangeKind.swap : ChangeKind → ChangeKind
  | added => deleted
  | deleted => added
  | modified => modified

theorem Difference.kind_swap_eq_iff (d : Difference) (kind : ChangeKind) :
    d.swap.kind = kind ↔ d.kind = kind.swap := by
  cases d <;> cases kind <;> simp [swap, Difference.kind, ChangeKind.swap]

namespace Compare

variable {l r : Node}

/-! ### One level -/

/-- Either order of the sides leads along the same steps. -/
theorem perm_steps_comm (h : SameCollection l r) : (steps r l).Perm (steps l r) := by
  rw [List.perm_ext_iff_of_nodup (nodup_steps r l) (nodup_steps l r)]
  intro s
  rw [mem_steps h, mem_steps h.symm, or_comm]

theorem sameScalar_comm (l r : Node) : sameScalar l r = sameScalar r l := by
  cases l <;> cases r <;> first | rfl | exact Scalar.sameContent_comm _ _

theorem perm_sides_swap {deeper : Node → Node → List Difference} {a b : Option Node}
    (h : ∀ x y, a = some x → b = some y → (deeper y x).Perm ((deeper x y).map .swap)) :
    (sides deeper b a).Perm ((sides deeper a b).map .swap) := by
  cases a with
  | none => cases b <;> exact .refl _
  | some x =>
      cases b with
      | none => exact .refl _
      | some y => exact h x y rfl rfl

theorem perm_children_swap {deeper : Node → Node → List Difference} (hcoll : SameCollection l r)
    (h : ∀ s x y, l.child? s = some x → r.child? s = some y →
      (deeper y x).Perm ((deeper x y).map .swap)) :
    (children deeper r l).Perm ((children deeper l r).map .swap) := by
  unfold children
  rw [List.map_flatMap]
  refine ((perm_steps_comm hcoll).flatMap_right _).trans ?_
  apply List.Perm.flatMap_left
  intro s _
  apply perm_sides_swap
  intro x y hx hy
  exact h s x y hx hy

/-! ### All levels -/

/-- **Swapping the nodes mirrors what is reported.** -/
theorem perm_nodes_swap (l r : Node) :
    (nodes .positional r l).Perm ((nodes .positional l r).map .swap) := by
  have hsettled : ∀ a b : Node, settled .positional (nodes .positional) a b =
      children (nodes .positional) a b := by
    intro a b
    exact if_neg (by simp [CompareOptions.positional])
  induction l using Node.child_induct generalizing r with
  | h l ih =>
      by_cases hcoll : SameCollection l r
      · rw [nodes_of_sameCollection hcoll, nodes_of_sameCollection hcoll.symm, hsettled, hsettled]
        apply perm_children_swap hcoll
        intro s x y hx _
        exact ih s x hx y
      · have hcoll' : ¬SameCollection r l := fun h => hcoll h.symm
        cases hscalar : sameScalar l r with
        | true =>
            rw [nodes_of_sameScalar hscalar, nodes_of_sameScalar (sameScalar_comm r l ▸ hscalar)]
            exact .refl _
        | false =>
            rw [nodes_of_apart hcoll hscalar,
              nodes_of_apart hcoll' (sameScalar_comm r l ▸ hscalar)]
            exact .refl _

theorem perm_optional_swap (l r : Option Node) :
    (optional .positional r l).Perm ((optional .positional l r).map .swap) := by
  apply perm_sides_swap
  intro x y _ _
  exact perm_nodes_swap x y

/-! ### Counts -/

theorem count_map_swap (kind : ChangeKind) (ds : List Difference) :
    count kind (ds.map .swap) = count kind.swap ds := by
  induction ds with
  | nil => rfl
  | cons d ds ih =>
      rw [List.map_cons, count_cons, count_cons, ih]
      simp only [Difference.kind_swap_eq_iff]

/-- The mirror image of a report has additions and deletions exchanged. -/
theorem counts_of_perm_swap {ds es : List Difference} (h : es.Perm (ds.map .swap)) :
    (DocumentDiff.ofDifferences es).counts = (DocumentDiff.ofDifferences ds).counts.mirrored := by
  have hcount : ∀ kind, count kind es = count kind (ds.map .swap) := by
    intro kind
    exact h.countP_eq _
  rw [DocumentDiff.counts_ofDifferences, DocumentDiff.counts_ofDifferences, hcount, hcount, hcount,
    count_map_swap, count_map_swap, count_map_swap]
  rfl

end Compare

namespace StreamDiff

/-- **Swapping the inputs mirrors the positional report.**  The differences are those found before,
seen from the other side; so every document has as many modifications as before, and additions and
deletions have exchanged their numbers. -/
theorem positional_mirror :
    (∀ l r : Option Node, (Compare.optional .positional r l).Perm
      ((Compare.optional .positional l r).map Difference.swap)) ∧
    ∀ l r : Stream, (ofStreams .positional r l).documents.map DocumentDiff.counts =
      (ofStreams .positional l r).documents.map fun d => d.counts.mirrored := by
  refine ⟨Compare.perm_optional_swap, ?_⟩
  intro l r
  simp only [ofStreams, List.map_map]
  rw [Nat.max_comm]
  apply List.map_congr_left
  intro i _
  exact Compare.counts_of_perm_swap (Compare.perm_optional_swap (l.document i) (r.document i))

end StreamDiff

end YamlDelta
