/-
Ignoring order clears sides in pairs.

A comparison up to order goes down the trees as a positional one does, and at every pair
of sequences it cancels equal sides of what it has found below.  Cancelling clears as many
left sides as right ones, leaves the others where they are and drops what has lost all its
sides.  Such steps may follow one another and may happen in different parts of a list; so
they add up over the levels of a tree, however often an inner level has already turned a
modification into an addition or a deletion.

What holds of every such step holds of the outcome: nothing is reported that was not
reported by position, and additions outnumber deletions by the same number.
-/
import YamlDelta.Proofs.Compare.Counting
import YamlDelta.Proofs.Compare.Equality
import YamlDelta.Proofs.Compare.Thinning

namespace YamlDelta

namespace Compare

/-! ### Thinning in steps and in parts -/

variable {ds es cs ds' es' : List Difference}

theorem Thinned.append (h : Thinned es ds) (h' : Thinned es' ds') :
    Thinned (es ++ es') (ds ++ ds') := by
  induction h with
  | nil => exact h'
  | kept hl hr _ ih => exact .kept hl hr ih
  | dropped d _ ih => exact .dropped d ih

theorem Thinned.trans (h : Thinned es ds) (h' : Thinned ds cs) : Thinned es cs := by
  induction h' generalizing es with
  | nil => exact h
  | dropped c _ ih => exact .dropped c (ih h)
  | @kept c d cs ds hl hr _ ih =>
      cases h with
      | dropped _ h => exact .dropped c (ih h)
      | kept hl' hr' h =>
          refine .kept ?_ ?_ (ih h)
          · rcases hl' with hl' | hl'
            · exact Or.inl hl'
            · rwa [hl']
          · rcases hr' with hr' | hr'
            · exact Or.inl hr'
            · rwa [hr']

theorem Thinned.length_le (h : Thinned es ds) : es.length ≤ ds.length := by
  induction h with
  | nil => exact Nat.le_refl _
  | kept _ _ _ ih => exact Nat.succ_le_succ ih
  | dropped _ _ ih => exact Nat.le_succ_of_le ih

/-! ### Pairs -/

/-- The first list is left of the second when as many left sides as right ones are cleared, and what
has no side is dropped. -/
structure ClearedInPairs (pairs : Nat) (es ds : List Difference) : Prop where
  thinned : Thinned es ds
  left : (lefts ds).length = (lefts es).length + pairs
  right : (rights ds).length = (rights es).length + pairs

variable {m n : Nat}

theorem ClearedInPairs.refl (ds : List Difference) : ClearedInPairs 0 ds ds :=
  ⟨.refl ds, rfl, rfl⟩

/-- Pairs cleared in different parts of a list add up. -/
theorem ClearedInPairs.append (h : ClearedInPairs m es ds) (h' : ClearedInPairs n es' ds') :
    ClearedInPairs (m + n) (es ++ es') (ds ++ ds') := by
  refine ⟨h.thinned.append h'.thinned, ?_, ?_⟩
  · rw [lefts_append, lefts_append, List.length_append, List.length_append, h.left, h'.left]
    omega
  · rw [rights_append, rights_append, List.length_append, List.length_append, h.right, h'.right]
    omega

/-- Pairs cleared one after the other add up. -/
theorem ClearedInPairs.trans (h : ClearedInPairs m es ds) (h' : ClearedInPairs n ds cs) :
    ClearedInPairs (m + n) es cs := by
  refine ⟨h.thinned.trans h'.thinned, ?_, ?_⟩
  · rw [h'.left, h.left]
    omega
  · rw [h'.right, h.right]
    omega

theorem exists_clearedInPairs_flatMap {α : Type} {f g : α → List Difference} :
    ∀ as : List α, (∀ a ∈ as, ∃ n, ClearedInPairs n (f a) (g a)) →
      ∃ n, ClearedInPairs n (as.flatMap f) (as.flatMap g) := by
  intro as
  induction as with
  | nil => intro _; exact ⟨0, .refl []⟩
  | cons a as ih =>
      intro h
      obtain ⟨m, hm⟩ := h a (by simp)
      obtain ⟨n, hn⟩ := ih (fun b hb => h b (by simp [hb]))
      exact ⟨m + n, hm.append hn⟩

/-- **Cancelling clears sides in pairs.** -/
theorem exists_clearedInPairs_cancel (equal : Node → Node → Bool) (ds : List Difference) :
    ∃ n, ClearedInPairs n (cancel equal ds) ds := by
  obtain ⟨pairs, -, hl, hr⟩ := accounted_cancel equal ds
  refine ⟨pairs.length, thinned_cancel equal ds, ?_, ?_⟩
  · rw [hl.length_eq, List.length_append, List.length_map]
  · rw [hr.length_eq, List.length_append, List.length_map]

/-! ### The comparison -/

theorem exists_clearedInPairs_sides {f g : Node → Node → List Difference} {a b : Option Node}
    (h : ∀ x y, a = some x → b = some y → ∃ n, ClearedInPairs n (f x y) (g x y)) :
    ∃ n, ClearedInPairs n (sides f a b) (sides g a b) := by
  cases a with
  | none => exact ⟨0, by cases b <;> exact .refl _⟩
  | some x =>
      cases b with
      | none => exact ⟨0, .refl _⟩
      | some y => exact h x y rfl rfl

/-- **Ignoring order clears sides in pairs.**  By induction on the left tree: what the children
report is cleared in pairs already, and a sequence then cancels once more. -/
theorem exists_clearedInPairs_nodes (l r : Node) :
    ∃ n, ClearedInPairs n (nodes .unordered l r) (nodes .positional l r) := by
  induction l using Node.child_induct generalizing r with
  | h l ih =>
      by_cases hcoll : SameCollection l r
      · obtain ⟨n, hchildren⟩ : ∃ n, ClearedInPairs n (children (nodes .unordered) l r)
            (children (nodes .positional) l r) := by
          apply exists_clearedInPairs_flatMap
          intro s _
          apply exists_clearedInPairs_sides
          intro x y hx _
          exact ih s x hx y
        rw [nodes_of_sameCollection hcoll, nodes_of_sameCollection hcoll]
        have hpositional : settled .positional (nodes .positional) l r =
            children (nodes .positional) l r := if_neg (by simp [CompareOptions.positional])
        rw [hpositional]
        unfold settled
        split
        · obtain ⟨m, hcancel⟩ := exists_clearedInPairs_cancel
            (fun a b => (nodes .unordered a b).isEmpty) (children (nodes .unordered) l r)
          exact ⟨m + n, hcancel.trans hchildren⟩
        · exact ⟨n, hchildren⟩
      · -- here no option is looked at
        cases hscalar : sameScalar l r with
        | true =>
            rw [nodes_of_sameScalar hscalar, nodes_of_sameScalar hscalar]
            exact ⟨0, .refl []⟩
        | false =>
            rw [nodes_of_apart hcoll hscalar, nodes_of_apart hcoll hscalar]
            exact ⟨0, .refl _⟩

theorem exists_clearedInPairs_optional (l r : Option Node) :
    ∃ n, ClearedInPairs n (optional .unordered l r) (optional .positional l r) :=
  exists_clearedInPairs_sides fun x y _ _ => exists_clearedInPairs_nodes x y

/-- Pairs count on both sides alike. -/
theorem ClearedInPairs.surplus_eq (h : ClearedInPairs n es ds) : surplus es = surplus ds := by
  have hes := length_rights_add_deleted es
  have hds := length_rights_add_deleted ds
  have hl := h.left
  have hr := h.right
  unfold surplus
  omega

end Compare

namespace StreamDiff

/-- Document by document, additions outnumber deletions by the same number in both modes. -/
theorem map_surplus_unordered (l r : Stream) :
    (ofStreams .unordered l r).documents.map (fun d => d.counts.surplus) =
      (ofStreams .positional l r).documents.map (fun d => d.counts.surplus) := by
  simp only [ofStreams, List.map_map]
  apply List.map_congr_left
  intro i _
  obtain ⟨n, h⟩ := Compare.exists_clearedInPairs_optional (l.document i) (r.document i)
  show (DocumentDiff.ofDifferences _).counts.surplus = (DocumentDiff.ofDifferences _).counts.surplus
  rw [DocumentDiff.counts_ofDifferences, DocumentDiff.counts_ofDifferences]
  exact h.surplus_eq

/-- **Ignoring order only removes, in balanced pairs.**  What it reports is left of the positional
report when sides are cleared in pairs; so it reports nothing where there is no positional
difference, never more differences, and the same surplus of additions, in one document and in whole
streams. -/
theorem unordered_removes_in_pairs :
    (∀ l r : Option Node,
      (∃ n, Compare.ClearedInPairs n (Compare.optional .unordered l r)
        (Compare.optional .positional l r)) ∧
      (Compare.optional .positional l r = [] → Compare.optional .unordered l r = []) ∧
      (Compare.optional .unordered l r).length ≤ (Compare.optional .positional l r).length ∧
      Compare.surplus (Compare.optional .unordered l r) =
        Compare.surplus (Compare.optional .positional l r)) ∧
    ∀ l r : Stream,
      (ofStreams .unordered l r).documents.map (fun d => d.counts.surplus) =
        (ofStreams .positional l r).documents.map (fun d => d.counts.surplus) ∧
      (ofStreams .unordered l r).counts.surplus = (ofStreams .positional l r).counts.surplus := by
  constructor
  · intro l r
    obtain ⟨n, h⟩ := Compare.exists_clearedInPairs_optional l r
    refine ⟨⟨n, h⟩, ?_, h.thinned.length_le, h.surplus_eq⟩
    intro hnil
    have hthinned := h.thinned
    rw [hnil] at hthinned
    exact hthinned.of_nil
  · intro l r
    have hdocuments := map_surplus_unordered l r
    exact ⟨hdocuments, Counts.surplus_foldl hdocuments .zero .zero rfl⟩

end StreamDiff

end YamlDelta
