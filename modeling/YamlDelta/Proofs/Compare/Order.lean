/-
The order in which differences are reported.

A document's differences are those of the comparison, put into order by line and kind.  The sort is
an insertion sort, so it keeps the order of what shares both (`filter_sort`), and what is in order
already stays as it is (`sort_sort`).  The order that it keeps is that of the walk over the two
trees: `WalkedBefore` says which of two locations the walk comes to first, and a comparison makes
its differences in this order of their locations, whatever cancels (`Reports.walked`).
-/
import Mathlib.Data.List.Sort
import YamlDelta.Proofs.Compare.Report
import YamlDelta.Proofs.Markup.Placement

namespace YamlDelta

namespace Difference

/-! ### Sorting -/

/-- The first difference is reported no later than the second. -/
abbrev NotAfter (d e : Difference) : Prop :=
  d.notAfter e = true

theorem notAfter_iff {d e : Difference} :
    NotAfter d e ↔ d.line < e.line ∨ d.line = e.line ∧ d.kind.rank ≤ e.kind.rank := by
  simp [NotAfter, notAfter]

instance : Std.Total NotAfter where
  total d e := by
    rw [notAfter_iff, notAfter_iff]
    omega

instance : IsTrans Difference NotAfter where
  trans d e f hde hef := by
    rw [notAfter_iff] at *
    omega

theorem insert_eq_orderedInsert (d : Difference) (ds : List Difference) :
    insert d ds = ds.orderedInsert NotAfter d := by
  induction ds with
  | nil => rfl
  | cons e es ih => rw [insert, List.orderedInsert_cons, ih]

theorem sort_eq_insertionSort (ds : List Difference) :
    sort ds = ds.insertionSort NotAfter := by
  induction ds with
  | nil => rfl
  | cons d ds ih => rw [sort, List.insertionSort_cons, insert_eq_orderedInsert, ih]

theorem pairwise_sort (ds : List Difference) : (sort ds).Pairwise NotAfter := by
  rw [sort_eq_insertionSort]
  exact List.pairwise_insertionSort NotAfter ds

/-- What is in order already stays as it is. -/
theorem sort_sort (ds : List Difference) : sort (sort ds) = sort ds := by
  rw [sort_eq_insertionSort (sort ds)]
  exact (pairwise_sort ds).insertionSort_eq

/-- The difference is on a line and of the kind of a rank. -/
def isAt (line rank : Nat) (d : Difference) : Bool :=
  d.line == line && d.kind.rank == rank

/-- What shares line and kind keeps its order. -/
theorem filter_sort (line rank : Nat) (ds : List Difference) :
    (sort ds).filter (isAt line rank) = ds.filter (isAt line rank) := by
  have hties : (ds.filter (isAt line rank)).Pairwise NotAfter := by
    refine List.pairwise_of_forall_mem_list fun d hd e he => notAfter_iff.mpr ?_
    have hd' := (List.mem_filter.mp hd).2
    have he' := (List.mem_filter.mp he).2
    simp only [isAt, Bool.and_eq_true, beq_iff_eq] at hd' he'
    omega
  have hsublist : (ds.filter (isAt line rank)).Sublist (sort ds) := by
    rw [sort_eq_insertionSort]
    exact List.sublist_insertionSort hties List.filter_sublist
  have hkept := hsublist.filter (isAt line rank)
  rw [List.filter_filter] at hkept
  simp only [Bool.and_self] at hkept
  exact (hkept.eq_of_length ((perm_sort ds).filter _).length_eq.symm).symm

end Difference

namespace Compare

/-! ### The walk over two trees -/

/-- Where a mapping has a key first; behind all its keys if it does not have it. -/
def firstSeen (k : String) : Node → Nat
  | .mapping es _ => (es.map Prod.fst).idxOf k
  | _ => 0

/-- The walk takes one step before the other: keys where the left mapping has them first, those
that it does not have after those, where the right one has them first, and items by index. -/
def StepBefore (l r : Node) : Step → Step → Prop
  | .key j, .key k =>
    firstSeen j l < firstSeen k l ∨ firstSeen j l = firstSeen k l ∧ firstSeen j r < firstSeen k r
  | .index i, .index j => i < j
  | _, _ => False

/-- The walk comes to one location before the other. -/
inductive WalkedBefore : Option Node → Option Node → List Step → List Step → Prop
  | here {l r : Node} {s t : Step} {p q : List Step} (h : StepBefore l r s t) :
      WalkedBefore (some l) (some r) (s :: p) (t :: q)
  | inside {l r : Node} {s : Step} {p q : List Step}
      (h : WalkedBefore (l.child? s) (r.child? s) p q) :
      WalkedBefore (some l) (some r) (s :: p) (s :: q)

/-- What comes first in a part of a list comes first in the whole. -/
theorem idxOf_lt_of_filter {p : String → Bool} {ks : List String} {j k : String} (hj : p j = true)
    (hk : p k = true) (h : (ks.filter p).idxOf j < (ks.filter p).idxOf k) :
    ks.idxOf j < ks.idxOf k := by
  induction ks with
  | nil => exact absurd h (Nat.lt_irrefl _)
  | cons x ks ih =>
      cases hx : p x with
      | true =>
          rw [List.filter_cons_of_pos hx] at h
          by_cases hxj : x = j
          · subst hxj
            by_cases hxk : x = k
            · exact absurd (hxk ▸ h) (Nat.lt_irrefl _)
            · rw [List.idxOf_cons_self, List.idxOf_cons_ne _ hxk]
              exact Nat.succ_pos _
          · by_cases hxk : x = k
            · subst hxk
              rw [List.idxOf_cons_self] at h
              exact absurd h (Nat.not_lt_zero _)
            · rw [List.idxOf_cons_ne _ hxj, List.idxOf_cons_ne _ hxk] at h ⊢
              exact Nat.succ_lt_succ (ih (Nat.lt_of_succ_lt_succ h))
      | false =>
          rw [List.filter_cons_of_neg (by simp [hx])] at h
          have hxj : x ≠ j := fun hxj => by simp [← hxj, hx] at hj
          have hxk : x ≠ k := fun hxk => by simp [← hxk, hx] at hk
          rw [List.idxOf_cons_ne _ hxj, List.idxOf_cons_ne _ hxk]
          exact Nat.succ_lt_succ (ih h)

/-- Keys without their repetitions come where they come first. -/
theorem pairwise_eraseDups (ks : List String) :
    ks.eraseDups.Pairwise fun j k => ks.idxOf j < ks.idxOf k := by
  induction hn : ks.length using Nat.strongRecOn generalizing ks with
  | ind n ih =>
      subst hn
      cases ks with
      | nil => simp
      | cons x ks =>
          rw [List.eraseDups_cons, List.pairwise_cons]
          have hrest := ih _ (Nat.lt_succ_of_le (List.length_filter_le (fun b => !b == x) ks)) _ rfl
          have hne : ∀ k ∈ (ks.filter fun b => !b == x).eraseDups, x ≠ k := by
            intro k hk hxk
            simp [List.mem_eraseDups, ← hxk] at hk
          refine ⟨fun k hk => ?_, ?_⟩
          · rw [List.idxOf_cons_self, List.idxOf_cons_ne _ (hne k hk)]
            exact Nat.succ_pos _
          · refine hrest.imp_of_mem fun {j k} hj hk h => ?_
            rw [List.idxOf_cons_ne _ (hne j hj), List.idxOf_cons_ne _ (hne k hk)]
            have hkept : ∀ y, x ≠ y → (!y == x) = true := fun y hy => by
              rw [Bool.not_eq_true', beq_eq_false_iff_ne]
              exact hy.symm
            exact Nat.succ_lt_succ
              (idxOf_lt_of_filter (hkept j (hne j hj)) (hkept k (hne k hk)) h)

theorem firstSeen_of_lookup {k : String} {es : List (String × Node)} (p : Place)
    (h : Node.lookup k es = none) : firstSeen k (.mapping es p) = es.length := by
  have hmem : k ∉ es.map Prod.fst := by
    rw [← Node.isSome_lookup, h]
    exact Bool.false_ne_true
  rw [firstSeen, List.idxOf_eq_length hmem, List.length_map]

theorem firstSeen_lt {k : String} {es : List (String × Node)} (p : Place) (h : k ∈ keys es) :
    firstSeen k (.mapping es p) < es.length := by
  rw [mem_keys, Node.isSome_lookup] at h
  rw [firstSeen, ← List.length_map Prod.fst]
  exact List.idxOf_lt_length_of_mem h

/-- The steps of a comparison are taken in the order of the walk. -/
theorem pairwise_steps (l r : Node) : (steps l r).Pairwise (StepBefore l r) := by
  unfold steps
  split
  · rename_i ls p rs q
    rw [List.pairwise_map, List.pairwise_append]
    refine ⟨?_, ?_, ?_⟩
    · exact (pairwise_eraseDups (ls.map Prod.fst)).imp .inl
    · refine ((pairwise_eraseDups (rs.map Prod.fst)).filter _).imp_of_mem fun {j k} hj hk h => ?_
      have hj' := (List.mem_filter.mp hj).2
      have hk' := (List.mem_filter.mp hk).2
      rw [Option.isNone_iff_eq_none] at hj' hk'
      refine .inr ⟨?_, h⟩
      rw [firstSeen_of_lookup p hj', firstSeen_of_lookup p hk']
    · intro j hj k hk
      have hk' := (List.mem_filter.mp hk).2
      rw [Option.isNone_iff_eq_none] at hk'
      refine .inl ?_
      rw [firstSeen_of_lookup p hk']
      exact firstSeen_lt p hj
  · rw [List.pairwise_map]
    exact List.pairwise_lt_range
  · exact .nil

/-- A comparison makes its differences in the order of the walk. -/
theorem Reports.walked {options : CompareOptions} {a b : Option Node} {R : Report}
    (h : Reports options a b R) : (R.map Prod.fst).Pairwise (WalkedBefore a b) := by
  induction h with
  | silent _ => exact .nil
  | here _ _ _ => exact List.pairwise_singleton _ _
  | @inside l r _ R _ ih =>
      have hbehind : ∀ s, ((R s).behind s).map Prod.fst = ((R s).map Prod.fst).map (s :: ·) := by
        intro s
        rw [Report.behind, List.map_map, List.map_map]
        rfl
      rw [List.map_flatMap, List.pairwise_flatMap]
      refine ⟨fun s hs => ?_, (pairwise_steps l r).imp fun {s t} hst p hp q hq => ?_⟩
      · rw [hbehind, List.pairwise_map]
        exact (ih s hs).imp .inside
      · rw [hbehind] at hp hq
        obtain ⟨p, -, rfl⟩ := List.mem_map.mp hp
        obtain ⟨q, -, rfl⟩ := List.mem_map.mp hq
        exact .here hst

end Compare

namespace StreamDiff

open Compare

/-- A document is compared by what both streams have at its index. -/
theorem document?_ofStreams (options : CompareOptions) (left right : Stream) (i : Nat) :
    (ofStreams options left right).document? i =
      if i < max left.length right.length then
        some (.ofDifferences (optional options (left.document i) (right.document i)))
      else none := by
  rw [document?, ofStreams, List.getElem?_map]
  split
  · rename_i h
    rw [List.getElem?_range h]
    rfl
  · rename_i h
    rw [List.getElem?_eq_none (by simpa using h)]
    rfl

end StreamDiff

end YamlDelta
