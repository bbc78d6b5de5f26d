/-
What it means for two documents to say the same.

Scalars agree in content, mappings in their keys and in what each key stands for, and
sequences in their items.  How the items of two sequences are matched is left open: a
list of pairs is asked for, of which each pair agrees and whose two halves are the two
sequences, `arranged` in an admissible way.  Arranged as they stand, this is `SameData`;
arranged in any order, it is `SameUpToOrder`.

Nothing here knows about differences, places or the order of entries.
-/
import Mathlib.Data.List.Perm.Basic
import YamlDelta.Proofs.Node.Content
import YamlDelta.Proofs.Node.Location

namespace YamlDelta.Node

/-- The two nodes agree, items of sequences being matched as `arranged` admits. -/
inductive Agree (arranged : List Node → List Node → Prop) : Node → Node → Prop
  | scalar {v w : Scalar} {p q : Place} (h : v.SameContent w) :
      Agree arranged (.scalar v p) (.scalar w q)
  | mapping {es fs : List (String × Node)} {p q : Place}
      (hkeys : ∀ k, k ∈ es.map Prod.fst ↔ k ∈ fs.map Prod.fst)
      (hvalues : ∀ k v w, lookup k es = some v → lookup k fs = some w → Agree arranged v w) :
      Agree arranged (.mapping es p) (.mapping fs q)
  | sequence {is js : List Node} {p q : Place} (ps : List (Node × Node))
      (hl : arranged is (ps.map Prod.fst)) (hr : arranged js (ps.map Prod.snd))
      (hitems : ∀ x ∈ ps, Agree arranged x.1 x.2) :
      Agree arranged (.sequence is p) (.sequence js q)

/-- The two nodes hold the same data, sequences item by item. -/
def SameData : Node → Node → Prop :=
  Agree (· = ·)

/-- The two nodes hold the same data up to the order of the items of sequences. -/
def SameUpToOrder : Node → Node → Prop :=
  Agree List.Perm

variable {arranged : List Node → List Node → Prop} {l m r : Node}

/-- Everything agrees with itself, if sequences may be left as they are. -/
theorem Agree.refl (harranged : ∀ is, arranged is is) (n : Node) : Agree arranged n n := by
  induction n using Node.induct with
  | mapping es p ih =>
      refine .mapping (fun _ => Iff.rfl) fun k v w hv hw => ?_
      rw [hv] at hw
      cases hw
      exact ih (k, v) (mem_of_lookup hv)
  | sequence is p ih =>
      refine .sequence (is.map fun n => (n, n)) ?_ ?_ fun x hx => ?_
      · rw [List.map_map]
        exact (List.map_id is).symm ▸ harranged is
      · rw [List.map_map]
        exact (List.map_id is).symm ▸ harranged is
      · obtain ⟨n, hn, rfl⟩ := List.mem_map.mp hx
        exact ih n hn
  | scalar v p => exact .scalar (Scalar.sameContent_iff.mp v.sameContent_refl)

theorem Agree.symm (h : Agree arranged l r) : Agree arranged r l := by
  induction h with
  | scalar h =>
      refine .scalar (Scalar.sameContent_iff.mp ?_)
      rw [Scalar.sameContent_comm]
      exact Scalar.sameContent_iff.mpr h
  | mapping hkeys hvalues ih =>
      exact .mapping (fun k => (hkeys k).symm) fun k v w hv hw => ih k w v hw hv
  | sequence ps hl hr hitems ih =>
      refine .sequence (ps.map Prod.swap) ?_ ?_ fun x hx => ?_
      · rw [List.map_map]
        exact hr
      · rw [List.map_map]
        exact hl
      · obtain ⟨y, hy, rfl⟩ := List.mem_map.mp hx
        exact ih y hy

/-- The more ways to match items are admitted, the more agrees. -/
theorem Agree.mono {wider : List Node → List Node → Prop}
    (hwider : ∀ is js, arranged is js → wider is js) (h : Agree arranged l r) :
    Agree wider l r := by
  induction h with
  | scalar h => exact .scalar h
  | mapping hkeys hvalues ih => exact .mapping hkeys ih
  | sequence ps hl hr hitems ih => exact .sequence ps (hwider _ _ hl) (hwider _ _ hr) ih

theorem SameData.sameUpToOrder (h : SameData l r) : SameUpToOrder l r :=
  Agree.mono (fun _ _ his => List.Perm.of_eq his) h

/-! ### Agreement seen from the children -/

private theorem isSome_eq_of_rel {R : Node → Node → Prop} {a b : Option Node}
    (h : Option.Rel R a b) : a.isSome = b.isSome := by
  cases h <;> rfl

/-- Two mappings agree when at each key there is nothing on either side, or values that agree. -/
theorem agree_mapping_iff {es fs : List (String × Node)} {p q : Place} :
    Agree arranged (.mapping es p) (.mapping fs q) ↔
      ∀ k, Option.Rel (Agree arranged) (lookup k es) (lookup k fs) := by
  constructor
  · intro h k
    cases h with
    | mapping hkeys hvalues =>
        have hk := hkeys k
        rw [← isSome_lookup, ← isSome_lookup] at hk
        cases hes : lookup k es with
        | none =>
            cases hfs : lookup k fs with
            | none => exact .none
            | some w => simp [hes, hfs] at hk
        | some v =>
            cases hfs : lookup k fs with
            | none => simp [hes, hfs] at hk
            | some w => exact .some (hvalues k v w hes hfs)
  · intro h
    refine .mapping (fun k => ?_) fun k v w hv hw => ?_
    · rw [← isSome_lookup, ← isSome_lookup, isSome_eq_of_rel (h k)]
    · have hk := h k
      rw [hv, hw] at hk
      cases hk with
      | some hvw => exact hvw

/-- Two sequences hold the same data when at each index there is nothing on either side, or items
that do. -/
theorem sameData_sequence_iff {is js : List Node} {p q : Place} :
    SameData (.sequence is p) (.sequence js q) ↔
      ∀ i : Nat, Option.Rel SameData is[i]? js[i]? := by
  constructor
  · intro h i
    cases h with
    | sequence ps hl hr hitems =>
        subst hl hr
        rw [List.getElem?_map, List.getElem?_map]
        cases hx : ps[i]? with
        | none => exact .none
        | some x => exact .some (hitems x (List.mem_of_getElem? hx))
  · intro h
    -- the longer one would have an item where the shorter one has none
    have hlength : is.length = js.length := by
      have hls := isSome_eq_of_rel (h is.length)
      have hjs := isSome_eq_of_rel (h js.length)
      rw [Bool.eq_iff_iff, isSome_getElem?, isSome_getElem?] at hls hjs
      omega
    refine .sequence (is.zip js) ?_ ?_ fun x hx => ?_
    · exact (List.map_fst_zip (Nat.le_of_eq hlength)).symm
    · exact (List.map_snd_zip (Nat.le_of_eq hlength.symm)).symm
    · obtain ⟨i, hi⟩ := List.getElem?_of_mem hx
      obtain ⟨hl, hr⟩ := List.getElem?_zip_eq_some.mp hi
      have hrel := h i
      rw [hl, hr] at hrel
      cases hrel with
      | some hxy => exact hxy

end YamlDelta.Node
