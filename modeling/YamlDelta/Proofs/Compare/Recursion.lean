/-
Comparison calls itself on children, and the depth never runs out.

`within` counts down a depth, so on the face of it a comparison could stop too early.
It does not: a comparison only calls for comparisons of nodes strictly below the left
one.  For the children that is plain.  When the order of sequences is ignored, nodes are
compared that were reported by earlier comparisons, and there it needs the provenance of
reported nodes: what is reported on the left of a comparison is no higher than what was
compared (`height_le_of_mem_within`).  So any depth from the left height on gives the same
result, `nodes_eq_step` is the equation the comparison satisfies without any depth, and no
later proof mentions one.

Mappings and sequences are walked in one way: `steps` lists the steps that lead to a child
on either side, each once, and `children` compares what they lead to.
-/
import YamlDelta.Proofs.Compare.Pairing
import YamlDelta.Proofs.Node.Location

namespace YamlDelta.Compare

/-! ### Two collections walked together -/

/-- The nodes are both mappings or both sequences. -/
def SameCollection (l r : Node) : Prop :=
  l.kind = r.kind ∧ l.kind.isCollection = true

instance (l r : Node) : Decidable (SameCollection l r) :=
  inferInstanceAs (Decidable (_ ∧ _))

/-- The nodes are scalars of the same content. -/
def sameScalar : Node → Node → Bool
  | .scalar v _, .scalar w _ => v.sameContent w
  | _, _ => false

/-- The steps that lead to a child of either of two collections, in the order of comparison. -/
def steps : Node → Node → List Step
  | .mapping ls _, .mapping rs _ =>
    (keys ls ++ (keys rs).filter fun k => (Node.lookup k ls).isNone).map .key
  | .sequence ls _, .sequence rs _ => (List.range (max ls.length rs.length)).map .index
  | _, _ => []

/-- Compare the children of two collections. -/
def children (deeper : Node → Node → List Difference) (l r : Node) : List Difference :=
  (steps l r).flatMap fun s => sides deeper (l.child? s) (r.child? s)

theorem sameCollection_cases {l r : Node} (h : SameCollection l r) :
    (∃ ls p rs q, l = .mapping ls p ∧ r = .mapping rs q) ∨
      (∃ ls p rs q, l = .sequence ls p ∧ r = .sequence rs q) := by
  obtain ⟨hk, hc⟩ := h
  cases l with
  | mapping ls p =>
      cases r with
      | mapping rs q => exact .inl ⟨ls, p, rs, q, rfl, rfl⟩
      | sequence rs q => cases hk
      | scalar w q => cases w <;> cases hk
  | sequence ls p =>
      cases r with
      | mapping rs q => cases hk
      | sequence rs q => exact .inr ⟨ls, p, rs, q, rfl, rfl⟩
      | scalar w q => cases w <;> cases hk
  | scalar v p => cases v <;> cases hc

/-- No step is taken twice. -/
theorem nodup_steps (l r : Node) : (steps l r).Nodup := by
  unfold steps
  split
  · rename_i ls p rs q
    refine List.Nodup.map (fun a b h => Step.key.inj h) ?_
    refine List.nodup_append.mpr ⟨nodup_keys ls, (nodup_keys rs).filter _, ?_⟩
    intro a ha b hb hab
    rw [mem_keys] at ha
    have hnone := (List.mem_filter.mp hb).2
    rw [← hab, Option.isNone_iff_eq_none] at hnone
    simp [hnone] at ha
  · exact List.Nodup.map (fun a b h => Step.index.inj h) List.nodup_range
  · exact List.nodup_nil

/-- A step is taken exactly when it leads somewhere. -/
theorem mem_steps {l r : Node} (h : SameCollection l r) (s : Step) :
    s ∈ steps l r ↔ (l.child? s).isSome = true ∨ (r.child? s).isSome = true := by
  rcases sameCollection_cases h with ⟨ls, p, rs, q, rfl, rfl⟩ | ⟨ls, p, rs, q, rfl, rfl⟩
  · cases s with
    | key k =>
        have hmem : Step.key k ∈ steps (.mapping ls p) (.mapping rs q) ↔
            k ∈ keys ls ∨ k ∈ keys rs ∧ (Node.lookup k ls).isNone = true := by
          simp [steps]
        rw [hmem, mem_keys, mem_keys, Node.child?_mapping_key, Node.child?_mapping_key]
        cases Node.lookup k ls <;> simp
    | index i => simp [steps]
  · cases s with
    | key k => simp [steps]
    | index i =>
        have hmem : Step.index i ∈ steps (.sequence ls p) (.sequence rs q) ↔
            i < max ls.length rs.length := by
          simp [steps]
        rw [hmem, Node.child?_sequence_index, Node.child?_sequence_index]
        simp only [isSome_getElem?]
        omega

/-- A step leads to a node on one side only, or to one on either side. -/
theorem children_of_mem_steps {l r : Node} {s : Step} (h : SameCollection l r)
    (hs : s ∈ steps l r) :
    (l.child? s).isSome ≠ (r.child? s).isSome ∨
      ∃ x y, l.child? s = some x ∧ r.child? s = some y := by
  rw [mem_steps h] at hs
  cases hl : l.child? s with
  | none =>
      rw [hl] at hs
      exact .inl (by simp_all)
  | some x =>
      cases hr : r.child? s with
      | none => exact .inl (by simp)
      | some y => exact .inr ⟨x, y, rfl, rfl⟩

/-- A step that leads to a node on one side only is taken. -/
theorem mem_steps_of_oneSided {l r : Node} {s : Step} (h : SameCollection l r)
    (hone : (l.child? s).isSome ≠ (r.child? s).isSome) : s ∈ steps l r := by
  rw [mem_steps h]
  cases hl : (l.child? s).isSome with
  | true => exact .inl rfl
  | false =>
      rw [hl, ne_comm, Bool.ne_false_iff] at hone
      exact .inr hone

theorem items_eq_flatMap (deeper : Node → Node → List Difference) (ls rs : List Node) :
    items deeper ls rs =
      (List.range (max ls.length rs.length)).flatMap fun i => sides deeper ls[i]? rs[i]? := by
  induction ls generalizing rs with
  | nil =>
      induction rs with
      | nil => rfl
      | cons r rs ih =>
          simp only [List.length_nil, List.length_cons, Nat.zero_max] at ih ⊢
          rw [List.range_succ_eq_map, List.flatMap_cons, List.flatMap_map]
          simpa [items, sides] using ih
  | cons l ls ih =>
      cases rs with
      | nil =>
          have htail := ih []
          simp only [List.length_nil, List.length_cons, Nat.max_zero] at htail ⊢
          rw [List.range_succ_eq_map, List.flatMap_cons, List.flatMap_map]
          rw [items_nil_right] at htail ⊢
          simpa [sides] using htail
      | cons r rs =>
          rw [List.length_cons, List.length_cons, Nat.succ_max_succ, List.range_succ_eq_map,
            List.flatMap_cons, List.flatMap_map]
          simp [items, sides, ih rs]

theorem mappings_eq_children (deeper : Node → Node → List Difference)
    (ls rs : List (String × Node)) (p q : Place) :
    mappings deeper ls rs = children deeper (.mapping ls p) (.mapping rs q) := by
  simp only [children, steps, mappings, List.map_append, List.flatMap_append, List.flatMap_map,
    Node.child?_mapping_key]
  congr 1
  refine List.flatMap_congr fun k hk => ?_
  have hnone := (List.mem_filter.mp hk).2
  rw [Option.isNone_iff_eq_none.mp hnone]

theorem items_eq_children (deeper : Node → Node → List Difference) (ls rs : List Node)
    (p q : Place) :
    items deeper ls rs = children deeper (.sequence ls p) (.sequence rs q) := by
  rw [items_eq_flatMap]
  simp [children, steps, List.flatMap_map]

/-! ### One step -/

variable {options : CompareOptions} {f g deeper : Node → Node → List Difference} {l r : Node}

/-- The differences of two collections: those of their children, paired off if the order of the
children does not count. -/
def settled (options : CompareOptions) (deeper : Node → Node → List Difference) (l r : Node) :
    List Difference :=
  if options.ignoreOrder = true ∧ l.kind = .sequence then
    cancel (fun a b => (deeper a b).isEmpty) (children deeper l r)
  else children deeper l r

/-- **What one step does.**  Collections of one kind are settled by their children, scalars of the
same content do not differ, and all else is replaced as a whole. -/
theorem step_eq (options : CompareOptions) (deeper : Node → Node → List Difference)
    (l r : Node) :
    step options deeper l r =
      if SameCollection l r then settled options deeper l r
      else if sameScalar l r = true then [] else [.modified l r] := by
  cases l with
  | mapping ls p =>
      cases r with
      | mapping rs q =>
          rw [if_pos ⟨rfl, rfl⟩, settled, if_neg (by simp [Node.kind])]
          exact mappings_eq_children deeper ls rs p q
      | sequence rs q => rfl
      | scalar w q => cases w <;> rfl
  | sequence ls p =>
      cases r with
      | mapping rs q => rfl
      | sequence rs q =>
          rw [if_pos ⟨rfl, rfl⟩, settled, ← items_eq_children deeper ls rs p q]
          simp [step, Node.kind]
      | scalar w q => cases w <;> rfl
  | scalar v p =>
      have hv : ¬SameCollection (.scalar v p) r := by
        rintro ⟨-, hc⟩
        cases v <;> cases hc
      rw [if_neg hv]
      cases r <;> rfl

/-! ### Where reported nodes come from -/

theorem lefts_flatMap {α : Type} (as : List α) (h : α → List Difference) :
    lefts (as.flatMap h) = as.flatMap fun a => lefts (h a) := List.filterMap_flatMap

theorem rights_flatMap {α : Type} (as : List α) (h : α → List Difference) :
    rights (as.flatMap h) = as.flatMap fun a => rights (h a) := List.filterMap_flatMap

/-- What is reported on the left of two collections is a child on the left, or was reported on the
left of two children. -/
theorem mem_lefts_children {n : Node} (h : n ∈ lefts (children deeper l r)) :
    ∃ s a, l.child? s = some a ∧
      (n = a ∨ ∃ b, r.child? s = some b ∧ n ∈ lefts (deeper a b)) := by
  rw [children, lefts_flatMap] at h
  obtain ⟨s, -, hn⟩ := List.mem_flatMap.mp h
  cases hl : l.child? s with
  | none => cases hr : r.child? s <;> simp [hl, hr, sides, Difference.left?] at hn
  | some a =>
      refine ⟨s, a, hl, ?_⟩
      cases hr : r.child? s with
      | none => exact .inl (by simpa [hl, hr, sides, Difference.left?] using hn)
      | some b => simp only [hl, hr, sides] at hn; exact .inr ⟨b, rfl, hn⟩

/-- What is reported on the right of two collections is a child on the right, or was reported on
the right of two children. -/
theorem mem_rights_children {n : Node} (h : n ∈ rights (children deeper l r)) :
    ∃ s b, r.child? s = some b ∧
      (n = b ∨ ∃ a, l.child? s = some a ∧ n ∈ rights (deeper a b)) := by
  rw [children, rights_flatMap] at h
  obtain ⟨s, -, hn⟩ := List.mem_flatMap.mp h
  cases hr : r.child? s with
  | none => cases hl : l.child? s <;> simp [hl, hr, sides, Difference.right?] at hn
  | some b =>
      refine ⟨s, b, hr, ?_⟩
      cases hl : l.child? s with
      | none => exact .inl (by simpa [hl, hr, sides, Difference.right?] using hn)
      | some a => simp only [hl, hr, sides] at hn; exact .inr ⟨a, rfl, hn⟩

theorem mem_lefts_settled {n : Node} (h : n ∈ lefts (settled options deeper l r)) :
    n ∈ lefts (children deeper l r) := by
  unfold settled at h
  split at h
  · exact mem_lefts_of_cancel h
  · exact h

theorem mem_rights_settled {n : Node} (h : n ∈ rights (settled options deeper l r)) :
    n ∈ rights (children deeper l r) := by
  unfold settled at h
  split at h
  · exact mem_rights_of_cancel h
  · exact h

/-- Left sides come from the left node. -/
theorem partOf_of_mem_lefts_within {depth : Nat} {m : Node}
    (h : m ∈ lefts (within options depth l r)) : m.PartOf l := by
  induction depth generalizing l r with
  | zero => simp [within] at h
  | succ depth ih =>
      rw [within, step_eq] at h
      split at h
      · obtain ⟨s, a, hs, rfl | ⟨b, -, hm⟩⟩ := mem_lefts_children (mem_lefts_settled h)
        · exact (Node.PartOf.refl m).of_child hs
        · exact (ih hm).of_child hs
      · split at h
        · simp at h
        · have hm : m = l := by simpa [Difference.left?] using h
          exact hm ▸ Node.PartOf.refl m

/-- Right sides come from the right node. -/
theorem partOf_of_mem_rights_within {depth : Nat} {m : Node}
    (h : m ∈ rights (within options depth l r)) : m.PartOf r := by
  induction depth generalizing l r with
  | zero => simp [within] at h
  | succ depth ih =>
      rw [within, step_eq] at h
      split at h
      · obtain ⟨s, b, hs, rfl | ⟨a, -, hm⟩⟩ := mem_rights_children (mem_rights_settled h)
        · exact (Node.PartOf.refl m).of_child hs
        · exact (ih hm).of_child hs
      · split at h
        · simp at h
        · have hm : m = r := by simpa [Difference.right?] using h
          exact hm ▸ Node.PartOf.refl m

/-! ### Depth does not matter -/

theorem children_congr
    (h : ∀ s a b, l.child? s = some a → r.child? s = some b → f a b = g a b) :
    children f l r = children g l r := by
  refine List.flatMap_congr fun s _ => ?_
  cases hl : l.child? s with
  | none => cases r.child? s <;> rfl
  | some a =>
      cases hr : r.child? s with
      | none => rfl
      | some b => exact h s a b hl hr

/-- What is reported on the left of two collections lies strictly below the left one. -/
theorem height_lt_of_mem_lefts_children {m : Node}
    (hdeeper : ∀ a b, ∀ n ∈ lefts (deeper a b), n.height ≤ a.height)
    (hm : m ∈ lefts (children deeper l r)) : m.height < l.height := by
  obtain ⟨s, a, hs, rfl | ⟨b, -, hmem⟩⟩ := mem_lefts_children hm
  · exact Node.height_child?_lt hs
  · exact Nat.lt_of_le_of_lt (hdeeper a b m hmem) (Node.height_child?_lt hs)

/-- A step depends on comparisons of lower left nodes only. -/
theorem step_congr (h : ∀ a b, a.height < l.height → f a b = g a b)
    (hf : ∀ a b, ∀ m ∈ lefts (f a b), m.height ≤ a.height) :
    step options f l r = step options g l r := by
  have hchildren : children f l r = children g l r :=
    children_congr fun s a b hs _ => h a b (Node.height_child?_lt hs)
  have hsettled : settled options f l r = settled options g l r := by
    unfold settled
    rw [← hchildren]
    split
    · refine cancel_congr fun m hm => ?_
      funext b
      rw [h m b (height_lt_of_mem_lefts_children hf hm)]
    · rfl
  rw [step_eq, step_eq, hsettled]

/-- Any depth from the left height on gives the same differences. -/
theorem within_eq_nodes {depth : Nat} (h : l.height ≤ depth) :
    within options depth l r = nodes options l r := by
  induction depth using Nat.strongRecOn generalizing l r with
  | ind depth ih =>
      cases depth with
      | zero => exact absurd (Nat.lt_of_lt_of_le l.height_pos h) (Nat.lt_irrefl 0)
      | succ depth =>
          obtain ⟨height, hheight⟩ := Nat.exists_eq_succ_of_ne_zero (Nat.ne_of_gt l.height_pos)
          rw [nodes, hheight]
          refine step_congr (fun a b hab => ?_) fun a b m hm =>
            (partOf_of_mem_lefts_within hm).height_le
          rw [ih depth (Nat.lt_succ_self _) (by omega), ih height (by omega) (by omega)]

/-- **The comparison in terms of itself.**  No depth appears. -/
theorem nodes_eq_step (options : CompareOptions) (l r : Node) :
    nodes options l r = step options (nodes options) l r := by
  have hdepth : within options (l.height + 1) l r = nodes options l r :=
    within_eq_nodes (Nat.le_succ _)
  rw [← hdepth, within]
  refine step_congr (fun a b hab => within_eq_nodes (Nat.le_of_lt hab)) fun a b m hm =>
    (partOf_of_mem_lefts_within hm).height_le

theorem partOf_of_mem_lefts {m : Node} (h : m ∈ lefts (nodes options l r)) : m.PartOf l :=
  partOf_of_mem_lefts_within h

theorem partOf_of_mem_rights {m : Node} (h : m ∈ rights (nodes options l r)) : m.PartOf r :=
  partOf_of_mem_rights_within h

theorem nodes_of_sameCollection (h : SameCollection l r) :
    nodes options l r = settled options (nodes options) l r := by
  rw [nodes_eq_step, step_eq, if_pos h]

theorem nodes_of_sameScalar (h : sameScalar l r = true) : nodes options l r = [] := by
  cases l <;> cases r <;> simp only [sameScalar, reduceCtorEq] at h
  simp [nodes_eq_step, step, h]

theorem nodes_of_apart (h : ¬SameCollection l r) (hs : sameScalar l r = false) :
    nodes options l r = [.modified l r] := by
  rw [nodes_eq_step, step_eq, if_neg h, hs]
  rfl

theorem sameScalar_of_isCollection
    (h : l.kind.isCollection = true ∨ r.kind.isCollection = true) : sameScalar l r = false := by
  cases l with
  | mapping ls p => rfl
  | sequence ls p => rfl
  | scalar v p =>
      cases r with
      | mapping rs q => rfl
      | sequence rs q => rfl
      | scalar w q => cases v <;> cases w <;> simp [Node.kind, Scalar.kind, Kind.isCollection] at h

/-- A collection and a node of another kind are compared as wholes. -/
theorem nodes_of_kind_ne (hkind : l.kind ≠ r.kind)
    (h : l.kind.isCollection = true ∨ r.kind.isCollection = true) :
    nodes options l r = [.modified l r] :=
  nodes_of_apart (fun hcoll => hkind hcoll.1) (sameScalar_of_isCollection h)

/-- Nodes of which not both are collections of one kind are compared as wholes. -/
theorem nodes_of_not_sameCollection (options : CompareOptions) (h : ¬SameCollection l r) :
    nodes options l r = [] ∨ nodes options l r = [.modified l r] := by
  cases hscalar : sameScalar l r with
  | true => exact .inl (nodes_of_sameScalar hscalar)
  | false => exact .inr (nodes_of_apart h hscalar)

theorem sequences_eq_settled (options : CompareOptions) (ls rs : List Node) (p q : Place) :
    sequences options ls rs = settled options (nodes options) (.sequence ls p) (.sequence rs q) := by
  rw [sequences, settled, ← items_eq_children]
  simp [Node.kind]

theorem nodes_sequence (options : CompareOptions) (ls rs : List Node) (p q : Place) :
    nodes options (.sequence ls p) (.sequence rs q) = sequences options ls rs := by
  have hcoll : SameCollection (.sequence ls p) (.sequence rs q) := ⟨rfl, rfl⟩
  rw [nodes_of_sameCollection hcoll, sequences_eq_settled]

end YamlDelta.Compare
