/-
Nothing disappears in a comparison.

Whatever is weighed, the left document together with all that is reported on the right
weighs as much as the right document together with all that is reported on the left.  It
holds of every comparison, whether the order of sequences counts or not: a step to a
child keeps the balance, and cancelling takes away pairs of nodes that were found equal,
which by induction weigh the same.

So documents between which nothing is reported are made of the same pieces, however far
apart these may stand (`tally_eq_of_nodes_eq_nil`).  And a collection never equals one of
its own parts, since it has at least one node more.
-/
import YamlDelta.Proofs.Compare.Recursion
import YamlDelta.Proofs.Node.Tally

namespace YamlDelta.Compare

open Node (total)

variable {options : CompareOptions} {w : Weight} {l r : Node}

/-- The differences account for how much the two sides weigh. -/
def Conserved (w : Weight) (ls rs : List Node) (ds : List Difference) : Prop :=
  total w ls + total w (rights ds) = total w rs + total w (lefts ds)

theorem Conserved.append {ls rs ls' rs' : List Node} {ds ds' : List Difference}
    (h : Conserved w ls rs ds) (h' : Conserved w ls' rs' ds') :
    Conserved w (ls ++ ls') (rs ++ rs') (ds ++ ds') := by
  unfold Conserved at h h' ⊢
  simp only [lefts_append, rights_append, Node.total_append]
  omega

theorem conserved_flatMap {α : Type} (as : List α) {ls rs : α → List Node}
    {ds : α → List Difference} (h : ∀ a ∈ as, Conserved w (ls a) (rs a) (ds a)) :
    Conserved w (as.flatMap ls) (as.flatMap rs) (as.flatMap ds) := by
  induction as with
  | nil => rfl
  | cons a as ih =>
      rw [List.forall_mem_cons] at h
      exact h.1.append (ih h.2)

theorem conserved_sides {deeper : Node → Node → List Difference} {a b : Option Node}
    (h : ∀ x y, a = some x → b = some y → Conserved w [x] [y] (deeper x y)) :
    Conserved w a.toList b.toList (sides deeper a b) := by
  cases a with
  | none => cases b <;> simp [Conserved, sides, Difference.left?, Difference.right?]
  | some a =>
      cases b with
      | none => simp [Conserved, sides, Difference.left?, Difference.right?]
      | some b => exact h a b rfl rfl

/-- What is accounted for by equals of equal weight is conserved. -/
theorem Conserved.of_accounted {equal : Node → Node → Bool} {ls rs : List Node}
    {ds : List Difference} (h : Accounted equal ls rs ds)
    (hequal : ∀ l ∈ ls, ∀ r, equal l r = true → l.tally w = r.tally w) :
    Conserved w ls rs ds := by
  obtain ⟨ps, hps, hl, hr⟩ := h
  have hpairs : total w (ps.map Prod.fst) = total w (ps.map Prod.snd) := by
    refine Node.total_map_congr fun x hx => hequal x.1 ?_ x.2 (hps x hx)
    exact hl.mem_iff.mpr (List.mem_append_right _ (List.mem_map_of_mem hx))
  unfold Conserved
  rw [Node.total_perm hl, Node.total_perm hr, Node.total_append, Node.total_append, hpairs]
  omega

theorem Conserved.trans {ls rs : List Node} {ds es : List Difference}
    (h : Conserved w ls rs ds) (h' : Conserved w (lefts ds) (rights ds) es) :
    Conserved w ls rs es := by
  unfold Conserved at h h' ⊢
  omega

/-! ### The comparison -/

theorem own_eq (h : SameCollection l r) : l.own w = r.own w := by
  rcases sameCollection_cases h with ⟨ls, p, rs, q, rfl, rfl⟩ | ⟨ls, p, rs, q, rfl, rfl⟩ <;> rfl

theorem conserved_children {deeper : Node → Node → List Difference} (hcoll : SameCollection l r)
    (h : ∀ s a b, l.child? s = some a → r.child? s = some b → Conserved w [a] [b] (deeper a b)) :
    Conserved w [l] [r] (children deeper l r) := by
  have hl := Node.tally_eq_own_add (w := w) (nodup_steps l r)
    fun s hs => (mem_steps hcoll s).mpr (.inl hs)
  have hr := Node.tally_eq_own_add (w := w) (nodup_steps l r)
    fun s hs => (mem_steps hcoll s).mpr (.inr hs)
  have hsteps := conserved_flatMap (steps l r)
    fun s _ => conserved_sides fun a b ha hb => h s a b ha hb
  rw [own_eq hcoll] at hl
  unfold Conserved children at *
  simp only [Node.total_cons, Node.total_nil]
  omega

/-- **Nothing disappears in a comparison.** -/
theorem conserved_nodes (options : CompareOptions) (w : Weight) (l r : Node) :
    Conserved w [l] [r] (nodes options l r) := by
  induction hn : l.height using Nat.strongRecOn generalizing l r with
  | ind n ih =>
      subst hn
      by_cases hcoll : SameCollection l r
      · have hchildren : Conserved w [l] [r] (children (nodes options) l r) :=
          conserved_children hcoll fun s a b ha _ => ih _ (Node.height_child?_lt ha) a b rfl
        rw [nodes_of_sameCollection hcoll]
        unfold settled
        split
        · refine hchildren.trans (.of_accounted (accounted_cancel _ _) fun a ha b hab => ?_)
          have hlt : a.height < l.height :=
            height_lt_of_mem_lefts_children (fun _ _ _ hn => (partOf_of_mem_lefts hn).height_le) ha
          have hempty := ih _ hlt a b rfl
          rw [List.isEmpty_iff.mp hab] at hempty
          simpa [Conserved] using hempty
        · exact hchildren
      · cases hscalar : sameScalar l r with
        | true =>
            rw [nodes_of_sameScalar hscalar]
            cases l <;> cases r <;> simp only [sameScalar, reduceCtorEq] at hscalar
            simp [Conserved, Node.tally, w.respects hscalar]
        | false =>
            rw [nodes_of_apart hcoll hscalar]
            simp [Conserved, Difference.left?, Difference.right?, Nat.add_comm]

/-- Documents between which nothing is reported are made of the same pieces. -/
theorem tally_eq_of_nodes_eq_nil (h : nodes options l r = []) (w : Weight) :
    l.tally w = r.tally w := by
  have hconserved := conserved_nodes options w l r
  rw [h] at hconserved
  simpa [Conserved] using hconserved

theorem conserved_items (options : CompareOptions) (w : Weight) (ls rs : List Node) :
    Conserved w ls rs (items (nodes options) ls rs) := by
  induction ls generalizing rs with
  | nil => simp [items, Conserved]
  | cons l ls ih =>
      cases rs with
      | nil => simp [items, Conserved, Difference.left?, Difference.right?]
      | cons r rs => exact (conserved_nodes options w l r).append (ih rs)

/-! ### Parts weigh less -/

theorem tally_lt_of_child? {c : Node} {s : Step} (h : l.child? s = some c) :
    c.tally .unit < l.tally .unit := by
  have hcoll : SameCollection l l := by
    cases l with
    | mapping es p => exact ⟨rfl, rfl⟩
    | sequence is p => exact ⟨rfl, rfl⟩
    | scalar v p => simp at h
  have hsome : (l.child? s).isSome = true := by rw [h]; rfl
  have hmem : c ∈ (steps l l).flatMap fun s => (l.child? s).toList := by
    refine List.mem_flatMap.mpr ⟨s, (mem_steps hcoll s).mpr (.inl hsome), ?_⟩
    rw [h]
    exact List.mem_singleton.mpr rfl
  have hl := Node.tally_eq_own_add (w := .unit) (nodup_steps l l)
    fun s hs => (mem_steps hcoll s).mpr (.inl hs)
  have hle := Node.tally_le_total (w := .unit) hmem
  rw [Node.own_unit] at hl
  omega

theorem tally_unit_pos (n : Node) : 0 < n.tally .unit := by
  cases n with
  | mapping es p => exact Nat.lt_add_right _ Nat.one_pos
  | sequence is p => exact Nat.lt_add_right _ Nat.one_pos
  | scalar v p => exact Nat.one_pos

/-- A node without children is one node, and nothing else is. -/
theorem tally_unit_eq_one_iff : l.tally .unit = 1 ↔ ∀ s, l.child? s = none := by
  constructor
  · intro h s
    cases hc : l.child? s with
    | none => rfl
    | some c =>
        have hlt := tally_lt_of_child? hc
        have hpos := tally_unit_pos c
        omega
  · intro h
    have hall : ∀ s, (l.child? s).isSome = true → s ∈ ([] : List Step) := by
      intro s hs
      simp [h s] at hs
    rw [Node.tally_eq_own_add List.nodup_nil hall, Node.own_unit]
    rfl

theorem tally_le_of_partOf {m : Node} (h : m.PartOf l) : m.tally .unit ≤ l.tally .unit := by
  obtain ⟨p, hp⟩ := h
  induction p generalizing l with
  | nil =>
      cases hp
      exact Nat.le_refl _
  | cons s p ih =>
      rw [Node.at?_cons, Option.bind_some] at hp
      cases hc : l.child? s with
      | none => simp [hc] at hp
      | some c =>
          rw [hc] at hp
          exact Nat.le_trans (ih hp) (Nat.le_of_lt (tally_lt_of_child? hc))

end YamlDelta.Compare
