/-
Tallies: what a document is made of, weighed.

Give a weight to mappings, one to sequences and one to every scalar, the same to scalars
of the same content, and add up the weights of all nodes of a tree.  Only what stands at
a location counts, so an entry that a later one overrides weighs nothing.  The tally says
nothing about where a node stands, and two trees of the same tally under every weight are
made of the same pieces.

A tally is the node's own weight and the tallies of its children, over any list of steps
that has each step to a child once (`tally_eq_own_add`).  That is all later proofs use of
it, so that mappings and sequences need not be told apart.
-/
import Mathlib.Data.List.Induction
import YamlDelta.Proofs.Node.Content
import YamlDelta.Proofs.Node.Location

namespace YamlDelta

/-- What each sort of node weighs. -/
structure Weight where
  mapping : Nat
  sequence : Nat
  scalar : Scalar → Nat
  respects : ∀ {v x : Scalar}, v.sameContent x = true → scalar v = scalar x

namespace Weight

/-- Every node weighs one. -/
def unit : Weight where
  mapping := 1
  sequence := 1
  scalar _ := 1
  respects _ := rfl

/-- Scalars of one content weigh one, all else nothing. -/
def content (v : Scalar) : Weight where
  mapping := 0
  sequence := 0
  scalar x := if v.sameContent x then 1 else 0
  respects {x y} h := by
    have hxy : v.sameContent x = true ↔ v.sameContent y = true := by
      constructor
      · intro hvx
        exact Scalar.sameContent_trans hvx h
      · intro hvy
        rw [Scalar.sameContent_comm] at h
        exact Scalar.sameContent_trans hvy h
    simp only [hxy]

end Weight

namespace Node

/-- The weight of the node without what lies below. -/
def own (w : Weight) : Node → Nat
  | mapping _ _ => w.mapping
  | sequence _ _ => w.sequence
  | scalar v _ => w.scalar v

theorem own_unit (n : Node) : n.own .unit = 1 := by
  cases n <;> rfl

mutual
/-- The weight of the node with everything that lies below. -/
def tally (w : Weight) : Node → Nat
  | mapping es _ => w.mapping + tallyEntries w es
  | sequence is _ => w.sequence + total w is
  | scalar v _ => w.scalar v
def tallyEntries (w : Weight) : List (String × Node) → Nat
  | [] => 0
  | (k, n) :: es => (if (lookup k es).isSome then 0 else n.tally w) + tallyEntries w es
/-- The tallies of several nodes together. -/
def total (w : Weight) : List Node → Nat
  | [] => 0
  | n :: ns => n.tally w + total w ns
end

variable {w : Weight}

@[simp] theorem total_nil : total w [] = 0 := rfl

@[simp] theorem total_cons (n : Node) (ns : List Node) :
    total w (n :: ns) = n.tally w + total w ns := rfl

@[simp] theorem total_append (ns ms : List Node) :
    total w (ns ++ ms) = total w ns + total w ms := by
  induction ns with
  | nil => rw [List.nil_append, total_nil, Nat.zero_add]
  | cons n ns ih => rw [List.cons_append, total_cons, total_cons, ih, Nat.add_assoc]

theorem total_perm {ns ms : List Node} (h : ns.Perm ms) : total w ns = total w ms := by
  induction h with
  | nil => rfl
  | cons n _ ih => rw [total_cons, total_cons, ih]
  | swap n m ns => simp only [total_cons, Nat.add_left_comm]
  | trans _ _ ih ih' => exact ih.trans ih'

theorem total_map_congr {α : Type} {f g : α → Node} {as : List α}
    (h : ∀ a ∈ as, (f a).tally w = (g a).tally w) : total w (as.map f) = total w (as.map g) := by
  induction as with
  | nil => rfl
  | cons a as ih =>
      rw [List.forall_mem_cons] at h
      rw [List.map_cons, List.map_cons, total_cons, total_cons, h.1, ih h.2]

theorem tally_le_total {n : Node} {ns : List Node} (h : n ∈ ns) : n.tally w ≤ total w ns := by
  induction ns with
  | nil => cases h
  | cons m ns ih =>
      rw [total_cons]
      rcases List.mem_cons.mp h with rfl | h
      · exact Nat.le_add_right _ _
      · exact Nat.le_trans (ih h) (Nat.le_add_left _ _)

/-! ### Adding up over steps -/

/-- The nodes that steps lead to. -/
private def led (f : Step → Option Node) (ss : List Step) : List Node :=
  ss.flatMap fun s => (f s).toList

private theorem led_cons (f : Step → Option Node) (s : Step) (ss : List Step) :
    led f (s :: ss) = (f s).toList ++ led f ss := rfl

private theorem led_congr {f g : Step → Option Node} {ss : List Step}
    (h : ∀ s ∈ ss, g s = f s) : led g ss = led f ss :=
  List.flatMap_congr fun s hs => by rw [h s hs]

private theorem led_none {f : Step → Option Node} (hf : ∀ s, f s = none) (ss : List Step) :
    led f ss = [] := by
  induction ss with
  | nil => rfl
  | cons s ss ih => rw [led_cons, hf s, ih]; rfl

/-- One more step leads somewhere, all others lead where they led. -/
private theorem total_led_insert {f g : Step → Option Node} {a : Step} {n : Node}
    {ss : List Step} (hnodup : ss.Nodup) (ha : a ∈ ss) (hf : f a = none) (hg : g a = some n)
    (hother : ∀ s, s ≠ a → g s = f s) :
    total w (led g ss) = n.tally w + total w (led f ss) := by
  induction ss with
  | nil => cases ha
  | cons s ss ih =>
      rw [List.nodup_cons] at hnodup
      rw [led_cons, led_cons, total_append, total_append]
      by_cases hs : s = a
      · subst hs
        have hrest : led g ss = led f ss :=
          led_congr fun t ht => hother t fun hts => hnodup.1 (hts ▸ ht)
        rw [hrest, hf, hg]
        simp
      · have hmem : a ∈ ss := (List.mem_cons.mp ha).resolve_left (Ne.symm hs)
        rw [ih hnodup.2 hmem, hother s hs]
        omega

private theorem tallyEntries_eq_total {ss : List Step} (hnodup : ss.Nodup)
    {es : List (String × Node)} {p : Place}
    (hall : ∀ s, ((mapping es p).child? s).isSome = true → s ∈ ss) :
    tallyEntries w es = total w (led (mapping es p).child? ss) := by
  induction es with
  | nil =>
      rw [led_none fun s => by cases s <;> rfl]
      rfl
  | cons e es ih =>
      obtain ⟨k, n⟩ := e
      have hrest : ∀ s, ((mapping es p).child? s).isSome = true → s ∈ ss := by
        intro s hs
        refine hall s ?_
        cases s with
        | key key =>
            rw [child?_mapping_key] at hs
            rw [child?_mapping_key, lookup_cons, Option.isSome_or, hs, Bool.true_or]
        | index i => simp at hs
      rw [tallyEntries, ih hrest]
      by_cases hk : (lookup k es).isSome = true
      · -- the entry is overridden, so it changes no child
        rw [if_pos hk, Nat.zero_add]
        refine congrArg _ (led_congr fun s _ => ?_).symm
        cases s with
        | key key =>
            rw [child?_mapping_key, child?_mapping_key, lookup_cons]
            by_cases hkey : k = key
            · subst hkey
              rw [Option.or_of_isSome hk]
            · rw [if_neg hkey, Option.or_none]
        | index i => rfl
      · rw [if_neg hk]
        have hnone : lookup k es = none := by simpa using hk
        refine (total_led_insert (a := .key k) hnodup (hall _ ?_) ?_ ?_ ?_).symm
        · simp [lookup_cons]
        · exact hnone
        · simp [lookup_cons, hnone]
        · intro s hs
          cases s with
          | key key =>
              have hkey : k ≠ key := fun h => hs (h ▸ rfl)
              simp [lookup_cons, hkey]
          | index i => rfl

private theorem total_eq_total_led {ss : List Step} (hnodup : ss.Nodup) {is : List Node}
    {p : Place} (hall : ∀ s, ((sequence is p).child? s).isSome = true → s ∈ ss) :
    total w is = total w (led (sequence is p).child? ss) := by
  -- the last item is the one that can be taken away without moving the others
  induction is using List.reverseRecOn with
  | nil =>
      rw [led_none fun s => by cases s <;> simp]
  | append_singleton is n ih =>
      have hrest : ∀ s, ((sequence is p).child? s).isSome = true → s ∈ ss := by
        intro s hs
        refine hall s ?_
        cases s with
        | key key => simp at hs
        | index i =>
            rw [child?_sequence_index, isSome_getElem?] at hs
            rw [child?_sequence_index, isSome_getElem?, List.length_append]
            omega
      rw [total_append, ih hrest, total_cons, total_nil, Nat.add_zero, Nat.add_comm]
      refine (total_led_insert (a := .index is.length) hnodup (hall _ ?_) ?_ ?_ ?_).symm
      · simp
      · simp
      · simp
      · intro s hs
        cases s with
        | key key => rfl
        | index i =>
            have hi : i ≠ is.length := fun h => hs (h ▸ rfl)
            rw [child?_sequence_index, child?_sequence_index]
            by_cases hlt : i < is.length
            · rw [List.getElem?_append_left hlt]
            · have hlength : (is ++ [n]).length ≤ i := by
                rw [List.length_append, List.length_singleton]
                omega
              rw [List.getElem?_eq_none hlength, List.getElem?_eq_none (by omega)]

/-- **A tally is the node's own weight and the tallies of its children.** -/
theorem tally_eq_own_add {n : Node} {ss : List Step} (hnodup : ss.Nodup)
    (hall : ∀ s, (n.child? s).isSome = true → s ∈ ss) :
    n.tally w = n.own w + total w (ss.flatMap fun s => (n.child? s).toList) := by
  show _ = _ + total w (led n.child? ss)
  cases n with
  | mapping es p => rw [tally, own, tallyEntries_eq_total hnodup hall]
  | sequence is p => rw [tally, own, ← total_eq_total_led hnodup hall]
  | scalar v p => rw [tally, own, led_none (child?_scalar v p), total_nil, Nat.add_zero]

end Node

end YamlDelta
