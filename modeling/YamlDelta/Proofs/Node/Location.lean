/-
Locations: which node stands where.

One step leads from a collection to a child: a key to the value it stands for, an index
to an item.  A location is a list of steps, followed from the root.  Repeated keys are
settled here once and for all: a key stands for its last value, so what an earlier entry
holds is at no location, and `keys` lists the keys that do stand for something.

A child lies strictly lower than its parent, and every node is reached from its children
by `child_induct`, the induction that all comparison follows.
-/
import Mathlib.Data.List.Nodup
import YamlDelta.Compare.Nodes

namespace YamlDelta

/-! ### Keys and what they stand for -/

namespace Node

theorem lookup_cons (key k : String) (n : Node) (es : List (String × Node)) :
    lookup key ((k, n) :: es) = (lookup key es).or (if k = key then some n else none) := by
  cases h : lookup key es <;> simp [lookup, h]

theorem lookup_append (key : String) (es fs : List (String × Node)) :
    lookup key (es ++ fs) = (lookup key fs).or (lookup key es) := by
  induction es with
  | nil => simp [lookup]
  | cons e es ih => rw [List.cons_append, lookup_cons, lookup_cons, ih, Option.or_assoc]

/-- What is looked up twice over is related if both look-ups are. -/
theorem rel_or {R : Node → Node → Prop} {a b c d : Option Node} (h : Option.Rel R a b)
    (h' : Option.Rel R c d) : Option.Rel R (a.or c) (b.or d) := by
  cases h with
  | some h => exact .some h
  | none => exact h'

theorem mem_of_lookup {key : String} {n : Node} {es : List (String × Node)}
    (h : lookup key es = some n) : (key, n) ∈ es := by
  induction es with
  | nil => simp [lookup] at h
  | cons e es ih =>
      obtain ⟨k, m⟩ := e
      rw [lookup_cons] at h
      cases hes : lookup key es with
      | some m' =>
          rw [hes, Option.some_or] at h
          exact List.mem_cons_of_mem _ (ih (hes.trans h))
      | none =>
          rw [hes, Option.none_or] at h
          split at h
          · rename_i hk
            cases h
            simp [hk]
          · cases h

/-- A key stands for something exactly when an entry has it. -/
theorem isSome_lookup {key : String} {es : List (String × Node)} :
    (lookup key es).isSome = true ↔ key ∈ es.map Prod.fst := by
  induction es with
  | nil => simp [lookup]
  | cons e es ih =>
      obtain ⟨k, m⟩ := e
      rw [lookup_cons, Option.isSome_or, Bool.or_eq_true, ih, List.map_cons, List.mem_cons]
      by_cases hk : k = key
      · simp [hk]
      · simp [hk, Ne.symm hk]

end Node

namespace Compare

theorem mem_keys {key : String} {es : List (String × Node)} :
    key ∈ keys es ↔ (Node.lookup key es).isSome = true := by
  rw [Node.isSome_lookup, keys, List.mem_eraseDups]

private theorem nodup_eraseDups (ks : List String) : ks.eraseDups.Nodup := by
  induction hn : ks.length using Nat.strongRecOn generalizing ks with
  | ind n ih =>
      cases ks with
      | nil => simp
      | cons k rest =>
          subst hn
          rw [List.eraseDups_cons, List.nodup_cons]
          refine ⟨?_, ih _ ?_ _ rfl⟩
          · simp [List.mem_eraseDups]
          · exact Nat.lt_succ_of_le (List.length_filter_le _ _)

theorem nodup_keys (es : List (String × Node)) : (keys es).Nodup :=
  nodup_eraseDups _

end Compare

namespace Node

/-! ### Children -/

/-- The child that one step leads to. -/
def child? (n : Node) : Step → Option Node
  | .key k => n.get? k
  | .index i => n.items?.bind (·[i]?)

@[simp] theorem child?_mapping_key (es : List (String × Node)) (p : Place) (k : String) :
    (mapping es p).child? (.key k) = lookup k es := rfl

@[simp] theorem child?_mapping_index (es : List (String × Node)) (p : Place) (i : Nat) :
    (mapping es p).child? (.index i) = none := rfl

@[simp] theorem child?_sequence_key (is : List Node) (p : Place) (k : String) :
    (sequence is p).child? (.key k) = none := rfl

@[simp] theorem child?_sequence_index (is : List Node) (p : Place) (i : Nat) :
    (sequence is p).child? (.index i) = is[i]? := rfl

@[simp] theorem child?_scalar (v : Scalar) (p : Place) (s : Step) :
    (scalar v p).child? s = none := by
  cases s <;> rfl

/-- A child is an entry's value or an item. -/
theorem child?_cases {n c : Node} {s : Step} (h : n.child? s = some c) :
    (∃ es p k, n = mapping es p ∧ s = .key k ∧ (k, c) ∈ es) ∨
      (∃ is p i, n = sequence is p ∧ s = .index i ∧ c ∈ is) := by
  cases n with
  | mapping es p =>
      cases s with
      | key k => exact .inl ⟨es, p, k, rfl, rfl, mem_of_lookup h⟩
      | index i => simp at h
  | sequence is p =>
      cases s with
      | key k => simp at h
      | index i => exact .inr ⟨is, p, i, rfl, rfl, List.mem_of_getElem? h⟩
  | scalar v p => simp at h

/-- A child lies strictly lower. -/
theorem height_child?_lt {n c : Node} {s : Step} (h : n.child? s = some c) :
    c.height < n.height := by
  rcases child?_cases h with ⟨es, p, k, rfl, -, hmem⟩ | ⟨is, p, i, rfl, -, hmem⟩
  · exact Nat.lt_succ_of_le (height_le_heightEntries hmem)
  · exact Nat.lt_succ_of_le (height_le_heightItems hmem)

/-- What holds of a node when it holds of its children holds of every node. -/
theorem child_induct {P : Node → Prop}
    (h : ∀ n, (∀ s c, n.child? s = some c → P c) → P n) (n : Node) : P n := by
  induction hn : n.height using Nat.strongRecOn generalizing n with
  | ind d ih =>
      subst hn
      exact h n fun s c hc => ih _ (height_child?_lt hc) c rfl

/-! ### Locations -/

/-- The node at a location, followed from a node that may itself be missing. -/
def at? : Option Node → List Step → Option Node
  | n, [] => n
  | n, s :: p => at? (n.bind (·.child? s)) p

@[simp] theorem at?_nil (n : Option Node) : at? n [] = n := rfl

@[simp] theorem at?_cons (n : Option Node) (s : Step) (p : List Step) :
    at? n (s :: p) = at? (n.bind (·.child? s)) p := rfl

@[simp] theorem at?_none (p : List Step) : at? none p = none := by
  induction p with
  | nil => rfl
  | cons s p ih => exact ih

theorem at?_append (n : Option Node) (p q : List Step) : at? n (p ++ q) = at? (at? n p) q := by
  induction p generalizing n with
  | nil => rfl
  | cons s p ih => exact ih _

/-- The first node is the second or lies below it. -/
def PartOf (m n : Node) : Prop :=
  ∃ p, at? (some n) p = some m

theorem PartOf.refl (n : Node) : PartOf n n := ⟨[], rfl⟩

theorem PartOf.of_child {m c n : Node} {s : Step} (hc : n.child? s = some c)
    (hm : PartOf m c) : PartOf m n := by
  obtain ⟨p, hp⟩ := hm
  exact ⟨s :: p, by simpa [hc] using hp⟩

theorem PartOf.height_le {m n : Node} (h : PartOf m n) : m.height ≤ n.height := by
  obtain ⟨p, hp⟩ := h
  induction p generalizing n with
  | nil =>
      cases hp
      exact Nat.le_refl _
  | cons s p ih =>
      rw [at?_cons, Option.bind_some] at hp
      cases hc : n.child? s with
      | none => simp [hc] at hp
      | some c =>
          rw [hc] at hp
          exact Nat.le_of_lt (Nat.lt_of_le_of_lt (ih hp) (height_child?_lt hc))

end Node

end YamlDelta
