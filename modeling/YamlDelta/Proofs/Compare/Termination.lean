/-
Every comparison comes to an end.

A comparison starts further comparisons: of the children that one step leads to, and,
when the order of a sequence does not count, of the reported nodes that pairing off tries
against each other.  Which those are depends on results: the nodes to be tried were
reported by comparisons of the children, and the trials of a left side stop at the first
right side that equals it.  `calls` lists them all, given what the comparisons return.

`Ends` says that a comparison comes to an end.  A derivation is the tree of all
comparisons that were started, and it is finite because derivations are.  No depth is
mentioned, so this is about the recursion itself; `ends_iff` says that it always ends, and
with the result that `nodes` has.

What keeps it going down is where reported nodes come from.  A side of a difference is a
part of the node on its side, so what pairing off tries lies strictly below the two
sequences, and every comparison is of fewer nodes than the one that started it.
-/
import Mathlib.Data.List.Chain
import YamlDelta.Proofs.Compare.Recursion

namespace YamlDelta

namespace Node

/-! ### Smaller nodes -/

theorem size_le_sizeEntries {e : String × Node} {es : List (String × Node)} (h : e ∈ es) :
    e.2.size ≤ sizeEntries es := by
  induction es with
  | nil => cases h
  | cons x xs ih =>
      rw [sizeEntries]
      rcases List.mem_cons.mp h with rfl | h
      · exact Nat.le_add_right _ _
      · exact Nat.le_trans (ih h) (Nat.le_add_left _ _)

theorem size_le_sizeItems {n : Node} {is : List Node} (h : n ∈ is) : n.size ≤ sizeItems is := by
  induction is with
  | nil => cases h
  | cons x xs ih =>
      rw [sizeItems]
      rcases List.mem_cons.mp h with rfl | h
      · exact Nat.le_add_right _ _
      · exact Nat.le_trans (ih h) (Nat.le_add_left _ _)

/-- A child has fewer nodes. -/
theorem size_child?_lt {n c : Node} {s : Step} (h : n.child? s = some c) : c.size < n.size := by
  rcases child?_cases h with ⟨es, p, k, rfl, -, hmem⟩ | ⟨is, p, i, rfl, -, hmem⟩
  · exact Nat.lt_succ_of_le (size_le_sizeEntries hmem)
  · exact Nat.lt_succ_of_le (size_le_sizeItems hmem)

/-- A part has no more nodes than the whole. -/
theorem PartOf.size_le {m n : Node} (h : PartOf m n) : m.size ≤ n.size := by
  obtain ⟨p, hp⟩ := h
  induction p generalizing n with
  | nil =>
      cases hp
      exact Nat.le_refl _
  | cons s p ih =>
      rw [at?_cons, Option.bind_some] at hp
      cases hc : n.child? s with
      | none => simp [hc] at hp
      | some c =>
          rw [hc] at hp
          exact Nat.le_of_lt (Nat.lt_of_le_of_lt (ih hp) (size_child?_lt hc))

/-- The first node lies strictly below the second. -/
def LiesBelow (m n : Node) : Prop :=
  ∃ s c, n.child? s = some c ∧ m.PartOf c

theorem LiesBelow.size_lt {m n : Node} (h : m.LiesBelow n) : m.size < n.size := by
  obtain ⟨s, c, hc, hm⟩ := h
  exact Nat.lt_of_le_of_lt hm.size_le (size_child?_lt hc)

end Node

namespace Compare

/-! ### What pairing off tries -/

/-- The nodes that are looked at to clear the first with a property: all up to that one. -/
def tried (p : Node → Bool) : List (Option Node) → List Node
  | [] => []
  | none :: ns => tried p ns
  | some n :: ns => n :: if p n then [] else tried p ns

/-- The pairs of sides that pairing off tries, in order. -/
def trials (equal : Node → Node → Bool) :
    List (Option Node) → List (Option Node) → List (Node × Node)
  | [], _ => []
  | none :: ls, rs => trials equal ls rs
  | some l :: ls, rs =>
    (tried (equal l) rs).map (l, ·) ++ trials equal ls ((clearFirst (equal l) rs).getD rs)

variable {p q : Node → Bool} {f g equal : Node → Node → Bool}

/-- Nothing else is looked at. -/
theorem clearFirst_of_tried {ns : List (Option Node)} (h : ∀ n ∈ tried p ns, p n = q n) :
    tried q ns = tried p ns ∧ clearFirst q ns = clearFirst p ns := by
  induction ns with
  | nil => exact ⟨rfl, rfl⟩
  | cons n ns ih =>
      cases n with
      | none =>
          obtain ⟨htried, hclear⟩ := ih h
          exact ⟨htried, by rw [clearFirst, clearFirst, hclear]⟩
      | some n =>
          have hn : p n = q n := h n (by simp [tried])
          by_cases hp : p n = true
          · have hq : q n = true := hn ▸ hp
            exact ⟨by simp [tried, hp, hq], by simp [clearFirst, hp, hq]⟩
          · have hq : ¬q n = true := hn ▸ hp
            obtain ⟨htried, hclear⟩ := ih fun m hm => h m (by simp [tried, hp, hm])
            exact ⟨by simp [tried, hp, hq, htried], by simp [clearFirst, hp, hq, hclear]⟩

/-- Pairing off depends on its trials only, and so do the trials themselves. -/
theorem pairOff_of_trials {ls rs : List (Option Node)}
    (h : ∀ x ∈ trials f ls rs, f x.1 x.2 = g x.1 x.2) :
    trials g ls rs = trials f ls rs ∧ pairOff g ls rs = pairOff f ls rs := by
  induction ls generalizing rs with
  | nil => exact ⟨rfl, rfl⟩
  | cons l ls ih =>
      cases l with
      | none =>
          obtain ⟨htrials, hpair⟩ := ih h
          exact ⟨htrials, by simp only [pairOff, hpair]⟩
      | some l =>
          rw [trials, List.forall_mem_append] at h
          obtain ⟨htried, hclear⟩ := clearFirst_of_tried fun n hn =>
            h.1 (l, n) (List.mem_map_of_mem hn)
          obtain ⟨htrials, hpair⟩ := ih h.2
          refine ⟨by rw [trials, trials, htried, hclear, htrials], ?_⟩
          -- the remaining left sides find what this one has left on the right
          cases hc : clearFirst (f l) rs with
          | none =>
              rw [hc, Option.getD_none] at hpair
              simp only [pairOff, hclear, hc, hpair]
          | some ms =>
              rw [hc, Option.getD_some] at hpair
              simp only [pairOff, hclear, hc, hpair]

theorem mem_of_mem_tried {ns : List (Option Node)} {n : Node} (h : n ∈ tried p ns) :
    n ∈ ns.reduceOption := by
  induction ns with
  | nil => cases h
  | cons m ns ih =>
      cases m with
      | none => simpa using ih h
      | some m =>
          rw [List.reduceOption_cons_of_some]
          by_cases hm : p m = true
          · simp only [tried, hm, if_true, List.mem_singleton] at h
            simp [h]
          · simp only [tried, hm, List.mem_cons] at h
            exact List.mem_cons.mpr (h.imp_right ih)

/-- Only sides that are there are tried. -/
theorem mem_of_mem_trials {ls rs : List (Option Node)} {x : Node × Node}
    (h : x ∈ trials equal ls rs) : x.1 ∈ ls.reduceOption ∧ x.2 ∈ rs.reduceOption := by
  induction ls generalizing rs with
  | nil => cases h
  | cons l ls ih =>
      cases l with
      | none => simpa using ih h
      | some l =>
          rw [List.reduceOption_cons_of_some]
          rcases List.mem_append.mp h with h | h
          · obtain ⟨n, hn, rfl⟩ := List.mem_map.mp h
            exact ⟨List.mem_cons_self, mem_of_mem_tried hn⟩
          · obtain ⟨hleft, hright⟩ := ih h
            refine ⟨List.mem_cons_of_mem _ hleft, ?_⟩
            cases hc : clearFirst (equal l) rs with
            | none => simpa [hc] using hright
            | some ms =>
                obtain ⟨before, m, after, hrs, hms, -, -⟩ := clearFirst_eq_some hc
                rw [hc, Option.getD_some, hms, List.mem_append] at hright
                rw [hrs, List.mem_append, List.mem_cons]
                exact hright.imp_right .inr

/-! ### The comparisons that one comparison starts -/

/-- A comparison, by the nodes on either side, which may be missing. -/
abbrev Comparison := Option Node × Option Node

/-- The number of nodes on both sides. -/
def Comparison.size (c : Comparison) : Nat :=
  c.1.elim 0 Node.size + c.2.elim 0 Node.size

/-- The comparisons that pairing off starts for two sequences, if their order does not count. -/
def cancellations (options : CompareOptions) (deeper : Node → Node → List Difference)
    (l r : Node) : List (Node × Node) :=
  if options.ignoreOrder = true ∧ l.kind = .sequence then
    trials (fun a b => (deeper a b).isEmpty) ((children deeper l r).map (·.left?))
      ((children deeper l r).map (·.right?))
  else []

/-- All comparisons that the comparison of two nodes starts, given what they return: those of the
children, and those of pairing off. -/
def calls (options : CompareOptions) (deeper : Node → Node → List Difference) (l r : Node) :
    List Comparison :=
  (steps l r).map (fun s => (l.child? s, r.child? s)) ++
    (cancellations options deeper l r).map fun x => (some x.1, some x.2)

/-- The comparison ends, with these differences: it has nothing on a side, or it is one step over
comparisons that end. -/
inductive Ends (options : CompareOptions) : Comparison → List Difference → Prop
  | absent : Ends options (none, none) []
  | added (r : Node) : Ends options (none, some r) [.added r]
  | deleted (l : Node) : Ends options (some l, none) [.deleted l]
  | present (l r : Node) (deeper : Node → Node → List Difference)
      (hcalls : ∀ c ∈ calls options deeper l r, Ends options c (sides deeper c.1 c.2)) :
      Ends options (some l, some r) (step options deeper l r)

/-- The first comparison starts the second. -/
def Starts (options : CompareOptions) (c d : Comparison) : Prop :=
  ∃ l r, c = (some l, some r) ∧ d ∈ calls options (nodes options) l r

variable {options : CompareOptions} {l r : Node} {deeper deeper' : Node → Node → List Difference}

/-- **A step depends on the comparisons it starts only.** -/
theorem step_of_calls
    (h : ∀ c ∈ calls options deeper l r, sides deeper c.1 c.2 = sides deeper' c.1 c.2) :
    step options deeper' l r = step options deeper l r := by
  rw [calls, List.forall_mem_append, List.forall_mem_map, List.forall_mem_map] at h
  obtain ⟨hsteps, htrials⟩ := h
  have hchildren : children deeper' l r = children deeper l r :=
    List.flatMap_congr fun s hs => (hsteps s hs).symm
  have hsettled : settled options deeper' l r = settled options deeper l r := by
    unfold settled
    rw [hchildren]
    by_cases hseq : options.ignoreOrder = true ∧ l.kind = .sequence
    · rw [if_pos hseq, if_pos hseq]
      rw [cancellations, if_pos hseq] at htrials
      have hpair := (pairOff_of_trials (g := fun a b => (deeper' a b).isEmpty) fun x hx =>
        congrArg List.isEmpty (htrials x hx)).2
      unfold cancel
      rw [hpair]
    · rw [if_neg hseq, if_neg hseq]
  rw [step_eq, step_eq, hsettled]

/-! ### Only smaller nodes are compared -/

/-- What was reported on the left of two nodes' children lies strictly below the left one. -/
theorem liesBelow_of_mem_lefts {n : Node} (h : n ∈ lefts (children (nodes options) l r)) :
    n.LiesBelow l := by
  obtain ⟨s, a, ha, rfl | ⟨b, -, hn⟩⟩ := mem_lefts_children h
  · exact ⟨s, n, ha, .refl n⟩
  · exact ⟨s, a, ha, partOf_of_mem_lefts hn⟩

theorem liesBelow_of_mem_rights {n : Node} (h : n ∈ rights (children (nodes options) l r)) :
    n.LiesBelow r := by
  obtain ⟨s, b, hb, rfl | ⟨a, -, hn⟩⟩ := mem_rights_children h
  · exact ⟨s, n, hb, .refl n⟩
  · exact ⟨s, b, hb, partOf_of_mem_rights hn⟩

/-- Pairing off compares nodes strictly below the two sequences. -/
theorem liesBelow_of_mem_cancellations {x : Node × Node}
    (h : x ∈ cancellations options (nodes options) l r) : x.1.LiesBelow l ∧ x.2.LiesBelow r := by
  unfold cancellations at h
  split at h
  · obtain ⟨hleft, hright⟩ := mem_of_mem_trials h
    rw [← lefts_eq_reduceOption] at hleft
    rw [← rights_eq_reduceOption] at hright
    exact ⟨liesBelow_of_mem_lefts hleft, liesBelow_of_mem_rights hright⟩
  · cases h

theorem elim_size_child?_lt (n : Node) (s : Step) : (n.child? s).elim 0 Node.size < n.size := by
  cases hc : n.child? s with
  | none => exact n.size_pos
  | some c => exact Node.size_child?_lt hc

/-- A comparison starts comparisons of fewer nodes. -/
theorem Starts.size_lt {c d : Comparison} (h : Starts options c d) : d.size < c.size := by
  obtain ⟨l, r, rfl, hd⟩ := h
  rcases List.mem_append.mp hd with hd | hd
  · obtain ⟨s, -, rfl⟩ := List.mem_map.mp hd
    exact Nat.add_lt_add (elim_size_child?_lt l s) (elim_size_child?_lt r s)
  · obtain ⟨x, hx, rfl⟩ := List.mem_map.mp hd
    obtain ⟨hleft, hright⟩ := liesBelow_of_mem_cancellations hx
    exact Nat.add_lt_add hleft.size_lt hright.size_lt

/-! ### The end -/

/-- Whoever comes to an end has the result of the comparison. -/
theorem Ends.eq {c : Comparison} {ds : List Difference} (h : Ends options c ds) :
    ds = optional options c.1 c.2 := by
  induction h with
  | absent => rfl
  | added r => rfl
  | deleted l => rfl
  | present l r deeper hcalls ih =>
      show step options deeper l r = nodes options l r
      rw [nodes_eq_step, step_of_calls ih]

/-- Every comparison comes to an end, by induction on the number of nodes. -/
theorem ends_optional (options : CompareOptions) (c : Comparison) :
    Ends options c (optional options c.1 c.2) := by
  induction hsize : c.size using Nat.strongRecOn generalizing c with
  | ind n ih =>
      obtain ⟨l, r⟩ := c
      cases l with
      | none =>
          cases r with
          | none => exact .absent
          | some r => exact .added r
      | some l =>
          cases r with
          | none => exact .deleted l
          | some r =>
              show Ends options (some l, some r) (nodes options l r)
              rw [nodes_eq_step]
              refine .present l r (nodes options) fun c hc => ?_
              have hstarts : Starts options (some l, some r) c := ⟨l, r, rfl, hc⟩
              exact ih c.size (hsize ▸ hstarts.size_lt) c rfl

theorem ends_iff {c : Comparison} {ds : List Difference} :
    Ends options c ds ↔ ds = optional options c.1 c.2 := by
  constructor
  · exact Ends.eq
  · rintro rfl
    exact ends_optional options c

/-- Along nested comparisons there are ever fewer nodes. -/
theorem pairwise_size_of_isChain {cs : List Comparison} (h : cs.IsChain (Starts options)) :
    (cs.map Comparison.size).Pairwise (· > ·) := by
  rw [← List.isChain_iff_pairwise]
  exact List.isChain_map_of_isChain Comparison.size (fun _ _ hstarts => hstarts.size_lt) h

/-- **Comparison ends, because it goes to smaller nodes only.**  Whatever is compared, with or
without regard to order, comes to an end with one result.  The nodes reported are parts of the
nodes compared, so that pairing off compares nodes strictly below the two sequences, and along any
chain of comparisons that start each other the number of nodes on both sides strictly decreases. -/
theorem comparison_ends (options : CompareOptions) (l r : Node) :
    (∀ ds, Ends options (some l, some r) ds ↔ ds = nodes options l r) ∧
      (∀ n ∈ lefts (nodes options l r), n.PartOf l) ∧
      (∀ n ∈ rights (nodes options l r), n.PartOf r) ∧
      (∀ x ∈ cancellations options (nodes options) l r, x.1.LiesBelow l ∧ x.2.LiesBelow r) ∧
      ∀ cs : List Comparison, ((some l, some r) :: cs).IsChain (Starts options) →
        (((some l, some r) :: cs).map Comparison.size).Pairwise (· > ·) := by
  refine ⟨fun ds => ends_iff, ?_, ?_, ?_, ?_⟩
  · intro n hn
    exact partOf_of_mem_lefts hn
  · intro n hn
    exact partOf_of_mem_rights hn
  · intro x hx
    exact liesBelow_of_mem_cancellations hx
  · intro cs hchain
    exact pairwise_size_of_isChain hchain

end Compare

end YamlDelta
