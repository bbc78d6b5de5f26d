/-
What unordered comparison can hide.

Unordered comparison pairs off all that was found between two sequences in one heap: an
item that was reported as a whole, and parts of items from any depth.  So a change inside
one item can be paired off with the opposite change inside another, and a part that was
moved out of an item can be paired off with an item that was added.  Nothing is ever lost
that way, but what is where can change unseen.

How far this goes is settled here exactly.  A document is safe, in the sense that nothing
but a reordering of it passes unreported, when each of its sequences is bare: scalars
only, except that the last item may also be an empty collection.  In every other document
an item can be emptied into its sequence, or the last item be put into an empty one, and
no difference is reported.
-/
import YamlDelta.Proofs.Compare.Conservation
import YamlDelta.Proofs.Compare.Equality

namespace YamlDelta.Compare

open Node (SameUpToOrder)

variable {l r : Node}

/-- All items but the last are scalars, and the last has nothing below it. -/
inductive BareItems : List Node → Prop
  | nil : BareItems []
  | last {c : Node} (h : ∀ s, c.child? s = none) : BareItems [c]
  | cons (v : Scalar) (p : Place) {is : List Node} (h : BareItems is) :
      BareItems (.scalar v p :: is)

/-- Every sequence that stands somewhere in the document has bare items. -/
def BareSequences (n : Node) : Prop :=
  ∀ p is q, Node.at? (some n) p = some (.sequence is q) → BareItems is

/-! ### Bare items hide nothing -/

theorem BareItems.child?_eq_none {is : List Node} (h : BareItems is) :
    ∀ c ∈ is, ∀ s, c.child? s = none := by
  induction h with
  | nil => intro c hc; cases hc
  | last h => exact fun c hc => List.mem_singleton.mp hc ▸ h
  | cons v p h ih =>
      intro c hc
      rcases List.mem_cons.mp hc with rfl | hc
      · exact Node.child?_scalar v p
      · exact ih c hc

/-- What does not differ from a node without children holds the same data. -/
theorem sameData_of_leaf {options : CompareOptions} (hleaf : ∀ s, l.child? s = none)
    (h : nodes options l r = []) : Node.SameData l r := by
  rcases shape_of_nodes_eq_nil h with hcoll | hscalar
  · have htally := tally_eq_of_nodes_eq_nil h .unit
    rw [tally_unit_eq_one_iff.mpr hleaf] at htally
    rw [sameData_iff_children hcoll]
    intro s
    rw [hleaf s, tally_unit_eq_one_iff.mp htally.symm s]
    exact .none
  · exact sameData_of_sameScalar hscalar

/-- Nothing is reported on the left of a node without children but the node itself. -/
theorem lefts_eq_nil_of_leaf (options : CompareOptions) (hcoll : SameCollection l r)
    (hleaf : ∀ s, l.child? s = none) : lefts (nodes options l r) = [] := by
  refine List.eq_nil_iff_forall_not_mem.mpr fun n hn => ?_
  rw [nodes_of_sameCollection hcoll] at hn
  obtain ⟨s, a, hs, -⟩ := mem_lefts_children (mem_lefts_settled hn)
  rw [hleaf s] at hs
  cases hs

theorem rights_eq_nil_of_leaf (options : CompareOptions) (hcoll : SameCollection l r)
    (hleaf : ∀ s, r.child? s = none) : rights (nodes options l r) = [] := by
  refine List.eq_nil_iff_forall_not_mem.mpr fun n hn => ?_
  rw [nodes_of_sameCollection hcoll] at hn
  obtain ⟨s, b, hs, -⟩ := mem_rights_children (mem_rights_settled hn)
  rw [hleaf s] at hs
  cases hs

/-- **Bare items are compared as wholes.**  As many nodes are reported on the left as on the right
only if all of them are items. -/
theorem accounted_items_of_bare {options : CompareOptions} {ls : List Node} (h : BareItems ls)
    (rs : List Node) (hcount : (lefts (items (nodes options) ls rs)).length =
      (rights (items (nodes options) ls rs)).length) :
    Accounted (silent options) ls rs (items (nodes options) ls rs) := by
  induction h generalizing rs with
  | nil => exact accounted_added rs
  | @last c hleaf =>
      cases rs with
      | nil => exact accounted_deleted [c]
      | cons r rs =>
          show Accounted _ ([c] ++ []) ([r] ++ rs) (nodes options c r ++ rs.map .added)
          refine (accounted_nodes ?_).append (accounted_added rs)
          by_cases hcoll : SameCollection c r
          · have hl := lefts_eq_nil_of_leaf options hcoll hleaf
            have hr : rights (nodes options c r) = [] := by
              simp only [items, lefts_append, rights_append, hl, lefts_map_added,
                rights_map_added, List.length_append, List.length_nil] at hcount
              exact List.length_eq_zero_iff.mp (by omega)
            exact .inl (eq_nil_of_sides hl hr)
          · exact nodes_of_not_sameCollection options hcoll
  | @cons v p ls h ih =>
      cases rs with
      | nil => exact accounted_deleted (.scalar v p :: ls)
      | cons r rs =>
          have hcoll : ¬SameCollection (.scalar v p) r := by
            rintro ⟨-, hc⟩
            cases v <;> cases hc
          have hhead := accounted_nodes (nodes_of_not_sameCollection options hcoll)
          refine Accounted.append hhead (ih rs ?_)
          have hlength := hhead.length
          simp only [items, lefts_append, rights_append, List.length_append,
            List.length_singleton] at hcount hlength
          omega

theorem sameUpToOrder_of_bareItems {ls rs : List Node} {p q : Place} (hbare : BareItems ls)
    (h : nodes .unordered (.sequence ls p) (.sequence rs q) = []) :
    SameUpToOrder (.sequence ls p) (.sequence rs q) := by
  rw [nodes_sequence, sequences_unordered] at h
  have hcancel := accounted_cancel (silent .unordered) (items (nodes .unordered) ls rs)
  rw [h] at hcancel
  have hitems := accounted_items_of_bare hbare rs (by simpa using hcancel.length)
  obtain ⟨ps, hps, hl, hr⟩ := (hitems.trans hcancel).pairs
  refine .sequence ps hl hr fun x hx => ?_
  have hmem : x.1 ∈ ls := hl.mem_iff.mpr (List.mem_map_of_mem hx)
  exact (sameData_of_leaf (hbare.child?_eq_none x.1 hmem) (silent_iff.mp (hps x hx))).sameUpToOrder

/-! ### Everything else does -/

/-- Equal items at the front are passed over. -/
theorem items_append_same (options : CompareOptions) (is ls rs : List Node) :
    items (nodes options) (is ++ ls) (is ++ rs) = items (nodes options) ls rs := by
  induction is with
  | nil => rfl
  | cons i is ih => rw [List.cons_append, List.cons_append, items, nodes_self, List.nil_append, ih]

/-- If items are reported on the left and on the right in the same order, nothing is left. -/
theorem sequences_eq_nil_of_trade {ls rs : List Node}
    (h : lefts (items (nodes .unordered) ls rs) = rights (items (nodes .unordered) ls rs)) :
    sequences .unordered ls rs = [] := by
  rw [sequences_unordered]
  exact cancel_eq_nil_of_sides_eq h fun n _ => silent_iff.mpr (nodes_self _ n)

theorem length_eq_of_sameUpToOrder {ls rs : List Node} {p q : Place}
    (h : SameUpToOrder (.sequence ls p) (.sequence rs q)) : ls.length = rs.length := by
  cases h with
  | sequence ps hl hr hitems => rw [hl.length_eq, hr.length_eq, List.length_map, List.length_map]

/-- The collection with nothing in it. -/
def emptied : Node → Node
  | .mapping _ p => .mapping [] p
  | .sequence _ p => .sequence [] p
  | .scalar v p => .scalar v p

/-- The collection with one node in it. -/
def filled (d : Node) : Node → Node
  | .mapping _ p => .mapping [("", d)] p
  | .sequence _ p => .sequence [d] p
  | .scalar v p => .scalar v p

theorem child?_emptied (c : Node) (s : Step) : (emptied c).child? s = none := by
  cases c with
  | mapping es p => cases s <;> rfl
  | sequence is p => cases s <;> simp [emptied]
  | scalar v p => simp [emptied]

/-- **An item may be emptied into its sequence.**  What was in it is reported on the left, and once
more on the right where it was added to the sequence. -/
theorem exists_emptied (before after : List Node) {c d : Node} {s : Step}
    (hc : c.child? s = some d) :
    ∃ rs, sequences .unordered (before ++ c :: after) rs = [] ∧
      (before ++ c :: after).length < rs.length := by
  have hcoll : SameCollection c (emptied c) := by
    cases c with
    | mapping es p => exact ⟨rfl, rfl⟩
    | sequence is p => exact ⟨rfl, rfl⟩
    | scalar v p => simp at hc
  have hr := rights_eq_nil_of_leaf .unordered hcoll (child?_emptied c)
  generalize hout : lefts (nodes .unordered c (emptied c)) = out at hr
  refine ⟨before ++ emptied c :: (after ++ out), sequences_eq_nil_of_trade ?_, ?_⟩
  · have hafter := items_append_same .unordered after [] out
    rw [List.append_nil] at hafter
    rw [items_append_same, items, hafter, lefts_append, rights_append, hout, hr]
    simp [items]
  · -- if nothing came out of it, it would be made of the same pieces as without its content
    have hne : out ≠ [] := by
      intro hnil
      have htally := tally_eq_of_nodes_eq_nil (eq_nil_of_sides (hout.trans hnil) hr) .unit
      rw [tally_unit_eq_one_iff.mpr (child?_emptied c), tally_unit_eq_one_iff] at htally
      rw [htally s] at hc
      cases hc
    have hpos := List.length_pos_iff.mpr hne
    simp only [List.length_append, List.length_cons]
    omega

theorem nodes_filled {c : Node} (d : Node) (hkind : c.kind.isCollection = true)
    (hleaf : ∀ s, c.child? s = none) : nodes .unordered c (filled d c) = [.added d] := by
  cases c with
  | mapping es p =>
      cases es with
      | nil =>
          rw [nodes_eq_step]
          simp [filled, step, mappings, keys, Node.lookup, sides, List.eraseDups_cons]
      | cons e es =>
          have hsome : (Node.lookup e.1 (e :: es)).isSome = true :=
            Node.isSome_lookup.mpr (List.mem_cons_self ..)
          rw [show Node.lookup e.1 (e :: es) = none from hleaf (.key e.1)] at hsome
          cases hsome
  | sequence is p =>
      cases is with
      | nil =>
          rw [nodes_eq_step]
          simp [filled, step, items, cancel, pairOff, CompareOptions.unordered,
            Difference.left?, Difference.right?, Difference.ofSides?]
      | cons i is => exact absurd (hleaf (.index 0)) (by simp)
  | scalar v p => cases v <;> cases hkind

/-- **The last item may be put into an empty one.**  It is reported on the left where it is missing,
and on the right where it was put. -/
theorem exists_filled (before after : List Node) (d : Node) {c : Node}
    (hkind : c.kind.isCollection = true) (hleaf : ∀ s, c.child? s = none) :
    ∃ rs, sequences .unordered (before ++ c :: (after ++ [d])) rs = [] ∧
      rs.length < (before ++ c :: (after ++ [d])).length := by
  have hfilled := nodes_filled d hkind hleaf
  refine ⟨before ++ filled d c :: after, sequences_eq_nil_of_trade ?_, ?_⟩
  · have hafter := items_append_same .unordered after [d] []
    rw [List.append_nil] at hafter
    rw [items_append_same, items, hafter, hfilled]
    simp [items, Difference.left?, Difference.right?]
  · simp only [List.length_append, List.length_cons]
    omega

/-- If no sequence of another length passes for it, a sequence has bare items. -/
theorem bareItems_of_length (before : List Node) {is : List Node}
    (h : ∀ rs, sequences .unordered (before ++ is) rs = [] → (before ++ is).length = rs.length) :
    BareItems is := by
  induction is generalizing before with
  | nil => exact .nil
  | cons c is ih =>
      by_cases hkind : c.kind.isCollection = true
      · have hleaf : ∀ s, c.child? s = none := by
          intro s
          cases hc : c.child? s with
          | none => rfl
          | some d =>
              obtain ⟨rs, hrs, hlt⟩ := exists_emptied before is hc
              exact absurd (h rs hrs) (Nat.ne_of_lt hlt)
        rcases List.eq_nil_or_concat is with rfl | ⟨is, d, rfl⟩
        · exact .last hleaf
        · rw [List.concat_eq_append] at h
          obtain ⟨rs, hrs, hlt⟩ := exists_filled before is d hkind hleaf
          exact absurd (h rs hrs) (Nat.ne_of_gt hlt)
      · cases c with
        | mapping es q => exact absurd rfl hkind
        | sequence js q => exact absurd rfl hkind
        | scalar v q =>
            refine .cons v q (ih (before ++ [.scalar v q]) ?_)
            rw [List.append_assoc]
            exact h

/-! ### Exactly where nothing is hidden -/

theorem BareSequences.of_child? {c n : Node} {s : Step} (h : BareSequences n)
    (hc : n.child? s = some c) : BareSequences c := by
  intro p is q hp
  refine h (s :: p) is q ?_
  rw [Node.at?_cons, Option.bind_some, hc]
  exact hp

theorem bareSequences_of_children {n : Node} (hitems : ∀ is q, n = .sequence is q → BareItems is)
    (hchildren : ∀ s c, n.child? s = some c → BareSequences c) : BareSequences n := by
  intro p is q hp
  cases p with
  | nil => exact hitems is q (Option.some.inj hp)
  | cons s p =>
      rw [Node.at?_cons, Option.bind_some] at hp
      cases hc : n.child? s with
      | none => simp [hc] at hp
      | some c =>
          rw [hc] at hp
          exact hchildren s c hc p is q hp

theorem bareSequences_of_leaf {n : Node} (hleaf : ∀ s, n.child? s = none) : BareSequences n := by
  refine bareSequences_of_children (fun is q hn => ?_) fun s c hc => ?_
  · subst hn
    cases is with
    | nil => exact .nil
    | cons i is => exact absurd (hleaf (.index 0)) (by simp)
  · rw [hleaf s] at hc
    cases hc

theorem sameUpToOrder_of_bareSequences (hbare : BareSequences l)
    (h : nodes .unordered l r = []) : SameUpToOrder l r := by
  induction l using Node.child_induct generalizing r with
  | h l ih =>
      rcases shape_of_nodes_eq_nil h with hcoll | hscalar
      · rcases sameCollection_cases hcoll with ⟨ls, p, rs, q, rfl, rfl⟩ | ⟨ls, p, rs, q, rfl, rfl⟩
        · rw [nodes_mapping_eq_nil] at h
          refine Node.agree_mapping_iff.mpr fun k => rel_imp (h k) fun v w hv hvw => ?_
          exact ih (.key k) v hv (hbare.of_child? (s := .key k) hv) hvw
        · exact sameUpToOrder_of_bareItems (hbare [] ls p rfl) h
      · exact (sameData_of_sameScalar hscalar).sameUpToOrder

/-- What passes for a value passes for it under its key as well: the last value counts. -/
theorem safe_of_lookup {es : List (String × Node)} {p : Place} {k : String} {v w : Node}
    (hk : Node.lookup k es = some v)
    (h : ∀ r, nodes .unordered (.mapping es p) r = [] → SameUpToOrder (.mapping es p) r)
    (hw : nodes .unordered v w = []) : SameUpToOrder v w := by
  have hnil : nodes .unordered (.mapping es p) (.mapping (es ++ [(k, w)]) p) = [] := by
    refine nodes_mapping_eq_nil.mpr fun key => ?_
    rw [Node.lookup_append]
    by_cases hkey : k = key
    · subst hkey
      rw [hk]
      simpa [Node.lookup] using hw
    · rw [show Node.lookup key [(k, w)] = none by simp [Node.lookup, hkey], Option.none_or]
      cases Node.lookup key es with
      | none => exact .none
      | some n => exact .some (nodes_self _ n)
  have hrel := Node.agree_mapping_iff.mp (h _ hnil) k
  rw [hk, Node.lookup_append, show Node.lookup k [(k, w)] = some w by simp [Node.lookup],
    Option.some_or] at hrel
  cases hrel with
  | some hvw => exact hvw

theorem bareItems_of_safe {is : List Node} {p : Place}
    (h : ∀ r, nodes .unordered (.sequence is p) r = [] → SameUpToOrder (.sequence is p) r) :
    BareItems is := by
  refine bareItems_of_length [] fun rs hrs => ?_
  rw [List.nil_append, ← nodes_sequence .unordered is rs p p] at hrs
  exact length_eq_of_sameUpToOrder (h _ hrs)

theorem bareSequences_of_safe (h : ∀ r, nodes .unordered l r = [] → SameUpToOrder l r) :
    BareSequences l := by
  induction l using Node.child_induct with
  | h l ih =>
      refine bareSequences_of_children (fun is q hl => ?_) fun s c hc => ?_
      · subst hl
        exact bareItems_of_safe h
      · rcases Node.child?_cases hc with ⟨es, p, k, rfl, rfl, -⟩ | ⟨is, p, i, rfl, rfl, hmem⟩
        · exact ih _ c hc fun w hw => safe_of_lookup hc h hw
        · exact bareSequences_of_leaf ((bareItems_of_safe h).child?_eq_none c hmem)

/-- **Where unordered comparison tells order from change.**  Whatever passes for a document without
difference is the same up to order, if and only if every sequence in the document is bare. -/
theorem unordered_sound_iff_bareSequences (l : Node) :
    (∀ r, optional .unordered (some l) (some r) = [] → SameUpToOrder l r) ↔ BareSequences l :=
  ⟨bareSequences_of_safe, fun hbare _ => sameUpToOrder_of_bareSequences hbare⟩

/-! ### A change that is hidden -/

/-- The document `- {a: v, b: w}`. -/
private def record (v w : Int64) : Node :=
  .sequence [.mapping [("a", .scalar (.integer v) ⟨toString v.toInt, 1, 7, "[0].a"⟩),
    ("b", .scalar (.integer w) ⟨toString w.toInt, 1, 13, "[0].b"⟩)] ⟨"", 1, 3, "[0]"⟩]
    ⟨"", 1, 1, ""⟩

/-- Two numbers in one record change places, and nothing is reported. -/
theorem hidden_change :
    optional .unordered (some (record 1 2)) (some (record 2 1)) = [] ∧
      ¬SameUpToOrder (record 1 2) (record 2 1) := by
  refine ⟨List.isEmpty_iff.mp (by decide), fun h => ?_⟩
  cases h with
  | sequence ps hl hr hitems =>
      have hfst := List.perm_singleton.mp hl.symm
      have hsnd := List.perm_singleton.mp hr.symm
      cases ps with
      | nil => cases hfst
      | cons x ps =>
          have hx := hitems x (List.mem_cons_self ..)
          rw [(List.cons.inj hfst).1, (List.cons.inj hsnd).1] at hx
          have ha := Node.agree_mapping_iff.mp hx "a"
          cases ha with
          | some hvw =>
              cases hvw with
              | scalar hvw => exact absurd (Scalar.sameContent_iff.mpr hvw) (by decide)

end YamlDelta.Compare
