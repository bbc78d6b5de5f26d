/-
What a reordering leaves behind.

Two sequences of the same items in another order are paired up by index first.  A pair of
collections of one kind is taken apart, any other pair is kept as wholes, and so one item
can stand on the left as a whole and on the right in parts.  Then it stays.

For sequences of mixed kinds this decides the matter.  If some item is no mapping and some
item is no sequence, then no reordering is reported exactly if any two collections of one
kind among the items equal each other: otherwise moving three items in a cycle takes one
apart on one side only.  Where only scalars are reported, nothing stays whatever the kinds
are, since a comparison conserves how many scalars there are of each content.
-/
import YamlDelta.Proofs.Compare.Conservation
import YamlDelta.Proofs.Compare.Equality

namespace YamlDelta.Compare

variable {options : CompareOptions} {a b : Node} {ls rs : List Node}

/-! ### Reorderings as lists of pairs -/

theorem items_map_pairs (deeper : Node → Node → List Difference) (ps : List (Node × Node)) :
    items deeper (ps.map Prod.fst) (ps.map Prod.snd) = ps.flatMap fun x => deeper x.1 x.2 := by
  induction ps with
  | nil => rfl
  | cons x ps ih => rw [List.map_cons, List.map_cons, items, ih, List.flatMap_cons]

/-- Pairs can be arranged by their left halves. -/
theorem exists_pairs_of_perm {ps : List (Node × Node)} (h : ls.Perm (ps.map Prod.fst)) :
    ∃ qs : List (Node × Node), qs.Perm ps ∧ qs.map Prod.fst = ls := by
  induction ls generalizing ps with
  | nil =>
      have hnil : ps = [] := List.map_eq_nil_iff.mp (List.nil_perm.mp h)
      exact ⟨[], by rw [hnil], rfl⟩
  | cons l ls ih =>
      obtain ⟨x, hx, rfl⟩ := List.mem_map.mp (h.mem_iff.mp (List.mem_cons_self ..))
      obtain ⟨before, after, rfl⟩ := List.append_of_mem hx
      rw [List.map_append, List.map_cons] at h
      have hrest := (h.trans List.perm_middle).cons_inv
      rw [← List.map_append] at hrest
      obtain ⟨qs, hqs, rfl⟩ := ih hrest
      exact ⟨x :: qs, (hqs.cons x).trans List.perm_middle.symm, rfl⟩

theorem exists_perm_cons {n : Node} (h : n ∈ ls) : ∃ rest, ls.Perm (n :: rest) := by
  obtain ⟨before, after, rfl⟩ := List.append_of_mem h
  exact ⟨before ++ after, List.perm_middle⟩

theorem exists_perm_three {c : Node} (ha : a ∈ ls) (hb : b ∈ ls) (hc : c ∈ ls) (hab : a ≠ b)
    (hac : a ≠ c) (hbc : b ≠ c) : ∃ rest, ls.Perm (a :: b :: c :: rest) := by
  obtain ⟨as, has⟩ := exists_perm_cons ha
  have hb' : b ∈ as := (List.mem_cons.mp (has.mem_iff.mp hb)).resolve_left hab.symm
  have hc' : c ∈ as := (List.mem_cons.mp (has.mem_iff.mp hc)).resolve_left hac.symm
  obtain ⟨bs, hbs⟩ := exists_perm_cons hb'
  obtain ⟨rest, hrest⟩ :=
    exists_perm_cons ((List.mem_cons.mp (hbs.mem_iff.mp hc')).resolve_left hbc.symm)
  exact ⟨rest, has.trans ((hbs.trans (hrest.cons b)).cons a)⟩

/-! ### Taking an item apart -/

/-- A collection equals nothing that is reported from inside it. -/
theorem nodes_ne_nil_of_mem_rights {y : Node} (hcoll : SameCollection b a)
    (hy : y ∈ rights (nodes options b a)) : nodes options a y ≠ [] := by
  intro h
  rw [nodes_of_sameCollection hcoll] at hy
  obtain ⟨s, c, hc, hpart⟩ := mem_rights_children (mem_rights_settled hy)
  have hle : y.tally .unit ≤ c.tally .unit := by
    rcases hpart with rfl | ⟨d, -, hmem⟩
    · exact Nat.le_refl _
    · exact tally_le_of_partOf (partOf_of_mem_rights hmem)
  have hlt := tally_lt_of_child? hc
  have htally := tally_eq_of_nodes_eq_nil h .unit
  omega

/-- Three items moved in a cycle: the first comes to stand where the second was, the second where
the third was, and the third where the first was.  All others stay. -/
def cycled (a b x : Node) (rest : List Node) : List (Node × Node) :=
  (b, a) :: (x, b) :: (a, x) :: rest.map fun n => (n, n)

theorem map_fst_cycled (a b x : Node) (rest : List Node) :
    (cycled a b x rest).map Prod.fst = b :: x :: a :: rest := by
  simp [cycled, Function.comp_def]

theorem map_snd_cycled (a b x : Node) (rest : List Node) :
    (cycled a b x rest).map Prod.snd = a :: b :: x :: rest := by
  simp [cycled, Function.comp_def]

/-- The first of the three has no equal on the right: not inside itself, and neither of the
others is one. -/
theorem nodes_ne_nil_of_mem_cycled {x y : Node} {rest : List Node} (hcoll : SameCollection a b)
    (hne : nodes options a b ≠ []) (hkind : a.kind ≠ x.kind)
    (hy : y ∈ rights ((cycled a b x rest).flatMap fun z => nodes options z.1 z.2)) :
    nodes options a y ≠ [] := by
  rw [rights_flatMap] at hy
  obtain ⟨z, hz, hyz⟩ := List.mem_flatMap.mp hy
  have hbx : b.kind ≠ x.kind := fun h => hkind (hcoll.1.trans h)
  simp only [cycled, List.mem_cons, List.mem_map] at hz
  rcases hz with rfl | rfl | rfl | ⟨n, -, rfl⟩
  · exact nodes_ne_nil_of_mem_rights hcoll.symm hyz
  · rw [nodes_of_kind_ne hbx.symm (.inr hcoll.symm.2)] at hyz
    rw [show y = b by simpa [Difference.right?] using hyz]
    exact hne
  · rw [nodes_of_kind_ne hkind (.inl hcoll.2)] at hyz
    rw [show y = x by simpa [Difference.right?] using hyz, nodes_of_kind_ne hkind (.inl hcoll.2)]
    exact List.cons_ne_nil _ _
  · rw [nodes_self] at hyz
    cases hyz

/-- **Three items moved in a cycle are reported**, if two of them are collections of one kind that
do not equal each other and the third is of another kind. -/
theorem exists_reordering_reported {x : Node} (ha : a ∈ ls) (hb : b ∈ ls) (hx : x ∈ ls)
    (hcoll : SameCollection a b) (hne : nodes .unordered a b ≠ []) (hkind : a.kind ≠ x.kind) :
    ∃ rs, ls.Perm rs ∧ sequences .unordered ls rs ≠ [] := by
  have hab : b ≠ a := fun h => hne (h ▸ nodes_self _ _)
  have hxb : x ≠ b := fun h => hkind (h ▸ hcoll.1)
  have hxa : x ≠ a := fun h => hkind (h ▸ rfl)
  obtain ⟨rest, hperm⟩ := exists_perm_three hb hx ha hxb.symm hab hxa
  rw [← map_fst_cycled a b x rest] at hperm
  obtain ⟨ps, hps, rfl⟩ := exists_pairs_of_perm hperm
  refine ⟨ps.map Prod.snd, ?_, fun hnil => ?_⟩
  · refine hperm.trans (List.Perm.trans ?_ (hps.map Prod.snd).symm)
    rw [map_fst_cycled, map_snd_cycled]
    exact ((List.Perm.swap a x rest).cons b).trans (List.Perm.swap a b (x :: rest))
  · rw [sequences_unordered, items_map_pairs] at hnil
    have hcancel := accounted_cancel (silent .unordered)
      (ps.flatMap fun z => nodes .unordered z.1 z.2)
    rw [hnil] at hcancel
    obtain ⟨qs, hqs, hl, hr⟩ := hcancel.pairs
    -- `a` is reported on the left as a whole, so it would have an equal on the right
    have hmem : a ∈ lefts (ps.flatMap fun z => nodes .unordered z.1 z.2) := by
      rw [lefts_flatMap]
      refine List.mem_flatMap.mpr ⟨(a, x), hps.mem_iff.mpr (by simp [cycled]), ?_⟩
      rw [nodes_of_kind_ne hkind (.inl hcoll.2)]
      simp [Difference.left?]
    obtain ⟨q, hq, rfl⟩ := List.mem_map.mp (hl.mem_iff.mp hmem)
    have hy : q.2 ∈ rights ((cycled q.1 b x rest).flatMap fun z => nodes .unordered z.1 z.2) := by
      have hmem := hr.mem_iff.mpr (List.mem_map_of_mem hq)
      rw [rights_flatMap] at hmem ⊢
      exact (hps.flatMap_right _).mem_iff.mp hmem
    exact nodes_ne_nil_of_mem_cycled hcoll hne hkind hy (silent_iff.mp (hqs q hq))

/-! ### Items that cancel as wholes -/

/-- Among nodes of which any two collections of one kind equal each other, equality is one. -/
theorem equivalenceOn_items
    (h : ∀ a ∈ ls, ∀ b ∈ ls, SameCollection a b → nodes options a b = []) :
    EquivalenceOn (· ∈ ls) (silent options) := by
  refine ⟨fun a _ => silent_iff.mpr (nodes_self _ a), ?_, ?_⟩
  · intro a b ha hb hab
    rw [silent_iff] at hab ⊢
    rcases shape_of_nodes_eq_nil hab with hcoll | hscalar
    · exact h b hb a ha hcoll.symm
    · exact nodes_eq_nil_of_sameData _ (sameData_of_sameScalar hscalar).symm
  · intro a b c ha hb hc hab hbc
    rw [silent_iff] at hab hbc ⊢
    rcases shape_of_nodes_eq_nil hab with hcoll | hscalar
    · rcases shape_of_nodes_eq_nil hbc with hcoll' | hscalar'
      · exact h a ha c hc (hcoll.trans hcoll')
      · rw [sameScalar_of_isCollection (.inl hcoll.symm.2)] at hscalar'
        cases hscalar'
    · rcases shape_of_nodes_eq_nil hbc with hcoll' | hscalar'
      · rw [sameScalar_of_isCollection (.inr hcoll'.2)] at hscalar
        cases hscalar
      · exact nodes_eq_nil_of_sameData _
          (sameData_trans (sameData_of_sameScalar hscalar) (sameData_of_sameScalar hscalar'))

theorem accounted_items (h : ∀ a ∈ ls, ∀ b ∈ rs, SameCollection a b → nodes options a b = []) :
    Accounted (silent options) ls rs (items (nodes options) ls rs) := by
  induction ls generalizing rs with
  | nil => exact accounted_added rs
  | cons l ls ih =>
      cases rs with
      | nil => exact accounted_deleted (l :: ls)
      | cons r rs =>
          have hhead : Accounted (silent options) [l] [r] (nodes options l r) := by
            refine accounted_nodes ?_
            by_cases hcoll : SameCollection l r
            · exact .inl (h l (List.mem_cons_self ..) r (List.mem_cons_self ..) hcoll)
            · exact nodes_of_not_sameCollection options hcoll
          refine hhead.append (ih fun a ha b hb => ?_)
          exact h a (List.mem_cons_of_mem l ha) b (List.mem_cons_of_mem r hb)

theorem sequences_eq_nil_of_equal_collections (hperm : ls.Perm rs)
    (h : ∀ a ∈ ls, ∀ b ∈ ls, SameCollection a b → nodes .unordered a b = []) :
    sequences .unordered ls rs = [] := by
  have hacc : Accounted (silent .unordered) ls rs (items (nodes .unordered) ls rs) :=
    accounted_items fun a ha b hb => h a ha b (hperm.mem_iff.mpr hb)
  rw [sequences_unordered]
  refine cancel_eq_nil_of_balanced (equivalenceOn_items h) ?_ ?_ fun n hn => ?_
  · exact fun n hn => hacc.mem_left hn
  · exact fun n hn => hperm.mem_iff.mpr (hacc.mem_right hn)
  · refine (hacc.countP_eq_iff (equivalenceOn_items h) (fun m hm => hm) ?_ hn).mp ?_
    · exact fun m hm => hperm.mem_iff.mpr hm
    · exact hperm.countP_eq (silent .unordered n)

/-! ### Where only scalars are reported -/

/-- The node is a scalar. -/
def IsScalar (n : Node) : Prop :=
  ∃ v p, n = .scalar v p

instance : DecidablePred IsScalar
  | .mapping _ _ => isFalse (fun ⟨_, _, h⟩ => nomatch h)
  | .sequence _ _ => isFalse (fun ⟨_, _, h⟩ => nomatch h)
  | .scalar v p => isTrue ⟨v, p, rfl⟩

theorem silent_scalar (v x : Scalar) (p q : Place) :
    silent options (.scalar v p) (.scalar x q) = v.sameContent x := by
  rw [silent, nodes_eq_step]
  show (if v.sameContent x = true then [] else [Difference.modified _ _]).isEmpty = v.sameContent x
  by_cases h : v.sameContent x = true
  · rw [if_pos h, h]
    rfl
  · rw [if_neg h, Bool.eq_false_iff.mpr h]
    rfl

theorem equivalenceOn_scalars : EquivalenceOn IsScalar (silent options) := by
  refine ⟨?_, ?_, ?_⟩
  · rintro _ ⟨v, p, rfl⟩
    exact silent_iff.mpr (nodes_self _ _)
  · rintro _ _ ⟨v, p, rfl⟩ ⟨x, q, rfl⟩ h
    rw [silent_scalar] at h ⊢
    rw [Scalar.sameContent_comm]
    exact h
  · rintro _ _ _ ⟨v, p, rfl⟩ ⟨x, q, rfl⟩ ⟨y, t, rfl⟩ h h'
    rw [silent_scalar] at h h' ⊢
    exact Scalar.sameContent_trans h h'

/-- Among scalars, those equal to one are counted by the weight of its content. -/
theorem countP_silent_eq_total {ns : List Node} (h : ∀ n ∈ ns, IsScalar n) (v : Scalar)
    (p : Place) : ns.countP (silent options (.scalar v p)) = Node.total (.content v) ns := by
  induction ns with
  | nil => rfl
  | cons n ns ih =>
      rw [List.forall_mem_cons] at h
      obtain ⟨⟨x, q, rfl⟩, htail⟩ := h
      rw [List.countP_cons, ih htail, silent_scalar, Node.total_cons, Nat.add_comm]
      rfl

theorem sequences_eq_nil_of_scalars (hperm : ls.Perm rs)
    (hl : ∀ n ∈ lefts (items (nodes .unordered) ls rs), IsScalar n)
    (hr : ∀ n ∈ rights (items (nodes .unordered) ls rs), IsScalar n) :
    sequences .unordered ls rs = [] := by
  rw [sequences_unordered]
  refine cancel_eq_nil_of_balanced equivalenceOn_scalars hl hr fun n hn => ?_
  obtain ⟨v, p, rfl⟩ := hn
  rw [countP_silent_eq_total hl, countP_silent_eq_total hr]
  have hconserved := conserved_items .unordered (.content v) ls rs
  unfold Conserved at hconserved
  rw [Node.total_perm hperm] at hconserved
  omega

/-! ### Where there are no further sequences -/

/-- No sequence stands anywhere in the node. -/
def NoSequences (n : Node) : Prop :=
  ∀ p is q, Node.at? (some n) p ≠ some (.sequence is q)

theorem NoSequences.of_partOf {m n : Node} (h : NoSequences n) (hm : m.PartOf n) :
    NoSequences m := by
  obtain ⟨p, hp⟩ := hm
  intro q is place hq
  refine h (p ++ q) is place ?_
  rw [Node.at?_append, hp, hq]

/-- Without sequences the options do not matter. -/
theorem nodes_of_noSequences {l r : Node} (h : NoSequences l) :
    nodes options l r = nodes .positional l r := by
  induction l using Node.child_induct generalizing r with
  | h l ih =>
      by_cases hcoll : SameCollection l r
      · have hkind : l.kind ≠ .sequence := by
          cases l with
          | sequence is q => exact absurd rfl (h [] is q)
          | mapping es q => simp [Node.kind]
          | scalar v q => cases v <;> simp [Node.kind, Scalar.kind]
        rw [nodes_of_sameCollection hcoll, nodes_of_sameCollection hcoll, settled, settled,
          if_neg (by simp [hkind]), if_neg (by simp [hkind])]
        refine children_congr fun s x y hx _ => ih s x hx ?_
        exact h.of_partOf ((Node.PartOf.refl x).of_child hx)
      · cases hscalar : sameScalar l r with
        | true => rw [nodes_of_sameScalar hscalar, nodes_of_sameScalar hscalar]
        | false => rw [nodes_of_apart hcoll hscalar, nodes_of_apart hcoll hscalar]

theorem silent_iff_sameData (h : NoSequences a) : silent options a b = true ↔ Node.SameData a b := by
  rw [silent_iff, nodes_of_noSequences h, positional_eq_nil_iff]

theorem equivalenceOn_noSequences : EquivalenceOn NoSequences (silent options) := by
  refine ⟨fun a _ => silent_iff.mpr (nodes_self _ a), fun a b ha hb h => ?_,
    fun a b c ha hb _ h h' => ?_⟩
  · rw [silent_iff_sameData ha] at h
    exact (silent_iff_sameData hb).mpr h.symm
  · rw [silent_iff_sameData ha] at h
    rw [silent_iff_sameData hb] at h'
    exact (silent_iff_sameData ha).mpr (sameData_trans h h')

/-- What is reported on the left of items comes from an item on the left. -/
theorem exists_partOf_of_mem_lefts_items {n : Node}
    (h : n ∈ lefts (items (nodes options) ls rs)) : ∃ l ∈ ls, n.PartOf l := by
  induction ls generalizing rs with
  | nil => simp [items] at h
  | cons l ls ih =>
      cases rs with
      | nil =>
          rw [items, lefts_map_deleted] at h
          exact ⟨n, h, .refl n⟩
      | cons r rs =>
          rw [items, lefts_append] at h
          rcases List.mem_append.mp h with h | h
          · exact ⟨l, List.mem_cons_self .., partOf_of_mem_lefts h⟩
          · obtain ⟨m, hm, hpart⟩ := ih h
            exact ⟨m, List.mem_cons_of_mem l hm, hpart⟩

/-- What is reported on the right of items comes from an item on the right. -/
theorem exists_partOf_of_mem_rights_items {n : Node}
    (h : n ∈ rights (items (nodes options) ls rs)) : ∃ r ∈ rs, n.PartOf r := by
  induction ls generalizing rs with
  | nil =>
      rw [items, rights_map_added] at h
      exact ⟨n, h, .refl n⟩
  | cons l ls ih =>
      cases rs with
      | nil => simp [items, Difference.right?] at h
      | cons r rs =>
          rw [items, rights_append] at h
          rcases List.mem_append.mp h with h | h
          · exact ⟨r, List.mem_cons_self .., partOf_of_mem_rights h⟩
          · obtain ⟨m, hm, hpart⟩ := ih h
            exact ⟨m, List.mem_cons_of_mem r hm, hpart⟩

theorem items_of_noSequences (h : ∀ n ∈ ls, NoSequences n) :
    items (nodes options) ls rs = items (nodes .positional) ls rs := by
  induction ls generalizing rs with
  | nil => rfl
  | cons l ls ih =>
      rw [List.forall_mem_cons] at h
      cases rs with
      | nil => rfl
      | cons r rs => rw [items, items, nodes_of_noSequences h.1, ih h.2]

/-- The nodes on the left and on the right of the differences can be matched so that matched nodes
hold the same data. -/
def Matched (ds : List Difference) : Prop :=
  ∃ ps : List (Node × Node), (∀ x ∈ ps, Node.SameData x.1 x.2) ∧
    (lefts ds).Perm (ps.map Prod.fst) ∧ (rights ds).Perm (ps.map Prod.snd)

/-- **Without further sequences, pairing off is matching.**  Nothing is left if and only if the
nodes reported by position can be matched. -/
theorem sequences_eq_nil_iff_matched (hl : ∀ n ∈ ls, NoSequences n)
    (hr : ∀ n ∈ rs, NoSequences n) :
    sequences .unordered ls rs = [] ↔ Matched (items (nodes .positional) ls rs) := by
  have hlefts : ∀ n ∈ lefts (items (nodes .positional) ls rs), NoSequences n := by
    intro n hn
    obtain ⟨l, hmem, hpart⟩ := exists_partOf_of_mem_lefts_items hn
    exact (hl l hmem).of_partOf hpart
  have hrights : ∀ n ∈ rights (items (nodes .positional) ls rs), NoSequences n := by
    intro n hn
    obtain ⟨r, hmem, hpart⟩ := exists_partOf_of_mem_rights_items hn
    exact (hr r hmem).of_partOf hpart
  rw [sequences_unordered, items_of_noSequences hl]
  generalize items (nodes .positional) ls rs = ds at hlefts hrights
  constructor
  · intro h
    have hcancel := accounted_cancel (silent .unordered) ds
    rw [h] at hcancel
    obtain ⟨ps, hps, hlp, hrp⟩ := hcancel.pairs
    refine ⟨ps, fun x hx => ?_, hlp, hrp⟩
    have hx₁ := hlefts x.1 (hlp.mem_iff.mpr (List.mem_map_of_mem hx))
    exact (silent_iff_sameData hx₁).mp (hps x hx)
  · rintro ⟨ps, hps, hlp, hrp⟩
    refine cancel_eq_nil_of_balanced equivalenceOn_noSequences hlefts hrights fun n hn => ?_
    have hacc : Accounted (silent .unordered) (lefts ds) (rights ds) [] := by
      refine ⟨ps, fun x hx => ?_, hlp, hrp⟩
      have hx₁ := hlefts x.1 (hlp.mem_iff.mpr (List.mem_map_of_mem hx))
      exact (silent_iff_sameData hx₁).mpr (hps x hx)
    exact (hacc.countP_eq_iff equivalenceOn_noSequences hlefts hrights hn).mpr rfl

/-! ### Exactly where reordering is silent -/

/-- Any two collections of one kind among the items equal each other. -/
def EqualCollections (ls : List Node) : Prop :=
  ∀ a ∈ ls, ∀ b ∈ ls, SameCollection a b → nodes .unordered a b = []

/-- The items are not all mappings and not all sequences. -/
def MixedKinds (ls : List Node) : Prop :=
  (∃ x ∈ ls, x.kind ≠ .mapping) ∧ ∃ x ∈ ls, x.kind ≠ .sequence

/-- All sides of the differences are scalars. -/
def OnlyScalars (ds : List Difference) : Prop :=
  (∀ n ∈ lefts ds, IsScalar n) ∧ ∀ n ∈ rights ds, IsScalar n

instance (ds : List Difference) : Decidable (OnlyScalars ds) :=
  inferInstanceAs (Decidable (_ ∧ _))

/-- Among items of mixed kinds there is one of another kind than a collection. -/
theorem MixedKinds.exists_kind_ne (h : MixedKinds ls) (ha : a.kind.isCollection = true) :
    ∃ x ∈ ls, a.kind ≠ x.kind := by
  obtain ⟨⟨x, hx, hxkind⟩, y, hy, hykind⟩ := h
  cases a with
  | mapping es p => exact ⟨x, hx, hxkind.symm⟩
  | sequence is p => exact ⟨y, hy, hykind.symm⟩
  | scalar v p => cases v <;> cases ha

theorem equalCollections_of_silent (hmixed : MixedKinds ls)
    (h : ∀ rs, ls.Perm rs → sequences .unordered ls rs = []) : EqualCollections ls := by
  intro a ha b hb hcoll
  by_contra hne
  obtain ⟨x, hx, hkind⟩ := hmixed.exists_kind_ne hcoll.2
  obtain ⟨rs, hperm, hrs⟩ := exists_reordering_reported ha hb hx hcoll hne hkind
  exact hrs (h rs hperm)

/-- **When reorderings are not reported.**  Items of mixed kinds pass in every order if and only if
collections of one kind among them equal each other.  Items of any kinds pass in another order if
that holds, or if nothing but scalars is found between the items as they come to stand; and if
there are no sequences inside them, if and only if what is found by position can be matched. -/
theorem reordering_silent_iff (ls : List Node) :
    (MixedKinds ls →
      ((∀ rs, ls.Perm rs → sequences .unordered ls rs = []) ↔ EqualCollections ls)) ∧
    (∀ rs, ls.Perm rs →
      (EqualCollections ls ∨ OnlyScalars (items (nodes .unordered) ls rs) →
        sequences .unordered ls rs = []) ∧
      ((∀ n ∈ ls, NoSequences n) →
        (sequences .unordered ls rs = [] ↔ Matched (items (nodes .positional) ls rs)))) := by
  refine ⟨fun hmixed => ⟨equalCollections_of_silent hmixed, ?_⟩, fun rs hperm => ⟨?_, ?_⟩⟩
  · intro hequal rs hperm
    exact sequences_eq_nil_of_equal_collections hperm hequal
  · rintro (hequal | ⟨hl, hr⟩)
    · exact sequences_eq_nil_of_equal_collections hperm hequal
    · exact sequences_eq_nil_of_scalars hperm hl hr
  · intro hl
    exact sequences_eq_nil_iff_matched hl fun n hn => hl n (hperm.mem_iff.mpr hn)

/-! ### A reordering that is reported -/

/-- The mapping `{a: v}`. -/
private def entry (v : Int64) : Node :=
  .mapping [("a", .ofScalar (.integer v) 1 "a")] ⟨"", 1, 1, ""⟩

/-- A number, with no mapping around it. -/
private def plain (v : Int64) : Node :=
  .ofScalar (.integer v) 1 ""

/-- The last of three items comes to stand first, and differences are reported. -/
theorem reported_reordering :
    [entry 1, plain 5, entry 2].Perm [entry 2, entry 1, plain 5] ∧
      sequences .unordered [entry 1, plain 5, entry 2] [entry 2, entry 1, plain 5] ≠ [] := by
  refine ⟨?_, fun h => ?_⟩
  · exact ((List.Perm.swap ..).cons _).trans (List.Perm.swap ..)
  · have hempty := congrArg List.isEmpty h
    revert hempty
    decide

/-- Two mappings change places without a difference, and with a number among them they do not pass
in every order. -/
theorem reordering_of_entries :
    sequences .unordered [entry 1, entry 2] [entry 2, entry 1] = [] ∧
      ¬∀ rs, [entry 1, plain 5, entry 2].Perm rs →
        sequences .unordered [entry 1, plain 5, entry 2] rs = [] := by
  refine ⟨?_, fun h => ?_⟩
  · exact ((reordering_silent_iff _).2 _ (List.Perm.swap ..)).1 (.inr (by decide))
  · have hmixed : MixedKinds [entry 1, plain 5, entry 2] :=
      ⟨⟨plain 5, by simp, by decide⟩, ⟨plain 5, by simp, by decide⟩⟩
    have hequal := ((reordering_silent_iff _).1 hmixed).mp h (entry 1) (by simp) (entry 2) (by simp)
      ⟨rfl, rfl⟩
    have hempty := congrArg List.isEmpty hequal
    revert hempty
    decide

end YamlDelta.Compare
