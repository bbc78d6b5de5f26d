/-
What is reported depends on data only.

Two comparisons of trees that are alike take the same course.  Steps lead to children that
are alike, so both find the same differences of children, one by one; and in pairing off,
each left side is tried against the same right sides and finds its equal at the same place
(`clearFirst_alike`, `pairOff_alike`).  Each statement is about one step of both
comparisons, given that deeper ones report what is alike, so that the induction is on the
depth alone.
-/
import YamlDelta.Proofs.Compare.Recursion
import YamlDelta.Proofs.Node.Likeness

namespace YamlDelta

/-- The differences are of one kind and have sides that are alike. -/
structure Difference.Alike (like : Likeness) (d e : Difference) : Prop where
  kind : d.kind = e.kind
  left : Option.Rel (Node.Alike like) d.left? e.left?
  right : Option.Rel (Node.Alike like) d.right? e.right?

namespace Compare

variable {like : Likeness} {options : CompareOptions} {l l' r r' : Node}

/-! ### Steps -/

theorem sameCollection_alike (hl : l.Alike like l') (hr : r.Alike like r') :
    SameCollection l r ↔ SameCollection l' r' := by
  constructor
  · rintro ⟨hkind, hcoll⟩
    have hleft := hl.kind_eq (.inl hcoll)
    have hright := hr.kind_eq (.inl (hkind ▸ hcoll))
    exact ⟨hleft.symm.trans (hkind.trans hright), hleft ▸ hcoll⟩
  · rintro ⟨hkind, hcoll⟩
    have hleft := hl.kind_eq (.inr hcoll)
    have hright := hr.kind_eq (.inr (hkind ▸ hcoll))
    exact ⟨hleft.trans (hkind.trans hright.symm), hleft ▸ hcoll⟩

theorem sameScalar_alike (hl : l.Alike like l') (hr : r.Alike like r') :
    sameScalar l r = sameScalar l' r' := by
  cases hl with
  | mapping keys values => rfl
  | sequence items => rfl
  | scalar hv =>
      cases hr with
      | mapping keys values => rfl
      | sequence items => rfl
      | scalar hw => exact Scalar.sameContent_congr (like.sameContent hv) (like.sameContent hw)

theorem isNone_of_rel {R : Node → Node → Prop} {a b : Option Node} (h : Option.Rel R a b) :
    a.isNone = b.isNone := by
  cases h <;> rfl

/-- The same steps are taken, in the same order. -/
theorem steps_alike (hl : l.Alike like l') (hr : r.Alike like r') : steps l r = steps l' r' := by
  cases hl with
  | mapping keys values =>
      cases hr with
      | mapping keys' values' =>
          have hnone : ∀ k, (Node.lookup k _).isNone = (Node.lookup k _).isNone := fun k =>
            isNone_of_rel (Node.lookup_of_forall₂ keys values k)
          simp only [steps, Compare.keys, keys, keys', hnone]
      | sequence items => rfl
      | scalar same => rfl
  | sequence items =>
      cases hr with
      | mapping keys values => rfl
      | sequence items' => simp only [steps, items.length_eq, items'.length_eq]
      | scalar same => rfl
  | scalar same => cases hr <;> rfl

/-! ### Pairing off -/

variable {ls ls' rs rs' : List (Option Node)}

/-- The first with a property stands at the same place. -/
theorem clearFirst_alike {p q : Node → Bool} (h : ∀ n m, n.Alike like m → p n = q m)
    (hrs : List.Forall₂ (Option.Rel (Node.Alike like)) rs rs') :
    Option.Rel (List.Forall₂ (Option.Rel (Node.Alike like))) (clearFirst p rs)
      (clearFirst q rs') := by
  induction hrs with
  | nil => exact .none
  | cons hnm hrest ih =>
      cases hnm with
      | none =>
          rw [clearFirst, clearFirst]
          revert ih
          generalize clearFirst p _ = a, clearFirst q _ = b
          intro ih
          cases ih with
          | none => exact .none
          | some hcleared => exact .some (.cons .none hcleared)
      | some hnm =>
          rw [clearFirst, clearFirst, ← h _ _ hnm]
          split
          · exact .some (.cons .none hrest)
          · revert ih
            generalize clearFirst p _ = a, clearFirst q _ = b
            intro ih
            cases ih with
            | none => exact .none
            | some hcleared => exact .some (.cons (.some hnm) hcleared)

/-- **The same sides go.** -/
theorem pairOff_alike {equal equal' : Node → Node → Bool}
    (h : ∀ a a' b b', a.Alike like a' → b.Alike like b' → equal a b = equal' a' b')
    (hls : List.Forall₂ (Option.Rel (Node.Alike like)) ls ls')
    (hrs : List.Forall₂ (Option.Rel (Node.Alike like)) rs rs') :
    List.Forall₂ (Option.Rel (Node.Alike like)) (pairOff equal ls rs).1
        (pairOff equal' ls' rs').1 ∧
      List.Forall₂ (Option.Rel (Node.Alike like)) (pairOff equal ls rs).2
        (pairOff equal' ls' rs').2 := by
  induction hls generalizing rs rs' with
  | nil => exact ⟨.nil, hrs⟩
  | cons hab hrest ih =>
      cases hab with
      | none =>
          obtain ⟨hleft, hright⟩ := ih hrs
          exact ⟨.cons .none hleft, hright⟩
      | @some a a' hab =>
          have hclear := clearFirst_alike (fun n m => h a a' n m hab) hrs
          rw [pairOff, pairOff]
          revert hclear
          generalize clearFirst (equal a) rs = c, clearFirst (equal' a') rs' = d
          intro hclear
          cases hclear with
          | none =>
              obtain ⟨hleft, hright⟩ := ih hrs
              exact ⟨.cons (.some hab) hleft, hright⟩
          | some hcleared =>
              obtain ⟨hleft, hright⟩ := ih hcleared
              exact ⟨.cons .none hleft, hright⟩

theorem ofSides?_alike {a a' b b' : Option Node} (ha : Option.Rel (Node.Alike like) a a')
    (hb : Option.Rel (Node.Alike like) b b') :
    Option.Rel (Difference.Alike like) (Difference.ofSides? a b) (Difference.ofSides? a' b') := by
  cases ha with
  | none =>
      cases hb with
      | none => exact .none
      | some hb => exact .some ⟨rfl, .none, .some hb⟩
  | some ha =>
      cases hb with
      | none => exact .some ⟨rfl, .some ha, .none⟩
      | some hb => exact .some ⟨rfl, .some ha, .some hb⟩

theorem zip_alike (hls : List.Forall₂ (Option.Rel (Node.Alike like)) ls ls')
    (hrs : List.Forall₂ (Option.Rel (Node.Alike like)) rs rs') :
    List.Forall₂ (fun x y => Option.Rel (Node.Alike like) x.1 y.1 ∧
      Option.Rel (Node.Alike like) x.2 y.2) (ls.zip rs) (ls'.zip rs') := by
  induction hls generalizing rs rs' with
  | nil => exact .nil
  | cons hab hrest ih =>
      cases hrs with
      | nil => exact .nil
      | cons hcd hrs => exact .cons ⟨hab, hcd⟩ (ih hrs)

theorem cancel_alike {equal equal' : Node → Node → Bool} {ds es : List Difference}
    (h : ∀ a a' b b', a.Alike like a' → b.Alike like b' → equal a b = equal' a' b')
    (hds : List.Forall₂ (Difference.Alike like) ds es) :
    List.Forall₂ (Difference.Alike like) (cancel equal ds) (cancel equal' es) := by
  obtain ⟨hleft, hright⟩ := pairOff_alike h (List.rel_map (fun _ _ hd => hd.left) hds)
    (List.rel_map (fun _ _ hd => hd.right) hds)
  exact List.rel_filterMap (fun _ _ hxy => ofSides?_alike hxy.1 hxy.2) (zip_alike hleft hright)

/-! ### Whole comparisons -/

section Step

variable {f g : Node → Node → List Difference}

/-- Deeper comparisons of what is alike report what is alike. -/
def ReportAlike (like : Likeness) (f g : Node → Node → List Difference) : Prop :=
  ∀ a a' b b', a.Alike like a' → b.Alike like b' →
    List.Forall₂ (Difference.Alike like) (f a b) (g a' b')

theorem sides_alike (h : ReportAlike like f g) {a a' b b' : Option Node}
    (ha : Option.Rel (Node.Alike like) a a') (hb : Option.Rel (Node.Alike like) b b') :
    List.Forall₂ (Difference.Alike like) (sides f a b) (sides g a' b') := by
  cases ha with
  | none =>
      cases hb with
      | none => exact .nil
      | some hb => exact .cons ⟨rfl, .none, .some hb⟩ .nil
  | some ha =>
      cases hb with
      | none => exact .cons ⟨rfl, .some ha, .none⟩ .nil
      | some hb => exact h _ _ _ _ ha hb

theorem children_alike (h : ReportAlike like f g) (hl : l.Alike like l') (hr : r.Alike like r') :
    List.Forall₂ (Difference.Alike like) (children f l r) (children g l' r') := by
  rw [children, children, ← steps_alike hl hr]
  refine List.rel_flatMap (R := Eq) (List.forall₂_eq_eq_eq ▸ rfl) ?_
  rintro s _ rfl
  exact sides_alike h (hl.child? s) (hr.child? s)

theorem isEmpty_alike {ds es : List Difference} (h : List.Forall₂ (Difference.Alike like) ds es) :
    ds.isEmpty = es.isEmpty := by
  cases h <;> rfl

/-- **A step reports what is alike if deeper comparisons do.** -/
theorem step_alike (h : ReportAlike like f g) :
    ReportAlike like (step options f) (step options g) := by
  intro l l' r r' hl hr
  have hchildren := children_alike h hl hr
  rw [step_eq, step_eq, sameScalar_alike hl hr]
  by_cases hcoll : SameCollection l r
  · have hkind : l.kind = l'.kind := hl.kind_eq (.inl hcoll.2)
    rw [if_pos hcoll, if_pos ((sameCollection_alike hl hr).mp hcoll), settled, settled, hkind]
    split
    · exact cancel_alike (fun a a' b b' ha hb => isEmpty_alike (h a a' b b' ha hb)) hchildren
    · exact hchildren
  · rw [if_neg hcoll, if_neg fun hcoll' => hcoll ((sameCollection_alike hl hr).mpr hcoll')]
    split
    · exact .nil
    · exact .cons ⟨rfl, .some hl, .some hr⟩ .nil

end Step

theorem within_alike (like : Likeness) (options : CompareOptions) (depth : Nat) :
    ReportAlike like (within options depth) (within options depth) := by
  induction depth with
  | zero => exact fun _ _ _ _ _ _ => .nil
  | succ depth ih => exact step_alike ih

theorem nodes_alike (like : Likeness) (options : CompareOptions) :
    ReportAlike like (nodes options) (nodes options) := by
  intro l l' r r' hl hr
  -- a depth that suffices for both comparisons
  rw [← within_eq_nodes (Nat.le_max_left l.height l'.height),
    ← within_eq_nodes (Nat.le_max_right l.height l'.height)]
  exact within_alike like options _ l l' r r' hl hr

/-- **What is reported depends on data, not on how it is written.**  Trees that are alike have as
many differences, and one by one these are of the same kind and have sides that are alike.  So it
is when either tree is moved as well, to another path or another place. -/
theorem presentation_irrelevant (like : Likeness) (options : CompareOptions) {l l' r r' : Node}
    (hl : l.Alike like l') (hr : r.Alike like r') :
    List.Forall₂ (Difference.Alike like) (nodes options l r) (nodes options l' r') ∧
      ∀ (path path' : String) (move move' : Place → Place),
        List.Forall₂ (Difference.Alike like) (nodes options l r)
          (nodes options ((l.withPath path).mapPlace move) ((r.withPath path').mapPlace move')) := by
  refine ⟨nodes_alike like options l l' r r' hl hr, ?_⟩
  intro path path' move move'
  exact nodes_alike like options _ _ _ _ ((Node.alike_withPath like l path).mapPlace move)
    ((Node.alike_withPath like r path').mapPlace move')

/-- `['x', .nan, 1]` and the same items written elsewhere, the text as a block and the NaN with
another payload, each against `[.NaN, x, 2]` up to order: the 1 is reported as replaced. -/
theorem presentation_irrelevant_of_block :
    let l := Node.sequence [.scalar (.string "x") ⟨"'x'", 1, 2, "[0]"⟩,
      .scalar (.float .nan) ⟨".nan", 1, 7, "[1]"⟩, .scalar (.integer 1) ⟨"1", 1, 13, "[2]"⟩]
      ⟨"", 1, 1, ""⟩
    let l' := Node.sequence [.scalar (.literal "x") ⟨"x", 5, 3, ".k[0]"⟩,
      .scalar (.float ⟨0xfff0000000000001⟩) ⟨".NAN", 6, 3, ".k[1]"⟩,
      .scalar (.integer 1) ⟨"0x1", 7, 3, ".k[2]"⟩] ⟨"", 4, 1, ".k"⟩
    let r := Node.sequence [.scalar (.float .nan) ⟨".NaN", 1, 2, "[0]"⟩,
      .scalar (.string "x") ⟨"x", 1, 8, "[1]"⟩, .scalar (.integer 2) ⟨"2", 1, 11, "[2]"⟩]
      ⟨"", 1, 1, ""⟩
    l.Alike .exact l' ∧ r.Alike .exact r ∧
      List.Forall₂ (Difference.Alike .exact) (nodes .unordered l r) (nodes .unordered l' r) ∧
      (nodes .unordered l r).map (·.path) = ["[2]"] ∧
      (nodes .unordered l' r).map (·.path) = [".k[2]"] := by
  intro l l' r
  have hl : l.Alike .exact l' :=
    .sequence (.cons (.scalar (Scalar.Alike.text rfl rfl))
      (.cons (.scalar (Scalar.Alike.float (.inr ⟨by decide, by decide⟩)))
        (.cons (.scalar (Scalar.Alike.integer 1)) .nil)))
  have hr : r.Alike .exact r := Node.Alike.refl .exact r
  exact ⟨hl, hr, (presentation_irrelevant .exact .unordered hl hr).1, by decide +kernel,
    by decide +kernel⟩

end Compare

end YamlDelta
