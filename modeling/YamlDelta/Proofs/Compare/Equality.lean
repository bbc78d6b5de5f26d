/-
No positional difference means the same data.

A comparison of two collections finds nothing exactly when it finds nothing at any step,
and agreement of two collections is agreement at every step, so the two go down the
trees together.  One half holds of every way to compare: what holds the same data never
differs (`nodes_eq_nil_of_sameData`).  The other half is what index by index comparison
has and comparison up to order has not.

That a positional comparison has an empty outcome is therefore a relation that can be
read off the documents, and it inherits from there what the comparison by itself does not
show: that it is an equivalence, of documents and of whole streams.
-/
import YamlDelta.Compare.Result
import YamlDelta.Proofs.Compare.Recursion
import YamlDelta.Proofs.Node.Agreement

namespace YamlDelta

open Node (SameData)

namespace Compare

variable {deeper : Node → Node → List Difference} {l m r : Node}

/-! ### Nothing found -/

/-- Nothing is found exactly when both are missing, or both are there and do not differ. -/
theorem sides_eq_nil {a b : Option Node} :
    sides deeper a b = [] ↔ Option.Rel (fun x y => deeper x y = []) a b := by
  constructor
  · intro h
    cases a with
    | none =>
        cases b with
        | none => exact .none
        | some b => cases h
    | some a =>
        cases b with
        | none => cases h
        | some b => exact .some h
  · intro h
    cases h with
    | none => rfl
    | some h => exact h

theorem children_eq_nil (h : SameCollection l r) :
    children deeper l r = [] ↔
      ∀ s, Option.Rel (fun x y => deeper x y = []) (l.child? s) (r.child? s) := by
  rw [children, List.flatMap_eq_nil_iff]
  constructor
  · intro hsteps s
    by_cases hs : s ∈ steps l r
    · exact sides_eq_nil.mp (hsteps s hs)
    · -- nothing is compared at this step because it leads nowhere
      rw [mem_steps h, not_or, Option.not_isSome_iff_eq_none, Option.not_isSome_iff_eq_none] at hs
      rw [hs.1, hs.2]
      exact .none
  · intro hrel s _
    exact sides_eq_nil.mpr (hrel s)

/-! ### Agreement at every step -/

/-- Nodes that agree are collections of one kind or scalars of the same content. -/
theorem shape_of_agree {arranged : List Node → List Node → Prop} (h : Node.Agree arranged l r) :
    SameCollection l r ∨ sameScalar l r = true := by
  cases h with
  | scalar h => exact .inr (Scalar.sameContent_iff.mpr h)
  | mapping hkeys hvalues => exact .inl ⟨rfl, rfl⟩
  | sequence ps hl hr hitems => exact .inl ⟨rfl, rfl⟩

theorem sameData_of_sameScalar (h : sameScalar l r = true) : SameData l r := by
  cases l <;> cases r <;> simp only [sameScalar, reduceCtorEq] at h
  exact .scalar (Scalar.sameContent_iff.mp h)

/-- Collections of one kind hold the same data exactly when their children do. -/
theorem sameData_iff_children (h : SameCollection l r) :
    SameData l r ↔ ∀ s, Option.Rel SameData (l.child? s) (r.child? s) := by
  rcases sameCollection_cases h with ⟨ls, p, rs, q, rfl, rfl⟩ | ⟨ls, p, rs, q, rfl, rfl⟩
  · refine Node.agree_mapping_iff.trans ⟨fun hrel s => ?_, fun hrel k => hrel (.key k)⟩
    cases s with
    | key k => exact hrel k
    | index i => exact .none
  · refine Node.sameData_sequence_iff.trans ⟨fun hrel s => ?_, fun hrel i => hrel (.index i)⟩
    cases s with
    | key k => exact .none
    | index i => exact hrel i

theorem SameCollection.symm (h : SameCollection l r) : SameCollection r l :=
  ⟨h.1.symm, h.1 ▸ h.2⟩

theorem SameCollection.trans (h : SameCollection l m) (h' : SameCollection m r) :
    SameCollection l r :=
  ⟨h.1.trans h'.1, h.2⟩

theorem rel_imp {R S : Node → Node → Prop} {a b : Option Node} (h : Option.Rel R a b)
    (himp : ∀ x y, a = some x → R x y → S x y) : Option.Rel S a b := by
  cases h with
  | none => exact .none
  | some h => exact .some (himp _ _ rfl h)

private theorem rel_trans {R : Node → Node → Prop} {a b c : Option Node} (h : Option.Rel R a b)
    (h' : Option.Rel R b c)
    (htrans : ∀ x y z, a = some x → R x y → R y z → R x z) : Option.Rel R a c := by
  cases h with
  | none => exact h'
  | some h =>
      cases h' with
      | some h' => exact .some (htrans _ _ _ rfl h h')

theorem sameData_trans (h : SameData l m) (h' : SameData m r) : SameData l r := by
  induction l using Node.child_induct generalizing m r with
  | h l ih =>
      rcases shape_of_agree h with hlm | hlm
      · rcases shape_of_agree h' with hmr | hmr
        · rw [sameData_iff_children (hlm.trans hmr)]
          rw [sameData_iff_children hlm] at h
          rw [sameData_iff_children hmr] at h'
          exact fun s => rel_trans (h s) (h' s) fun x y z hx hxy hyz => ih s x hx hxy hyz
        · rw [sameScalar_of_isCollection (.inl (hlm.1 ▸ hlm.2))] at hmr
          cases hmr
      · cases h with
        | scalar hvw =>
            cases h' with
            | scalar hwx =>
                rw [← Scalar.sameContent_iff] at hvw hwx
                exact .scalar (Scalar.sameContent_iff.mp (Scalar.sameContent_trans hvw hwx))
        | mapping hkeys hvalues => cases hlm
        | sequence ps hl hr hitems => cases hlm

/-! ### The comparison -/

/-- Nodes that do not differ are collections of one kind or scalars of the same content. -/
theorem shape_of_nodes_eq_nil {options : CompareOptions} (h : nodes options l r = []) :
    SameCollection l r ∨ sameScalar l r = true := by
  by_cases hcoll : SameCollection l r
  · exact .inl hcoll
  · cases hscalar : sameScalar l r with
    | true => exact .inr rfl
    | false =>
        rw [nodes_of_apart hcoll hscalar] at h
        cases h

/-- The same data does not differ, whatever the options. -/
theorem nodes_eq_nil_of_sameData (options : CompareOptions) (h : SameData l r) :
    nodes options l r = [] := by
  induction l using Node.child_induct generalizing r with
  | h l ih =>
      rcases shape_of_agree h with hcoll | hscalar
      · have hchildren : children (nodes options) l r = [] := by
          rw [children_eq_nil hcoll]
          rw [sameData_iff_children hcoll] at h
          exact fun s => rel_imp (h s) fun x y hx hxy => ih s x hx hxy
        rw [nodes_of_sameCollection hcoll, settled, hchildren]
        split <;> rfl
      · exact nodes_of_sameScalar hscalar

/-- Mappings do not differ when at each key there is nothing on either side, or values that do not
differ. -/
theorem nodes_mapping_eq_nil {options : CompareOptions} {es fs : List (String × Node)}
    {p q : Place} :
    nodes options (.mapping es p) (.mapping fs q) = [] ↔
      ∀ k, Option.Rel (fun x y => nodes options x y = []) (Node.lookup k es)
        (Node.lookup k fs) := by
  have hcoll : SameCollection (.mapping es p) (.mapping fs q) := ⟨rfl, rfl⟩
  rw [nodes_of_sameCollection hcoll, settled, if_neg (by simp [Node.kind]),
    children_eq_nil hcoll]
  refine ⟨fun h k => h (.key k), fun h s => ?_⟩
  cases s with
  | key k => exact h k
  | index i => exact .none

theorem nodes_self (options : CompareOptions) (n : Node) : nodes options n n = [] :=
  nodes_eq_nil_of_sameData options (Node.Agree.refl (fun _ => rfl) n)

/-- Nothing is reported between the two nodes. -/
def silent (options : CompareOptions) (a b : Node) : Bool :=
  (nodes options a b).isEmpty

theorem silent_iff {options : CompareOptions} : silent options l r = true ↔ nodes options l r = [] :=
  List.isEmpty_iff

/-- Nodes that do not differ are a pair of equals, and nodes that differ as wholes are both
reported. -/
theorem accounted_nodes {options : CompareOptions}
    (h : nodes options l r = [] ∨ nodes options l r = [.modified l r]) :
    Accounted (silent options) [l] [r] (nodes options l r) := by
  rcases h with h | h
  · rw [h]
    exact ⟨[(l, r)], by simp [silent_iff, h], by simp, by simp⟩
  · rw [h]
    exact ⟨[], by simp, by simp [Difference.left?], by simp [Difference.right?]⟩

theorem sequences_unordered (ls rs : List Node) :
    sequences .unordered ls rs = cancel (silent .unordered) (items (nodes .unordered) ls rs) := rfl

/-- **No positional difference means the same data.** -/
theorem positional_eq_nil_iff : nodes .positional l r = [] ↔ SameData l r := by
  refine ⟨fun h => ?_, nodes_eq_nil_of_sameData .positional⟩
  induction l using Node.child_induct generalizing r with
  | h l ih =>
      rcases shape_of_nodes_eq_nil h with hcoll | hscalar
      · rw [nodes_of_sameCollection hcoll, settled, if_neg (by simp [CompareOptions.positional]),
          children_eq_nil hcoll] at h
        rw [sameData_iff_children hcoll]
        exact fun s => rel_imp (h s) fun x y hx hxy => ih s x hx hxy
      · exact sameData_of_sameScalar hscalar

theorem optional_positional_eq_nil_iff {a b : Option Node} :
    optional .positional a b = [] ↔ Option.Rel SameData a b := by
  rw [optional, sides_eq_nil]
  simp only [positional_eq_nil_iff]

end Compare

/-! ### Streams -/

theorem DocumentDiff.ofDifferences_eq_nil {ds : List Difference} :
    (DocumentDiff.ofDifferences ds).differences = [] ↔ ds = [] := by
  rw [DocumentDiff.ofDifferences, ← List.length_eq_zero_iff, Difference.length_sort,
    List.length_eq_zero_iff]

namespace StreamDiff

variable {l r : Stream}

/-- A stream differs nowhere exactly when no document does, those beyond the end included. -/
theorem hasDifferences_eq_false {options : CompareOptions} :
    (ofStreams options l r).hasDifferences = false ↔
      ∀ i, Compare.optional options (l.document i) (r.document i) = [] := by
  rw [hasDifferences, List.any_eq_false, ofStreams]
  simp only [List.mem_map, List.mem_range, Bool.not_eq_true, Bool.not_eq_false',
    List.isEmpty_iff, forall_exists_index, and_imp, forall_apply_eq_imp_iff₂,
    DocumentDiff.ofDifferences_eq_nil]
  refine ⟨fun h i => ?_, fun h i _ => h i⟩
  by_cases hi : i < max l.length r.length
  · exact h i hi
  · rw [Stream.document_eq_none_of_length_le (by omega),
      Stream.document_eq_none_of_length_le (by omega)]
    rfl

/-- Nothing differs exactly when every document holds the same data on both sides. -/
theorem hasDifferences_positional_eq_false :
    (ofStreams .positional l r).hasDifferences = false ↔
      ∀ i, Option.Rel SameData (l.document i) (r.document i) := by
  rw [hasDifferences_eq_false]
  exact forall_congr' fun i => Compare.optional_positional_eq_nil_iff

private theorem rel_refl (a : Option Node) : Option.Rel SameData a a := by
  cases a with
  | none => exact .none
  | some n => exact .some (Node.Agree.refl (fun _ => rfl) n)

private theorem rel_symm {a b : Option Node} (h : Option.Rel SameData a b) :
    Option.Rel SameData b a := by
  cases h with
  | none => exact .none
  | some h => exact .some h.symm

/-- **Streams without positional difference are streams of the same data.**  Document by document,
both are absent or both hold the same data; so it is an equivalence of streams. -/
theorem no_positional_differences_iff :
    (∀ l r : Stream, (ofStreams .positional l r).hasDifferences = false ↔
      ∀ i, Option.Rel SameData (l.document i) (r.document i)) ∧
    Equivalence fun l r : Stream => (ofStreams .positional l r).hasDifferences = false := by
  refine ⟨fun l r => hasDifferences_positional_eq_false, ?_, ?_, ?_⟩
  · intro s
    exact hasDifferences_positional_eq_false.mpr fun i => rel_refl _
  · intro l r h
    rw [hasDifferences_positional_eq_false] at h ⊢
    exact fun i => rel_symm (h i)
  · intro l m r h h'
    rw [hasDifferences_positional_eq_false] at h h' ⊢
    exact fun i => Compare.rel_trans (h i) (h' i) fun _ _ _ _ => Compare.sameData_trans

end StreamDiff

end YamlDelta
