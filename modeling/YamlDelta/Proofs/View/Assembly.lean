/-
Lines that are those of some node.

When are given lines the lines of some node that holds the same data as a given one?  For a
collection this is decided child by child.  The lines come as a row of pieces, one for each
step, and where there is a child its piece begins like an entry or an item.  If the whole is
written by a node with the same data, then its blocks are these pieces, because blocks are
taken apart in one way only; and pieces written by nodes with the data of the children can
be put together again.
-/
import Mathlib.Data.List.Forall2
import YamlDelta.Proofs.Compare.Equality
import YamlDelta.Proofs.View.Blocks
import YamlDelta.Proofs.View.Listing

namespace YamlDelta

open Node (SameData lookup)

namespace Node

theorem lookup_of_nodup {es : List (String × Node)} (h : (es.map Prod.fst).Nodup) {k : String}
    {n : Node} (hmem : (k, n) ∈ es) : lookup k es = some n := by
  induction es with
  | nil => cases hmem
  | cons e es ih =>
      obtain ⟨j, m⟩ := e
      rw [List.map_cons, List.nodup_cons] at h
      rw [lookup_cons]
      rcases List.mem_cons.mp hmem with heq | hmem
      · obtain ⟨rfl, rfl⟩ := Prod.mk.inj heq
        have hnone : lookup k es = none := by
          rw [← Option.not_isSome_iff_eq_none, isSome_lookup]
          exact h.1
        rw [hnone, Option.none_or, if_pos rfl]
      · rw [ih h.2 hmem, Option.some_or]

theorem lookup_map_key (ks : List String) (f : String → Node) (k : String) :
    lookup k (ks.map fun j => (j, f j)) = if k ∈ ks then some (f k) else none := by
  induction ks with
  | nil => rfl
  | cons j ks ih =>
      rw [List.map_cons, lookup_cons, ih]
      by_cases hk : k ∈ ks
      · simp [hk]
      · by_cases hj : j = k
        · subst hj
          simp [hk]
        · simp [hk, hj, Ne.symm hj]

end Node

namespace Emitter

theorem flatMap_filter_of_nil {α β : Type} {p : α → Bool} {f : α → List β} {as : List α}
    (h : ∀ a, p a = false → f a = []) : (as.filter p).flatMap f = as.flatMap f := by
  induction as with
  | nil => rfl
  | cons a as ih =>
      cases ha : p a with
      | true => rw [List.filter_cons_of_pos ha, List.flatMap_cons, List.flatMap_cons, ih]
      | false =>
          rw [List.filter_cons_of_neg (by simp [ha]), List.flatMap_cons, h a ha, ih,
            List.nil_append]

/-- Lists with the same images are matched as the images are. -/
theorem eq_map_of_map_eq {α β γ : Type} {f : α → γ} {g : β → γ} {h : β → α} {as : List α}
    {bs : List β} (hmap : as.map f = bs.map g)
    (hmatch : ∀ a ∈ as, ∀ b ∈ bs, f a = g b → a = h b) : as = bs.map h := by
  induction as generalizing bs with
  | nil =>
      cases bs with
      | nil => rfl
      | cons b bs => cases hmap
  | cons a as ih =>
      cases bs with
      | nil => cases hmap
      | cons b bs =>
          obtain ⟨hhead, htail⟩ := List.cons.inj hmap
          rw [List.map_cons, ← hmatch a (List.mem_cons_self ..) b (List.mem_cons_self ..) hhead,
            ← ih htail fun a ha b hb =>
              hmatch a (List.mem_cons_of_mem _ ha) b (List.mem_cons_of_mem _ hb)]

theorem nodeLines_mapping {es : List (String × Node)} (h : es ≠ []) (place : Place) :
    nodeLines .plain (.mapping es place) = es.flatMap fun e => entryLines .plain e.1 e.2 := by
  rw [nodeLines, if_neg (by simpa using h), entriesLines_eq_flatMap]

theorem nodeLines_sequence {is : List Node} (h : is ≠ []) (place : Place) :
    nodeLines .plain (.sequence is place) = is.flatMap (itemLines .plain) := by
  rw [nodeLines, if_neg (by simpa using h), itemsLines_eq_flatMap]

/-! ### Mappings -/

section Mapping

variable {es : List (String × Node)} {place : Place} {keys : List String}
  {piece : String → List String}

/-- Nodes with the data of the values make a node with the data of the mapping. -/
theorem exists_mapping_of_entries (hne : es ≠ [])
    (hall : ∀ k, k ∈ keys ↔ (lookup k es).isSome = true)
    (hpieces : ∀ k c, lookup k es = some c →
      ∃ c', SameData c' c ∧ piece k = entryLines .plain k c') :
    ∃ t, SameData t (.mapping es place) ∧ keys.flatMap piece = nodeLines .plain t := by
  have hvalues : ∀ k, ∃ c', ∀ c, lookup k es = some c →
      SameData c' c ∧ piece k = entryLines .plain k c' := by
    intro k
    cases hk : lookup k es with
    | none => exact ⟨default, nofun⟩
    | some c =>
        obtain ⟨c', hc'⟩ := hpieces k c hk
        exact ⟨c', fun _ h => Option.some.inj h ▸ hc'⟩
  choose value hvalue using hvalues
  refine ⟨.mapping (keys.map fun k => (k, value k)) place, ?_, ?_⟩
  · refine Node.agree_mapping_iff.mpr fun k => ?_
    rw [Node.lookup_map_key]
    cases hk : lookup k es with
    | none =>
        rw [if_neg (by rw [hall, hk]; exact Bool.false_ne_true)]
        exact .none
    | some c =>
        rw [if_pos (by rw [hall, hk]; rfl)]
        exact .some (hvalue k c hk).1
  · have hkeys : keys ≠ [] := by
      obtain ⟨e, es', rfl⟩ := List.exists_cons_of_ne_nil hne
      have hmem : e.1 ∈ keys := (hall e.1).mpr (Node.isSome_lookup.mpr (List.mem_cons_self ..))
      exact List.ne_nil_of_mem hmem
    rw [nodeLines_mapping (by simpa using hkeys), List.flatMap_map]
    refine List.flatMap_congr fun k hk => ?_
    obtain ⟨c, hc⟩ := Option.isSome_iff_exists.mp ((hall k).mp hk)
    exact (hvalue k c hc).2

/-- A node with the data of the mapping is written by nodes with the data of the values. -/
theorem exists_entries_of_mapping {t : Node} (hkeys : keys.Nodup)
    (hall : ∀ k, k ∈ keys ↔ (lookup k es).isSome = true)
    (hpieces : ∀ k ∈ keys, HeadedBy k (piece k)) (hdata : SameData t (.mapping es place))
    (hlines : keys.flatMap piece = nodeLines .plain t) :
    es ≠ [] ∧ ∀ k c, lookup k es = some c →
      ∃ c', SameData c' c ∧ piece k = entryLines .plain k c' := by
  obtain ⟨fs, q, rfl⟩ : ∃ fs q, t = .mapping fs q := by
    cases hdata with
    | mapping _ _ => exact ⟨_, _, rfl⟩
  have hvalues := Node.agree_mapping_iff.mp hdata
  have hes : es ≠ [] := by
    rintro rfl
    have hnil : keys = [] :=
      List.eq_nil_iff_forall_not_mem.mpr fun k hk => by simp [lookup] at hall; exact hall k hk
    rw [hnil, List.flatMap_nil] at hlines
    exact nodeLines_ne_nil .plain _ hlines.symm
  refine ⟨hes, fun k c hc => ?_⟩
  have hfs : fs ≠ [] := by
    rintro rfl
    have hk := hvalues k
    rw [hc] at hk
    cases hk
  rw [nodeLines_mapping hfs, List.flatMap_def, List.flatMap_def] at hlines
  have hblocks : keys.map piece = fs.map fun e => entryLines .plain e.1 e.2 := by
    refine flatten_headed_inj (fun b hb => ?_) (fun b hb => ?_) hlines
    · obtain ⟨j, hj, rfl⟩ := List.mem_map.mp hb
      exact (hpieces j hj).1
    · obtain ⟨e, -, rfl⟩ := List.mem_map.mp hb
      exact (headedBy_entryLines e.1 e.2).1
  have hfst : keys = fs.map Prod.fst := eq_map_of_map_eq hblocks fun j hj e _ heq =>
    (hpieces j hj).inj (heq ▸ headedBy_entryLines e.1 e.2)
  obtain ⟨e, he, rfl⟩ := List.mem_map.mp (hfst ▸ (hall k).mpr (by rw [hc]; rfl))
  have hlookup : lookup e.1 fs = some e.2 := Node.lookup_of_nodup (hfst ▸ hkeys) he
  have hk := hvalues e.1
  rw [hlookup, hc] at hk
  rw [hfst, List.map_map] at hblocks
  cases hk with
  | some hk => exact ⟨e.2, hk, List.map_inj_left.mp hblocks e he⟩

end Mapping

/-! ### Sequences -/

section Sequence

variable {is : List Node} {place : Place} {piece : Nat → List String}

/-- Nodes with the data of the items make a node with the data of the sequence. -/
theorem exists_sequence_of_items (hne : is ≠ [])
    (hpieces : ∀ i c, is[i]? = some c → ∃ c', SameData c' c ∧ piece i = itemLines .plain c') :
    ∃ t, SameData t (.sequence is place) ∧
      (List.range is.length).flatMap piece = nodeLines .plain t := by
  have hitems : ∀ i, ∃ c', ∀ c, is[i]? = some c →
      SameData c' c ∧ piece i = itemLines .plain c' := by
    intro i
    cases hi : is[i]? with
    | none => exact ⟨default, nofun⟩
    | some c =>
        obtain ⟨c', hc'⟩ := hpieces i c hi
        exact ⟨c', fun _ h => Option.some.inj h ▸ hc'⟩
  choose item hitem using hitems
  refine ⟨.sequence ((List.range is.length).map item) place, ?_, ?_⟩
  · refine Node.sameData_sequence_iff.mpr fun i => ?_
    rw [List.getElem?_map]
    by_cases hi : i < is.length
    · rw [List.getElem?_range hi, List.getElem?_eq_getElem hi]
      exact .some (hitem i _ (List.getElem?_eq_getElem hi)).1
    · rw [List.getElem?_eq_none (by simpa using hi), List.getElem?_eq_none (by omega)]
      exact .none
  · have hrange : (List.range is.length).map item ≠ [] := by simpa using hne
    rw [nodeLines_sequence hrange, List.flatMap_map]
    refine List.flatMap_congr fun i hi => ?_
    exact (hitem i _ (List.getElem?_eq_getElem (List.mem_range.mp hi))).2

/-- As many in all as there are lists, and at most one in each, is one in each. -/
theorem countP_eq_one_of_length_le {α β : Type} {f : α → List β} {p : β → Bool} {as : List α}
    (hle : ∀ a ∈ as, (f a).countP p ≤ 1) (hlength : as.length ≤ (as.flatMap f).countP p) :
    ∀ a ∈ as, (f a).countP p = 1 := by
  have hbound : ∀ bs : List α, (∀ b ∈ bs, (f b).countP p ≤ 1) →
      (bs.flatMap f).countP p ≤ bs.length := by
    intro bs hbs
    induction bs with
    | nil => exact Nat.le_refl _
    | cons b bs ih =>
        rw [List.forall_mem_cons] at hbs
        have hrest := ih hbs.2
        rw [List.flatMap_cons, List.countP_append, List.length_cons]
        omega
  induction as with
  | nil => exact List.forall_mem_nil _
  | cons a as ih =>
      rw [List.forall_mem_cons] at hle
      have hrest := hbound as hle.2
      rw [List.flatMap_cons, List.countP_append, List.length_cons] at hlength
      exact List.forall_mem_cons.mpr ⟨by omega, ih hle.2 (by omega)⟩

theorem countP_isHead_itemsLines (js : List Node) :
    (js.flatMap (itemLines .plain)).countP isHead = js.length := by
  induction js with
  | nil => rfl
  | cons n js ih =>
      rw [List.flatMap_cons, List.countP_append, ih, (headed_itemLines n).countP,
        List.length_cons, Nat.add_comm]

/-- A node with the data of the sequence is written by nodes with the data of the items.  A piece
that has lost its first line would leave fewer heads than there are items. -/
theorem exists_items_of_sequence {t : Node}
    (hpieces : ∀ i, Headed (piece i) ∨ ∀ l ∈ piece i, isHead l = false)
    (hdata : SameData t (.sequence is place))
    (hlines : (List.range is.length).flatMap piece = nodeLines .plain t) :
    is ≠ [] ∧ ∀ i c, is[i]? = some c → ∃ c', SameData c' c ∧ piece i = itemLines .plain c' := by
  obtain ⟨js, q, rfl⟩ : ∃ js q, t = .sequence js q := by
    cases hdata with
    | sequence _ _ _ _ => exact ⟨_, _, rfl⟩
  have hitems := Node.sameData_sequence_iff.mp hdata
  have hlength : js.length = is.length := by
    cases hdata with
    | sequence ps hl hr _ => rw [hl, hr, List.length_map, List.length_map]
  have his : is ≠ [] := by
    rintro rfl
    exact nodeLines_ne_nil .plain _ hlines.symm
  have hjs : js ≠ [] := by
    rintro rfl
    exact his (List.eq_nil_of_length_eq_zero hlength.symm)
  refine ⟨his, fun i c hc => ?_⟩
  rw [nodeLines_sequence hjs] at hlines
  have hone : ∀ i ∈ List.range is.length, (piece i).countP isHead = 1 := by
    refine countP_eq_one_of_length_le (fun i _ => ?_) ?_
    · rcases hpieces i with h | h
      · exact Nat.le_of_eq h.countP
      · rw [List.countP_eq_zero.mpr fun l hl => by simp [h l hl]]
        exact Nat.zero_le 1
    · rw [hlines, countP_isHead_itemsLines, List.length_range, hlength]
  have hblocks : (List.range is.length).map piece = js.map (itemLines .plain) := by
    rw [List.flatMap_def, List.flatMap_def] at hlines
    refine flatten_headed_inj (fun b hb => ?_) (fun b hb => ?_) hlines
    · obtain ⟨i, hi, rfl⟩ := List.mem_map.mp hb
      rcases hpieces i with h | h
      · exact h
      · have hcount := hone i hi
        rw [List.countP_eq_zero.mpr fun l hl => by simp [h l hl]] at hcount
        cases hcount
    · obtain ⟨n, -, rfl⟩ := List.mem_map.mp hb
      exact headed_itemLines n
  have hi : i < is.length := (List.getElem?_eq_some_iff.mp hc).1
  have hitem := hitems i
  have hpiece := congrArg (·[i]?) hblocks
  rw [hc, List.getElem?_eq_getElem (by omega : i < js.length)] at hitem
  simp only [List.getElem?_map, List.getElem?_range hi, Option.map_some,
    List.getElem?_eq_getElem (by omega : i < js.length), Option.some.injEq] at hpiece
  cases hitem with
  | some hdata => exact ⟨_, hdata, hpiece⟩

end Sequence

end Emitter

namespace Unified

open Compare Emitter

/-! ### Nodes with the same data -/

theorem sameData_refl (n : Node) : SameData n n :=
  Node.Agree.refl (fun _ => rfl) n

theorem sameCollection_of_sameData {m n : Node} (h : SameData m n)
    (hn : n.kind.isCollection = true) : SameCollection m n := by
  rcases shape_of_agree h with hcoll | hscalar
  · exact hcoll
  · rw [sameScalar_of_isCollection (.inr hn)] at hscalar
    cases hscalar

theorem isBlock_of_sameData {m n : Node} (h : SameData m n) (hn : isBlock n = true) :
    isBlock m = true := by
  obtain ⟨s, hs⟩ := isBlock_iff_child.mp hn
  have hcoll := sameCollection_of_sameData h (isCollection_of_isBlock hn)
  refine isBlock_iff_child.mpr ⟨s, ?_⟩
  have hrel := (sameData_iff_children hcoll).mp h s
  cases hm : m.child? s with
  | some c => rfl
  | none =>
      rw [hm] at hrel
      cases hn' : n.child? s with
      | none => simp [hn'] at hs
      | some c =>
          rw [hn'] at hrel
          cases hrel

/-! ### Collections -/

theorem flatMap_range_of_nil {α : Type} {f : Nat → List α} {n m : Nat} (hle : n ≤ m)
    (h : ∀ i, n ≤ i → f i = []) : (List.range m).flatMap f = (List.range n).flatMap f := by
  obtain ⟨k, rfl⟩ := Nat.exists_eq_add_of_le hle
  induction k with
  | zero => rfl
  | succ k ih =>
      rw [← Nat.add_assoc, List.range_succ, List.flatMap_append, ih (Nat.le_add_right ..),
        List.flatMap_singleton, h _ (Nat.le_add_right ..), List.append_nil]

section Collection

variable {piece : Step → List String} {place : Place}

/-- Of the steps into a mapping those that lead nowhere have no lines. -/
theorem lines_iff_entries {es : List (String × Node)} {all : List String}
    (hnodup : (all.map Step.key).Nodup) (hall : ∀ k, (lookup k es).isSome = true → k ∈ all)
    (hnone : ∀ k, lookup k es = none → piece (.key k) = [])
    (hkey : ∀ k, (lookup k es).isSome = true → HeadedBy k (piece (.key k))) :
    (∃ t, SameData t (.mapping es place) ∧
        (all.map Step.key).flatMap piece = nodeLines .plain t) ↔
      isBlock (.mapping es place) = true ∧ ∀ s c, (Node.mapping es place).child? s = some c →
        ∃ c', SameData c' c ∧ piece s = writer (some s) c' := by
  have hkeys : ∀ k, k ∈ all.filter (fun k => (lookup k es).isSome) ↔
      (lookup k es).isSome = true := by
    intro k
    rw [List.mem_filter]
    exact ⟨fun h => h.2, fun h => ⟨hall k h, h⟩⟩
  have hlines : (all.map Step.key).flatMap piece =
      (all.filter fun k => (lookup k es).isSome).flatMap fun k => piece (.key k) := by
    rw [List.flatMap_map, flatMap_filter_of_nil fun k hk => hnone k (by simpa using hk)]
  rw [hlines]
  constructor
  · rintro ⟨t, hdata, hlines⟩
    obtain ⟨hes, hpieces⟩ := exists_entries_of_mapping ((hnodup.of_map _).filter _) hkeys
      (fun k hk => hkey k ((hkeys k).mp hk)) hdata hlines
    refine ⟨by simpa [isBlock] using hes, fun s c hc => ?_⟩
    cases s with
    | key k => exact hpieces k c hc
    | index i => cases hc
  · rintro ⟨hblock, hpieces⟩
    exact exists_mapping_of_entries (by simpa [isBlock] using hblock) hkeys
      fun k c hc => hpieces (.key k) c hc

/-- Of the steps into a sequence those beyond its end have no lines. -/
theorem lines_iff_items {is : List Node} {m : Nat} (hle : is.length ≤ m)
    (hnone : ∀ i, is.length ≤ i → piece (.index i) = [])
    (hindex : ∀ i, Headed (piece (.index i)) ∨ ∀ l ∈ piece (.index i), isHead l = false) :
    (∃ t, SameData t (.sequence is place) ∧
        ((List.range m).map Step.index).flatMap piece = nodeLines .plain t) ↔
      isBlock (.sequence is place) = true ∧ ∀ s c, (Node.sequence is place).child? s = some c →
        ∃ c', SameData c' c ∧ piece s = writer (some s) c' := by
  rw [List.flatMap_map, flatMap_range_of_nil hle hnone]
  constructor
  · rintro ⟨t, hdata, hlines⟩
    obtain ⟨his, hpieces⟩ := exists_items_of_sequence hindex hdata hlines
    refine ⟨by simpa [isBlock] using his, fun s c hc => ?_⟩
    cases s with
    | key k => cases hc
    | index i => exact hpieces i c hc
  · rintro ⟨hblock, hpieces⟩
    exact exists_sequence_of_items (by simpa [isBlock] using hblock)
      fun i c hc => hpieces (.index i) c hc

/-- **Lines of a collection are put together from the lines of its children.**  The collection is
one of two that are walked together, and where it has no child there are no lines. -/
theorem lines_iff_children {l r n : Node} (hcoll : SameCollection l r) (hn : n = l ∨ n = r)
    (hnone : ∀ s, n.child? s = none → piece s = [])
    (hkey : ∀ k, (n.child? (.key k)).isSome = true → HeadedBy k (piece (.key k)))
    (hindex : ∀ i, Headed (piece (.index i)) ∨ ∀ l ∈ piece (.index i), isHead l = false) :
    (∃ t, SameData t n ∧ (steps l r).flatMap piece = nodeLines .plain t) ↔
      isBlock n = true ∧ ∀ s c, n.child? s = some c →
        ∃ c', SameData c' c ∧ piece s = writer (some s) c' := by
  have hsteps : ∀ s, (n.child? s).isSome = true → s ∈ steps l r := by
    intro s hs
    rw [mem_steps hcoll]
    rcases hn with rfl | rfl
    · exact .inl hs
    · exact .inr hs
  have hnodup := nodup_steps l r
  rcases sameCollection_cases hcoll with ⟨ls, p, rs, q, rfl, rfl⟩ | ⟨ls, p, rs, q, rfl, rfl⟩
  · obtain ⟨es, place, rfl⟩ : ∃ es place, n = .mapping es place := by
      rcases hn with rfl | rfl <;> exact ⟨_, _, rfl⟩
    obtain ⟨all, hall⟩ : ∃ all : List String, steps (.mapping ls p) (.mapping rs q) =
        all.map .key := ⟨_, rfl⟩
    rw [hall] at hsteps hnodup ⊢
    have hmem : ∀ k, (lookup k es).isSome = true → k ∈ all := by
      intro k hk
      simpa using hsteps (.key k) hk
    exact lines_iff_entries hnodup hmem (fun k => hnone (.key k)) hkey
  · obtain ⟨is, place, rfl⟩ : ∃ is place, n = .sequence is place := by
      rcases hn with rfl | rfl <;> exact ⟨_, _, rfl⟩
    have hle : is.length ≤ max ls.length rs.length := by
      rcases hn with h | h <;> cases h <;> omega
    have hbeyond : ∀ i, is.length ≤ i → piece (.index i) = [] :=
      fun i hi => hnone (.index i) (List.getElem?_eq_none hi)
    exact lines_iff_items hle hbeyond hindex

end Collection

end Unified

end YamlDelta
