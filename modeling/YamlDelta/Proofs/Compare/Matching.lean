/-
Which sides cancel, place by place.

That cancelled sides go in pairs of equals does not say which ones go.  Here the pairs are
given by their places: a matching is a list of pairs of numbers, the place of a left side
and the place of the right side it is cleared with.  The left sides come one after the
other, and each takes the first right side that equals it and that none before it has
taken.  So a left side stays only if all its equals were taken by left sides before it,
and it has none among the right sides that stay.

The equality is again any relation.  Nothing below asks it to be symmetric or transitive.
-/
import YamlDelta.Proofs.Compare.Equality

namespace YamlDelta.Compare

/-! ### Clearing places -/

/-- The side at a place, if there is one. -/
def side? (ns : List (Option Node)) (i : Nat) : Option Node :=
  ns[i]?.join

/-- The sides when those at some places are cleared. -/
def clearAt (places : List Nat) (ns : List (Option Node)) : List (Option Node) :=
  ns.mapIdx fun i n => if i ∈ places then none else n

@[simp] theorem side?_nil (i : Nat) : side? [] i = none := rfl

@[simp] theorem side?_cons_zero (n : Option Node) (ns : List (Option Node)) :
    side? (n :: ns) 0 = n := rfl

@[simp] theorem side?_cons_succ (n : Option Node) (ns : List (Option Node)) (i : Nat) :
    side? (n :: ns) (i + 1) = side? ns i := rfl

theorem mem_reduceOption_of_side? {ns : List (Option Node)} {i : Nat} {n : Node}
    (h : side? ns i = some n) : n ∈ ns.reduceOption := by
  rw [List.reduceOption_mem_iff]
  exact List.mem_of_getElem? (Option.join_eq_some_iff.mp h)

@[simp] theorem clearAt_nil_left (ns : List (Option Node)) : clearAt [] ns = ns :=
  List.ext_getElem (by simp [clearAt]) (by simp [clearAt])

@[simp] theorem clearAt_nil_right (places : List Nat) : clearAt places [] = [] := rfl

theorem clearAt_cons (places : List Nat) (n : Option Node) (ns : List (Option Node)) :
    clearAt (places.map (· + 1)) (n :: ns) = n :: clearAt places ns := by
  simp [clearAt, List.mapIdx_cons]

theorem clearAt_cons_zero (places : List Nat) (n : Option Node) (ns : List (Option Node)) :
    clearAt (0 :: places.map (· + 1)) (n :: ns) = none :: clearAt places ns := by
  simp [clearAt, List.mapIdx_cons]

theorem clearAt_clearAt (j : Nat) (places : List Nat) (ns : List (Option Node)) :
    clearAt places (clearAt [j] ns) = clearAt (j :: places) ns := by
  rw [clearAt, clearAt, List.mapIdx_mapIdx, clearAt]
  refine congrArg (List.mapIdx · ns) ?_
  funext i n
  by_cases hi : i = j <;> simp [hi]

theorem side?_clearAt (j i : Nat) (ns : List (Option Node)) :
    side? (clearAt [j] ns) i = if i = j then none else side? ns i := by
  rw [side?, clearAt, List.getElem?_mapIdx, side?]
  cases ns[i]? with
  | none => simp
  | some n => by_cases hi : i = j <;> simp [hi]

/-- The first that has a property is cleared at its place. -/
theorem exists_place_of_clearFirst {p : Node → Bool} {ns ms : List (Option Node)}
    (h : clearFirst p ns = some ms) :
    ∃ j n, side? ns j = some n ∧ p n = true ∧ ms = clearAt [j] ns ∧
      ∀ k < j, ∀ m, side? ns k = some m → p m = false := by
  induction ns generalizing ms with
  | nil => cases h
  | cons n ns ih =>
      have hlater : ∀ ms', clearFirst p ns = some ms' → (∀ m, n = some m → p m = false) →
          ∃ j m, side? (n :: ns) j = some m ∧ p m = true ∧ n :: ms' = clearAt [j] (n :: ns) ∧
            ∀ k < j, ∀ x, side? (n :: ns) k = some x → p x = false := by
        intro ms' hms hn
        obtain ⟨j, m, hj, hm, rfl, hbefore⟩ := ih hms
        refine ⟨j + 1, m, hj, hm, (clearAt_cons [j] n ns).symm, fun k hk x hx => ?_⟩
        cases k with
        | zero => exact hn x hx
        | succ k => exact hbefore k (Nat.lt_of_succ_lt_succ hk) x hx
      cases n with
      | none =>
          obtain ⟨ms', hms, rfl⟩ := Option.map_eq_some_iff.mp h
          exact hlater ms' hms (by simp)
      | some n =>
          unfold clearFirst at h
          split at h
          · rename_i hn
            cases h
            exact ⟨0, n, rfl, hn, by simpa using (clearAt_cons_zero [] (some n) ns).symm, by simp⟩
          · rename_i hn
            obtain ⟨ms', hms, rfl⟩ := Option.map_eq_some_iff.mp h
            exact hlater ms' hms (by simpa using hn)

/-! ### The matching -/

/-- No left side before the place `i` is matched with the right side at `j`. -/
def Live (m : List (Nat × Nat)) (i j : Nat) : Prop :=
  ∀ x ∈ m, x.2 = j → i ≤ x.1

/-- Places of left and right sides that cancel each other when the left sides choose in order. -/
structure Matching (R : Node → Node → Prop) (left right : Nat → Option Node)
    (m : List (Nat × Nat)) : Prop where
  /-- No left side is cleared twice. -/
  nodup_left : (m.map Prod.fst).Nodup
  /-- No right side is cleared twice. -/
  nodup_right : (m.map Prod.snd).Nodup
  /-- What is cleared together is equal. -/
  related : ∀ x ∈ m, ∃ a b, left x.1 = some a ∧ right x.2 = some b ∧ R a b
  /-- A left side that has an equal among the right sides still there takes it or one before it. -/
  first : ∀ i j a b, left i = some a → right j = some b → R a b → Live m i j →
    ∃ k ≤ j, (i, k) ∈ m

/-- The pairs seen from one place further left. -/
def shifted (m : List (Nat × Nat)) : List (Nat × Nat) :=
  m.map fun x => (x.1 + 1, x.2)

theorem map_fst_shifted (m : List (Nat × Nat)) :
    (shifted m).map Prod.fst = (m.map Prod.fst).map (· + 1) := by
  simp [shifted, Function.comp_def]

theorem map_snd_shifted (m : List (Nat × Nat)) :
    (shifted m).map Prod.snd = m.map Prod.snd := by
  simp [shifted, Function.comp_def]

theorem mem_shifted {m : List (Nat × Nat)} {i j : Nat} :
    (i, j) ∈ shifted m ↔ ∃ k, i = k + 1 ∧ (k, j) ∈ m := by
  simp only [shifted, List.mem_map, Prod.mk.injEq, Prod.exists]
  constructor
  · rintro ⟨k, j, hmem, rfl, rfl⟩
    exact ⟨k, rfl, hmem⟩
  · rintro ⟨k, rfl, hmem⟩
    exact ⟨k, j, hmem, rfl, rfl⟩

theorem live_shifted {m : List (Nat × Nat)} {i j : Nat} (h : Live (shifted m) (i + 1) j) :
    Live m i j := by
  rintro ⟨k, j'⟩ hmem rfl
  exact Nat.le_of_succ_le_succ (h (k + 1, j') (mem_shifted.mpr ⟨k, rfl, hmem⟩) rfl)

variable {R : Node → Node → Prop} {m : List (Nat × Nat)} {n : Option Node}
  {ls rs : List (Option Node)}

/-- A left side that takes nothing comes first. -/
theorem Matching.cons (h : Matching R (side? ls) (side? rs) m)
    (hn : ∀ a j b, n = some a → side? rs j = some b → ¬R a b) :
    Matching R (side? (n :: ls)) (side? rs) (shifted m) := by
  constructor
  · rw [map_fst_shifted]
    exact h.nodup_left.map fun _ _ => Nat.succ.inj
  · rw [map_snd_shifted]
    exact h.nodup_right
  · rintro ⟨i, j⟩ hmem
    obtain ⟨k, rfl, hk⟩ := mem_shifted.mp hmem
    exact h.related (k, j) hk
  · intro i j a b hl hr hab hlive
    cases i with
    | zero => exact absurd hab (hn a j b hl hr)
    | succ i =>
        obtain ⟨k, hk, hmem⟩ := h.first i j a b hl hr hab (live_shifted hlive)
        exact ⟨k, hk, mem_shifted.mpr ⟨i, rfl, hmem⟩⟩

/-- A left side that takes the first of its equals comes first. -/
theorem Matching.cons_taking {l r : Node} {j : Nat}
    (h : Matching R (side? ls) (side? (clearAt [j] rs)) m) (hj : side? rs j = some r)
    (hlr : R l r) (hbefore : ∀ k < j, ∀ b, side? rs k = some b → ¬R l b) :
    Matching R (side? (some l :: ls)) (side? rs) ((0, j) :: shifted m) := by
  have hright : ∀ k b, side? (clearAt [j] rs) k = some b → k ≠ j ∧ side? rs k = some b := by
    intro k b hk
    rw [side?_clearAt] at hk
    by_cases hkj : k = j
    · rw [if_pos hkj] at hk
      cases hk
    · rw [if_neg hkj] at hk
      exact ⟨hkj, hk⟩
  constructor
  · rw [List.map_cons, map_fst_shifted, List.nodup_cons]
    refine ⟨?_, h.nodup_left.map fun _ _ => Nat.succ.inj⟩
    simp
  · rw [List.map_cons, map_snd_shifted, List.nodup_cons]
    refine ⟨fun hmem => ?_, h.nodup_right⟩
    obtain ⟨x, hx, hxj⟩ := List.mem_map.mp hmem
    obtain ⟨a, b, -, hb, -⟩ := h.related x hx
    exact (hright _ _ hb).1 hxj
  · rintro ⟨i, k⟩ hmem
    rcases List.mem_cons.mp hmem with heq | hmem
    · cases heq
      exact ⟨l, r, rfl, hj, hlr⟩
    · obtain ⟨i, rfl, hi⟩ := mem_shifted.mp hmem
      obtain ⟨a, b, ha, hb, hab⟩ := h.related (i, k) hi
      exact ⟨a, b, ha, (hright _ _ hb).2, hab⟩
  · intro i k a b hl hr hab hlive
    cases i with
    | zero =>
        cases hl
        refine ⟨j, Nat.le_of_not_lt fun hk => hbefore k hk b hr hab, ?_⟩
        exact List.mem_cons_self ..
    | succ i =>
        -- what the first left side has taken is not there any more
        have hkj : k ≠ j := fun hkj =>
          absurd (hlive (0, j) (List.mem_cons_self ..) hkj.symm) (Nat.not_succ_le_zero i)
        have hlive' : Live (shifted m) (i + 1) k := fun x hx => hlive x (List.mem_cons_of_mem _ hx)
        obtain ⟨k', hk', hmem⟩ := h.first i k a b hl (by rw [side?_clearAt, if_neg hkj, hr]) hab
          (live_shifted hlive')
        exact ⟨k', hk', List.mem_cons_of_mem _ (mem_shifted.mpr ⟨i, rfl, hmem⟩)⟩

/-- **Pairing off clears the places of a matching.**  By induction on the left sides: the first one
makes its choice, and the others choose from what it leaves. -/
theorem exists_matching_pairOff (equal : Node → Node → Bool) (ls rs : List (Option Node)) :
    ∃ m, Matching (fun a b => equal a b = true) (side? ls) (side? rs) m ∧
      pairOff equal ls rs = (clearAt (m.map Prod.fst) ls, clearAt (m.map Prod.snd) rs) := by
  induction ls generalizing rs with
  | nil => exact ⟨[], ⟨by simp, by simp, by simp, by simp⟩, by simp [pairOff]⟩
  | cons l ls ih =>
      cases l with
      | none =>
          obtain ⟨m, hm, heq⟩ := ih rs
          refine ⟨shifted m, hm.cons (by simp), ?_⟩
          rw [map_fst_shifted, map_snd_shifted, clearAt_cons, pairOff, heq]
      | some l =>
          cases hc : clearFirst (equal l) rs with
          | none =>
              obtain ⟨m, hm, heq⟩ := ih rs
              refine ⟨shifted m, hm.cons fun a j b ha hb => ?_, ?_⟩
              · cases ha
                simp [clearFirst_eq_none hc b (mem_reduceOption_of_side? hb)]
              · rw [map_fst_shifted, map_snd_shifted, clearAt_cons]
                simp only [pairOff, hc, heq]
          | some rs' =>
              obtain ⟨j, r, hj, hlr, rfl, hbefore⟩ := exists_place_of_clearFirst hc
              obtain ⟨m, hm, heq⟩ := ih (clearAt [j] rs)
              refine ⟨(0, j) :: shifted m, hm.cons_taking hj hlr fun k hk b hb => ?_, ?_⟩
              · simp [hbefore k hk b hb]
              · rw [List.map_cons, List.map_cons, map_fst_shifted, map_snd_shifted,
                  clearAt_cons_zero, ← clearAt_clearAt]
                simp only [pairOff, hc, heq]

/-! ### What is left of differences -/

/-- The left side of the difference at a place. -/
def leftAt? (ds : List Difference) (i : Nat) : Option Node :=
  ds[i]?.bind (·.left?)

/-- The right side of the difference at a place. -/
def rightAt? (ds : List Difference) (i : Nat) : Option Node :=
  ds[i]?.bind (·.right?)

/-- What is left of differences when left sides and right sides at some places are cleared and what
has no side is dropped. -/
def remainder (m : List (Nat × Nat)) (ds : List Difference) : List Difference :=
  (ds.mapIdx fun i d =>
    Difference.ofSides? (if i ∈ m.map Prod.fst then none else d.left?)
      (if i ∈ m.map Prod.snd then none else d.right?)).reduceOption

theorem side?_map (f : Difference → Option Node) (ds : List Difference) :
    side? (ds.map f) = fun i => ds[i]?.bind f := by
  funext i
  rw [side?, List.getElem?_map]
  cases ds[i]? <;> rfl

/-- Sides that are changed place by place make differences place by place. -/
theorem filterMap_zip_mapIdx (f g : Nat → Option Node → Option Node) (ds : List Difference) :
    (((ds.map (·.left?)).mapIdx f).zip ((ds.map (·.right?)).mapIdx g)).filterMap
        (fun x => Difference.ofSides? x.1 x.2) =
      (ds.mapIdx fun i d => Difference.ofSides? (f i d.left?) (g i d.right?)).reduceOption := by
  have hsides : (((ds.map (·.left?)).mapIdx f).zip ((ds.map (·.right?)).mapIdx g)).map
      (fun x => Difference.ofSides? x.1 x.2) =
        ds.mapIdx fun i d => Difference.ofSides? (f i d.left?) (g i d.right?) :=
    List.ext_getElem (by simp) (by simp)
  rw [← hsides, List.reduceOption, List.filterMap_map]
  rfl

/-- **Cancelling leaves what a matching does not clear.** -/
theorem exists_matching_cancel (equal : Node → Node → Bool) (ds : List Difference) :
    ∃ m, Matching (fun a b => equal a b = true) (leftAt? ds) (rightAt? ds) m ∧
      cancel equal ds = remainder m ds := by
  obtain ⟨m, hm, heq⟩ :=
    exists_matching_pairOff equal (ds.map (·.left?)) (ds.map (·.right?))
  rw [side?_map, side?_map] at hm
  refine ⟨m, hm, ?_⟩
  rw [cancel, heq]
  exact filterMap_zip_mapIdx _ _ ds

/-! ### Two sequences -/

/-- The differences between two sequences, index by index, before any of them cancel. -/
def indexwise (options : CompareOptions) (ls rs : List Node) : List Difference :=
  (List.range (max ls.length rs.length)).flatMap fun i => optional options ls[i]? rs[i]?

theorem indexwise_eq_items (options : CompareOptions) (ls rs : List Node) :
    indexwise options ls rs = items (nodes options) ls rs :=
  (items_eq_flatMap _ ls rs).symm

theorem sequences_eq_cancel_indexwise (ls rs : List Node) :
    sequences .unordered ls rs = cancel (silent .unordered) (indexwise .unordered ls rs) := by
  rw [indexwise_eq_items, sequences_unordered]

/-- **Ignoring order clears a maximal matching of equal sides.**  Of the differences found index by
index, left sides are cleared together with right sides, one to one, and each left side with the
first of its equals that is still there; the rest stays where it stands, and no left side that stays
equals a right side that stays. -/
theorem unordered_clears_matching (ls rs : List Node) :
    ∃ m, Matching (fun a b => nodes .unordered a b = [])
        (leftAt? (indexwise .unordered ls rs)) (rightAt? (indexwise .unordered ls rs)) m ∧
      sequences .unordered ls rs = remainder m (indexwise .unordered ls rs) ∧
      ∀ a ∈ lefts (sequences .unordered ls rs), ∀ b ∈ rights (sequences .unordered ls rs),
        nodes .unordered a b ≠ [] := by
  obtain ⟨m, hm, hcancel⟩ :=
    exists_matching_cancel (silent .unordered) (indexwise .unordered ls rs)
  simp only [silent_iff] at hm
  rw [sequences_eq_cancel_indexwise]
  refine ⟨m, hm, hcancel, fun a ha b hb hnil => ?_⟩
  have hfalse := cancel_maximal ha hb
  rw [silent_iff.mpr hnil] at hfalse
  cases hfalse

end YamlDelta.Compare
