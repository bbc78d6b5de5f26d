/-
What pairing off leaves behind.

`cancel` walks the left sides in order and lets each one take away the first right
side still there that equals it.  Three things hold of the outcome whatever equality
it is run with, and everything else about cancellation follows from them: the sides
that are gone went in pairs of equals, the sides that stay are sides that were there
before, and no left side that stays equals a right side that stays.

Nothing is asked of the equality here.  The one the comparison uses is not transitive,
and then which pairs are made depends on the order of the sides.  Where it happens to
be an equivalence on the sides at hand, counting decides: `cancel_eq_nil_of_balanced`.
-/
import Mathlib.Data.List.ReduceOption
import Mathlib.Data.List.Perm.Basic
import YamlDelta.Compare.Nodes

namespace YamlDelta.Compare

/-- The left sides of some differences, in order. -/
def lefts (ds : List Difference) : List Node :=
  ds.filterMap (·.left?)

/-- The right sides of some differences, in order. -/
def rights (ds : List Difference) : List Node :=
  ds.filterMap (·.right?)

@[simp] theorem lefts_nil : lefts [] = [] := rfl

@[simp] theorem rights_nil : rights [] = [] := rfl

@[simp] theorem lefts_cons (d : Difference) (ds : List Difference) :
    lefts (d :: ds) = d.left?.toList ++ lefts ds := by
  cases d <;> rfl

@[simp] theorem rights_cons (d : Difference) (ds : List Difference) :
    rights (d :: ds) = d.right?.toList ++ rights ds := by
  cases d <;> rfl

@[simp] theorem lefts_append (ds es : List Difference) :
    lefts (ds ++ es) = lefts ds ++ lefts es := List.filterMap_append

@[simp] theorem rights_append (ds es : List Difference) :
    rights (ds ++ es) = rights ds ++ rights es := List.filterMap_append

@[simp] theorem lefts_map_deleted (ns : List Node) : lefts (ns.map .deleted) = ns := by
  simp [lefts, List.filterMap_map, Difference.left?]

@[simp] theorem rights_map_deleted (ns : List Node) : rights (ns.map .deleted) = [] := by
  simp [rights, Difference.right?]

@[simp] theorem lefts_map_added (ns : List Node) : lefts (ns.map .added) = [] := by
  simp [lefts, Difference.left?]

@[simp] theorem rights_map_added (ns : List Node) : rights (ns.map .added) = ns := by
  simp [rights, List.filterMap_map, Difference.right?]

theorem lefts_eq_reduceOption (ds : List Difference) :
    lefts ds = (ds.map (·.left?)).reduceOption := by
  simp [lefts, List.reduceOption, List.filterMap_map]

theorem rights_eq_reduceOption (ds : List Difference) :
    rights ds = (ds.map (·.right?)).reduceOption := by
  simp [rights, List.reduceOption, List.filterMap_map]

/-- A difference has a side. -/
theorem eq_nil_of_sides {ds : List Difference} (hl : lefts ds = []) (hr : rights ds = []) :
    ds = [] := by
  cases ds with
  | nil => rfl
  | cons d rest => cases d <;> simp [Difference.left?, Difference.right?] at hl hr

/-! ### Clearing one side -/

theorem length_of_clearFirst {p : Node → Bool} {ns ms : List (Option Node)}
    (h : clearFirst p ns = some ms) : ms.length = ns.length := by
  induction ns generalizing ms with
  | nil => simp [clearFirst] at h
  | cons n rest ih =>
      cases n with
      | none =>
          obtain ⟨ms', hms, rfl⟩ := Option.map_eq_some_iff.mp h
          simp [ih hms]
      | some n =>
          unfold clearFirst at h
          split at h
          · cases h; rfl
          · obtain ⟨ms', hms, rfl⟩ := Option.map_eq_some_iff.mp h
            simp [ih hms]

/-- Nothing is cleared exactly when nothing there has the property. -/
theorem clearFirst_eq_none {p : Node → Bool} {ns : List (Option Node)}
    (h : clearFirst p ns = none) : ∀ n ∈ ns.reduceOption, p n = false := by
  induction ns with
  | nil => intro n hn; simp at hn
  | cons m rest ih =>
      cases m with
      | none =>
          rw [List.reduceOption_cons_of_none]
          exact ih (Option.map_eq_none_iff.mp h)
      | some m =>
          unfold clearFirst at h
          split at h
          · simp at h
          · rename_i hm
            intro n hn
            rw [List.reduceOption_cons_of_some] at hn
            rcases List.mem_cons.mp hn with rfl | hn
            · simpa using hm
            · exact ih (Option.map_eq_none_iff.mp h) n hn

/-- What is cleared is the first that has the property. -/
theorem clearFirst_eq_some {p : Node → Bool} {ns ms : List (Option Node)}
    (h : clearFirst p ns = some ms) :
    ∃ before n after, ns.reduceOption = before ++ n :: after ∧
      ms.reduceOption = before ++ after ∧ p n = true ∧ ∀ m ∈ before, p m = false := by
  induction ns generalizing ms with
  | nil => simp [clearFirst] at h
  | cons m rest ih =>
      cases m with
      | none =>
          obtain ⟨ms', hms, rfl⟩ := Option.map_eq_some_iff.mp h
          simpa using ih hms
      | some m =>
          unfold clearFirst at h
          split at h
          · rename_i hm
            cases h
            exact ⟨[], m, rest.reduceOption, by simp, by simp, hm, by simp⟩
          · rename_i hm
            obtain ⟨ms', hms, rfl⟩ := Option.map_eq_some_iff.mp h
            obtain ⟨before, n, after, hns, hms', hn, hbefore⟩ := ih hms
            refine ⟨m :: before, n, after, by simp [hns], by simp [hms'], hn, ?_⟩
            intro x hx
            rcases List.mem_cons.mp hx with rfl | hx
            · simpa using hm
            · exact hbefore x hx

/-- If the first one there has the property, that one is cleared. -/
theorem clearFirst_of_head {p : Node → Bool} {ns : List (Option Node)} {n : Node}
    {rest : List Node} (hns : ns.reduceOption = n :: rest) (hn : p n = true) :
    ∃ ms, clearFirst p ns = some ms ∧ ms.reduceOption = rest := by
  cases hc : clearFirst p ns with
  | none =>
      have hfalse := clearFirst_eq_none hc n (by simp [hns])
      rw [hn] at hfalse
      cases hfalse
  | some ms =>
      obtain ⟨before, m, after, hns', hms, hm, hbefore⟩ := clearFirst_eq_some hc
      refine ⟨ms, rfl, ?_⟩
      cases before with
      | nil =>
          rw [hns, List.nil_append, List.cons.injEq] at hns'
          rw [hms, List.nil_append, hns'.2]
      | cons x before =>
          rw [hns, List.cons_append, List.cons.injEq] at hns'
          have hfalse := hbefore x (by simp)
          rw [← hns'.1, hn] at hfalse
          cases hfalse

/-! ### Pairing off -/

variable {equal : Node → Node → Bool}

theorem length_pairOff (equal : Node → Node → Bool) (ls rs : List (Option Node)) :
    (pairOff equal ls rs).1.length = ls.length ∧ (pairOff equal ls rs).2.length = rs.length := by
  induction ls generalizing rs with
  | nil => simp [pairOff]
  | cons l ls ih =>
      cases l with
      | none => simp [pairOff, ih rs]
      | some l =>
          unfold pairOff
          split
          · rename_i rs' hc
            simp [ih rs', length_of_clearFirst hc]
          · simp [ih rs]

/-- Only what was there is left on the right. -/
theorem mem_of_mem_pairOff_right {ls rs : List (Option Node)} {r : Node}
    (h : r ∈ (pairOff equal ls rs).2.reduceOption) : r ∈ rs.reduceOption := by
  induction ls generalizing rs with
  | nil => exact h
  | cons l ls ih =>
      cases l with
      | none => exact ih h
      | some l =>
          unfold pairOff at h
          split at h
          · rename_i rs' hc
            obtain ⟨before, n, after, hrs, hrs', -, -⟩ := clearFirst_eq_some hc
            have hmem := ih h
            rw [hrs'] at hmem
            rw [hrs]
            simp only [List.mem_append, List.mem_cons] at hmem ⊢
            tauto
          · exact ih h

/-- **Sides go in pairs of equals.**  The sides that were there are those that are left
and those of the pairs. -/
theorem pairOff_pairs (ls rs : List (Option Node)) :
    ∃ ps : List (Node × Node), (∀ x ∈ ps, equal x.1 x.2 = true) ∧
      ls.reduceOption.Perm ((pairOff equal ls rs).1.reduceOption ++ ps.map Prod.fst) ∧
      rs.reduceOption.Perm ((pairOff equal ls rs).2.reduceOption ++ ps.map Prod.snd) := by
  induction ls generalizing rs with
  | nil => exact ⟨[], by simp, by simp [pairOff], by simp [pairOff]⟩
  | cons l ls ih =>
      cases l with
      | none =>
          obtain ⟨ps, hps, hl, hr⟩ := ih rs
          exact ⟨ps, hps, by simpa [pairOff] using hl, by simpa [pairOff] using hr⟩
      | some l =>
          unfold pairOff
          split
          · rename_i rs' hc
            obtain ⟨before, n, after, hrs, hrs', hn, -⟩ := clearFirst_eq_some hc
            obtain ⟨ps, hps, hl, hr⟩ := ih rs'
            refine ⟨(l, n) :: ps, ?_, ?_, ?_⟩
            · intro x hx
              rcases List.mem_cons.mp hx with rfl | hx
              · exact hn
              · exact hps x hx
            · simpa using (hl.cons l).trans List.perm_middle.symm
            · rw [hrs]
              refine List.perm_middle.trans ?_
              rw [← hrs']
              simpa using (hr.cons n).trans List.perm_middle.symm
          · obtain ⟨ps, hps, hl, hr⟩ := ih rs
            exact ⟨ps, hps, by simpa using hl.cons l, hr⟩

/-- **No chance is missed.**  A left side that is left equals no right side that is left. -/
theorem pairOff_maximal {ls rs : List (Option Node)} {l r : Node}
    (hl : l ∈ (pairOff equal ls rs).1.reduceOption)
    (hr : r ∈ (pairOff equal ls rs).2.reduceOption) : equal l r = false := by
  induction ls generalizing rs with
  | nil => simp [pairOff] at hl
  | cons m ls ih =>
      cases m with
      | none => exact ih (by simpa [pairOff] using hl) hr
      | some m =>
          unfold pairOff at hl hr
          split at hl
          · rename_i rs' hc
            rw [hc] at hr
            exact ih (by simpa using hl) hr
          · rename_i hc
            rw [hc] at hr
            simp only [List.reduceOption_cons_of_some, List.mem_cons] at hl
            rcases hl with rfl | hl
            · -- the right sides only get fewer after `l` has looked through them
              exact clearFirst_eq_none hc r (mem_of_mem_pairOff_right hr)
            · exact ih hl hr

/-! ### Cancelling -/

private theorem lefts_filterMap_zip {ls rs : List (Option Node)} (h : ls.length = rs.length) :
    lefts ((ls.zip rs).filterMap fun (l, r) => Difference.ofSides? l r) = ls.reduceOption := by
  induction ls generalizing rs with
  | nil => simp
  | cons l ls ih =>
      cases rs with
      | nil => simp at h
      | cons r rs =>
          have htail := ih (Nat.succ.inj h)
          cases l <;> cases r <;>
            simpa [lefts, Difference.ofSides?, Difference.left?] using htail

private theorem rights_filterMap_zip {ls rs : List (Option Node)} (h : ls.length = rs.length) :
    rights ((ls.zip rs).filterMap fun (l, r) => Difference.ofSides? l r) = rs.reduceOption := by
  induction ls generalizing rs with
  | nil =>
      cases rs with
      | nil => simp
      | cons r rs => simp at h
  | cons l ls ih =>
      cases rs with
      | nil => simp at h
      | cons r rs =>
          have htail := ih (Nat.succ.inj h)
          cases l <;> cases r <;>
            simpa [rights, Difference.ofSides?, Difference.right?] using htail

theorem lefts_cancel (equal : Node → Node → Bool) (ds : List Difference) :
    lefts (cancel equal ds) =
      (pairOff equal (ds.map (·.left?)) (ds.map (·.right?))).1.reduceOption := by
  obtain ⟨hl, hr⟩ := length_pairOff equal (ds.map (·.left?)) (ds.map (·.right?))
  exact lefts_filterMap_zip (by rw [hl, hr, List.length_map, List.length_map])

theorem rights_cancel (equal : Node → Node → Bool) (ds : List Difference) :
    rights (cancel equal ds) =
      (pairOff equal (ds.map (·.left?)) (ds.map (·.right?))).2.reduceOption := by
  obtain ⟨hl, hr⟩ := length_pairOff equal (ds.map (·.left?)) (ds.map (·.right?))
  exact rights_filterMap_zip (by rw [hl, hr, List.length_map, List.length_map])

private theorem perm_append_middle (as bs cs ds : List Node) :
    ((as ++ bs) ++ (cs ++ ds)).Perm ((as ++ cs) ++ (bs ++ ds)) := by
  rw [List.append_assoc, List.append_assoc]
  refine List.Perm.append_left as ?_
  rw [← List.append_assoc, ← List.append_assoc]
  exact List.perm_append_comm.append_right ds

/-- The nodes on the left and on the right are accounted for: they are the sides of the differences
and, beyond these, pairs of equals. -/
def Accounted (equal : Node → Node → Bool) (ls rs : List Node) (ds : List Difference) : Prop :=
  ∃ ps : List (Node × Node), (∀ x ∈ ps, equal x.1 x.2 = true) ∧
    ls.Perm (lefts ds ++ ps.map Prod.fst) ∧ rs.Perm (rights ds ++ ps.map Prod.snd)

/-- **What cancels goes in pairs of equals.** -/
theorem accounted_cancel (equal : Node → Node → Bool) (ds : List Difference) :
    Accounted equal (lefts ds) (rights ds) (cancel equal ds) := by
  unfold Accounted
  rw [lefts_cancel, rights_cancel, lefts_eq_reduceOption, rights_eq_reduceOption]
  exact pairOff_pairs _ _

theorem Accounted.append {ls rs ls' rs' : List Node} {ds ds' : List Difference}
    (h : Accounted equal ls rs ds) (h' : Accounted equal ls' rs' ds') :
    Accounted equal (ls ++ ls') (rs ++ rs') (ds ++ ds') := by
  obtain ⟨ps, hps, hl, hr⟩ := h
  obtain ⟨ps', hps', hl', hr'⟩ := h'
  refine ⟨ps ++ ps', ?_, ?_, ?_⟩
  · intro x hx
    exact (List.mem_append.mp hx).elim (hps x) (hps' x)
  · rw [lefts_append, List.map_append]
    exact (hl.append hl').trans (perm_append_middle _ _ _ _)
  · rw [rights_append, List.map_append]
    exact (hr.append hr').trans (perm_append_middle _ _ _ _)

/-- The differences account for how many nodes there are. -/
theorem Accounted.length {ls rs : List Node} {ds : List Difference}
    (h : Accounted equal ls rs ds) :
    ls.length + (rights ds).length = rs.length + (lefts ds).length := by
  obtain ⟨ps, -, hl, hr⟩ := h
  rw [hl.length_eq, hr.length_eq, List.length_append, List.length_append, List.length_map,
    List.length_map]
  omega

/-- Where no difference is left, there are only pairs of equals. -/
theorem Accounted.pairs {ls rs : List Node} (h : Accounted equal ls rs []) :
    ∃ ps : List (Node × Node), (∀ x ∈ ps, equal x.1 x.2 = true) ∧
      ls.Perm (ps.map Prod.fst) ∧ rs.Perm (ps.map Prod.snd) := h

theorem Accounted.mem_left {ls rs : List Node} {ds : List Difference} {n : Node}
    (h : Accounted equal ls rs ds) (hn : n ∈ lefts ds) : n ∈ ls := by
  obtain ⟨ps, -, hl, -⟩ := h
  exact hl.mem_iff.mpr (List.mem_append_left _ hn)

theorem Accounted.mem_right {ls rs : List Node} {ds : List Difference} {n : Node}
    (h : Accounted equal ls rs ds) (hn : n ∈ rights ds) : n ∈ rs := by
  obtain ⟨ps, -, -, hr⟩ := h
  exact hr.mem_iff.mpr (List.mem_append_left _ hn)

theorem accounted_deleted (ls : List Node) : Accounted equal ls [] (ls.map .deleted) :=
  ⟨[], by simp, by simp, by simp⟩

theorem accounted_added (rs : List Node) : Accounted equal [] rs (rs.map .added) :=
  ⟨[], by simp, by simp, by simp⟩

/-- The sides of differences may be accounted for in turn. -/
theorem Accounted.trans {ls rs : List Node} {ds es : List Difference}
    (h : Accounted equal ls rs ds) (h' : Accounted equal (lefts ds) (rights ds) es) :
    Accounted equal ls rs es := by
  obtain ⟨ps, hps, hl, hr⟩ := h
  obtain ⟨ps', hps', hl', hr'⟩ := h'
  refine ⟨ps' ++ ps, ?_, ?_, ?_⟩
  · intro x hx
    exact (List.mem_append.mp hx).elim (hps' x) (hps x)
  · rw [List.map_append, ← List.append_assoc]
    exact hl.trans (hl'.append_right _)
  · rw [List.map_append, ← List.append_assoc]
    exact hr.trans (hr'.append_right _)

/-- What stays on the left equals nothing that stays on the right. -/
theorem cancel_maximal {ds : List Difference} {l r : Node} (hl : l ∈ lefts (cancel equal ds))
    (hr : r ∈ rights (cancel equal ds)) : equal l r = false := by
  rw [lefts_cancel] at hl
  rw [rights_cancel] at hr
  exact pairOff_maximal hl hr

theorem mem_lefts_of_cancel {ds : List Difference} {n : Node}
    (h : n ∈ lefts (cancel equal ds)) : n ∈ lefts ds :=
  (accounted_cancel equal ds).mem_left h

theorem mem_rights_of_cancel {ds : List Difference} {n : Node}
    (h : n ∈ rights (cancel equal ds)) : n ∈ rights ds :=
  (accounted_cancel equal ds).mem_right h

private theorem pairOff_congr {f g : Node → Node → Bool} {ls : List (Option Node)}
    (h : ∀ l ∈ ls.reduceOption, f l = g l) (rs : List (Option Node)) :
    pairOff f ls rs = pairOff g ls rs := by
  induction ls generalizing rs with
  | nil => rfl
  | cons l ls ih =>
      cases l with
      | none =>
          have htail := ih (by simpa using h)
          simp only [pairOff, htail]
      | some l =>
          simp only [List.reduceOption_cons_of_some, List.forall_mem_cons] at h
          simp only [pairOff, h.1, ih h.2]

/-- Only what the equality says of left sides matters. -/
theorem cancel_congr {f g : Node → Node → Bool} {ds : List Difference}
    (h : ∀ l ∈ lefts ds, f l = g l) : cancel f ds = cancel g ds := by
  rw [lefts_eq_reduceOption] at h
  unfold cancel
  rw [pairOff_congr h]

/-! ### When everything cancels -/

private theorem pairOff_of_eq {ls rs : List (Option Node)}
    (hsides : ls.reduceOption = rs.reduceOption)
    (hrefl : ∀ n ∈ ls.reduceOption, equal n n = true) :
    (pairOff equal ls rs).1.reduceOption = [] ∧ (pairOff equal ls rs).2.reduceOption = [] := by
  induction ls generalizing rs with
  | nil => exact ⟨rfl, hsides.symm⟩
  | cons l ls ih =>
      cases l with
      | none => simpa [pairOff] using ih (by simpa using hsides) (by simpa using hrefl)
      | some l =>
          simp only [List.reduceOption_cons_of_some, List.forall_mem_cons] at hsides hrefl
          obtain ⟨rs', hc, hrs'⟩ := clearFirst_of_head hsides.symm hrefl.1
          simpa [pairOff, hc] using ih hrs'.symm hrefl.2

/-- The same sides in the same order on the left and on the right cancel. -/
theorem cancel_eq_nil_of_sides_eq {ds : List Difference} (hsides : lefts ds = rights ds)
    (hrefl : ∀ n ∈ lefts ds, equal n n = true) : cancel equal ds = [] := by
  rw [lefts_eq_reduceOption, rights_eq_reduceOption] at hsides
  rw [lefts_eq_reduceOption] at hrefl
  obtain ⟨hl, hr⟩ := pairOff_of_eq hsides hrefl
  exact eq_nil_of_sides (by rw [lefts_cancel, hl]) (by rw [rights_cancel, hr])

/-- The equality behaves as one on the nodes with a property. -/
structure EquivalenceOn (P : Node → Prop) (equal : Node → Node → Bool) : Prop where
  refl : ∀ a, P a → equal a a = true
  symm : ∀ a b, P a → P b → equal a b = true → equal b a = true
  trans : ∀ a b c, P a → P b → P c → equal a b = true → equal b c = true → equal a c = true

/-- The two sides of a pair have the same equals, so setting pairs aside neither makes nor breaks a
balance. -/
theorem Accounted.countP_eq_iff {P : Node → Prop} {ls rs : List Node} {ds : List Difference}
    (hequiv : EquivalenceOn P equal) (h : Accounted equal ls rs ds) (hl : ∀ n ∈ ls, P n)
    (hr : ∀ n ∈ rs, P n) {n : Node} (hn : P n) :
    ls.countP (equal n) = rs.countP (equal n) ↔
      (lefts ds).countP (equal n) = (rights ds).countP (equal n) := by
  obtain ⟨ps, hps, hlp, hrp⟩ := h
  have hpair : ∀ x ∈ ps, P x.1 ∧ P x.2 := by
    intro x hx
    exact ⟨hl _ (hlp.mem_iff.mpr (List.mem_append_right _ (List.mem_map_of_mem hx))),
      hr _ (hrp.mem_iff.mpr (List.mem_append_right _ (List.mem_map_of_mem hx)))⟩
  have hpaired : (ps.map Prod.fst).countP (equal n) = (ps.map Prod.snd).countP (equal n) := by
    rw [List.countP_map, List.countP_map]
    refine List.countP_congr fun x hx => ?_
    obtain ⟨hx₁, hx₂⟩ := hpair x hx
    constructor
    · intro h
      exact hequiv.trans _ _ _ hn hx₁ hx₂ h (hps x hx)
    · intro h
      exact hequiv.trans _ _ _ hn hx₂ hx₁ h (hequiv.symm _ _ hx₁ hx₂ (hps x hx))
  rw [hlp.countP_eq, hrp.countP_eq, List.countP_append, List.countP_append, hpaired,
    Nat.add_right_cancel_iff]

/-- **Where equality is an equivalence, counting decides.**  If every side has as many equals on
the left as on the right, all of them cancel. -/
theorem cancel_eq_nil_of_balanced {P : Node → Prop} {ds : List Difference}
    (hequiv : EquivalenceOn P equal) (hl : ∀ n ∈ lefts ds, P n) (hr : ∀ n ∈ rights ds, P n)
    (hbal : ∀ n, P n → (lefts ds).countP (equal n) = (rights ds).countP (equal n)) :
    cancel equal ds = [] := by
  have hleft : ∀ n, P n → (lefts (cancel equal ds)).countP (equal n) =
      (rights (cancel equal ds)).countP (equal n) := by
    intro n hn
    exact ((accounted_cancel equal ds).countP_eq_iff hequiv hl hr hn).mp (hbal n hn)
  have hright : rights (cancel equal ds) = [] := by
    refine List.eq_nil_iff_forall_not_mem.mpr fun r hmem => ?_
    have hPr := hr r (mem_rights_of_cancel hmem)
    have hpos : 0 < (rights (cancel equal ds)).countP (equal r) :=
      List.countP_pos_iff.mpr ⟨r, hmem, hequiv.refl r hPr⟩
    rw [← hleft r hPr] at hpos
    obtain ⟨l, hlmem, hrl⟩ := List.countP_pos_iff.mp hpos
    have hPl := hl l (mem_lefts_of_cancel hlmem)
    have hlr := hequiv.symm _ _ hPr hPl hrl
    rw [cancel_maximal hlmem hmem] at hlr
    cases hlr
  refine eq_nil_of_sides (List.eq_nil_iff_forall_not_mem.mpr fun l hmem => ?_) hright
  have hPl := hl l (mem_lefts_of_cancel hmem)
  have hpos : 0 < (lefts (cancel equal ds)).countP (equal l) :=
    List.countP_pos_iff.mpr ⟨l, hmem, hequiv.refl l hPl⟩
  rw [hleft l hPl, hright] at hpos
  simp at hpos

end YamlDelta.Compare
