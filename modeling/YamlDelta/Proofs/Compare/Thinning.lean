/-
Cancelling thins differences out.

What is left of a list of differences after cancelling stands where it stood: a difference
keeps its place in the list, and may lose a side; one that loses all its sides drops out.
`Thinned` says this of two lists and is kept by everything that is done to them.
-/
import Mathlib.Data.List.Forall2
import YamlDelta.Proofs.Compare.Pairing

namespace YamlDelta.Compare

/-- The first list is left of the second when sides are cleared and what has no side is dropped. -/
inductive Thinned : List Difference → List Difference → Prop
  | nil : Thinned [] []
  | kept {d d' : Difference} {ds ds' : List Difference}
      (hl : d'.left? = none ∨ d'.left? = d.left?) (hr : d'.right? = none ∨ d'.right? = d.right?)
      (h : Thinned ds' ds) : Thinned (d' :: ds') (d :: ds)
  | dropped (d : Difference) {ds ds' : List Difference} (h : Thinned ds' ds) :
      Thinned ds' (d :: ds)

variable {ds es : List Difference}

theorem Thinned.refl (ds : List Difference) : Thinned ds ds := by
  induction ds with
  | nil => exact .nil
  | cons d ds ih => exact .kept (.inr rfl) (.inr rfl) ih

theorem Thinned.of_nil (h : Thinned es []) : es = [] := by
  cases h
  rfl

/-- What is left of differences in a row is left of each in turn. -/
theorem Thinned.exists_append {xs ys : List Difference} (h : Thinned es (xs ++ ys)) :
    ∃ es₁ es₂, es = es₁ ++ es₂ ∧ Thinned es₁ xs ∧ Thinned es₂ ys := by
  induction xs generalizing es with
  | nil => exact ⟨[], es, rfl, .nil, h⟩
  | cons x xs ih =>
      cases h with
      | kept hl hr h =>
          obtain ⟨es₁, es₂, rfl, h₁, h₂⟩ := ih h
          exact ⟨_ :: es₁, es₂, rfl, .kept hl hr h₁, h₂⟩
      | dropped _ h =>
          obtain ⟨es₁, es₂, rfl, h₁, h₂⟩ := ih h
          exact ⟨es₁, es₂, rfl, .dropped x h₁, h₂⟩

theorem Thinned.exists_flatMap {α : Type} {as : List α} (hnodup : as.Nodup)
    {f : α → List Difference} (h : Thinned es (as.flatMap f)) :
    ∃ g : α → List Difference, es = as.flatMap g ∧ ∀ a ∈ as, Thinned (g a) (f a) := by
  classical
  induction as generalizing es with
  | nil => exact ⟨fun _ => [], h.of_nil, nofun⟩
  | cons a as ih =>
      rw [List.nodup_cons] at hnodup
      obtain ⟨es₁, es₂, rfl, h₁, h₂⟩ := h.exists_append
      obtain ⟨g, rfl, hg⟩ := ih hnodup.2 h₂
      refine ⟨Function.update g a es₁, ?_, fun b hb => ?_⟩
      · rw [List.flatMap_cons, Function.update_self]
        congr 1
        refine List.flatMap_congr fun b hb => ?_
        have hba : b ≠ a := fun hba => hnodup.1 (hba ▸ hb)
        rw [Function.update_of_ne hba]
      · by_cases hba : b = a
        · subst hba
          rw [Function.update_self]
          exact h₁
        · rw [Function.update_of_ne hba]
          exact hg b ((List.mem_cons.mp hb).resolve_left hba)

/-! ### Cancelling -/

/-- Some of the places of the second list are empty in the first. -/
abbrev Cleared : List (Option Node) → List (Option Node) → Prop :=
  List.Forall₂ fun n m => n = none ∨ n = m

theorem cleared_refl (ns : List (Option Node)) : Cleared ns ns :=
  List.forall₂_same.mpr fun _ _ => .inr rfl

theorem Cleared.trans {ns ms ks : List (Option Node)} (h : Cleared ns ms) (h' : Cleared ms ks) :
    Cleared ns ks := by
  induction h generalizing ks with
  | nil => exact h'
  | cons hn _ ih =>
      cases h' with
      | cons hm h' =>
          refine .cons ?_ (ih h')
          rcases hn with rfl | rfl
          · exact .inl rfl
          · exact hm

theorem cleared_of_clearFirst {p : Node → Bool} {ns ms : List (Option Node)}
    (h : clearFirst p ns = some ms) : Cleared ms ns := by
  induction ns generalizing ms with
  | nil => cases h
  | cons n ns ih =>
      cases n with
      | none =>
          obtain ⟨ms', hms, rfl⟩ := Option.map_eq_some_iff.mp h
          exact .cons (.inl rfl) (ih hms)
      | some n =>
          unfold clearFirst at h
          split at h
          · cases h
            exact .cons (.inl rfl) (cleared_refl ns)
          · obtain ⟨ms', hms, rfl⟩ := Option.map_eq_some_iff.mp h
            exact .cons (.inr rfl) (ih hms)

theorem cleared_pairOff (equal : Node → Node → Bool) (ls rs : List (Option Node)) :
    Cleared (pairOff equal ls rs).1 ls ∧ Cleared (pairOff equal ls rs).2 rs := by
  induction ls generalizing rs with
  | nil => exact ⟨.nil, cleared_refl rs⟩
  | cons l ls ih =>
      cases l with
      | none => exact ⟨.cons (.inl rfl) (ih rs).1, (ih rs).2⟩
      | some l =>
          unfold pairOff
          split
          · rename_i rs' hc
            exact ⟨.cons (.inl rfl) (ih rs').1, (ih rs').2.trans (cleared_of_clearFirst hc)⟩
          · exact ⟨.cons (.inr rfl) (ih rs).1, (ih rs).2⟩

theorem thinned_filterMap_zip {ls rs : List (Option Node)}
    (hl : Cleared ls (ds.map (·.left?))) (hr : Cleared rs (ds.map (·.right?))) :
    Thinned ((ls.zip rs).filterMap fun (l, r) => Difference.ofSides? l r) ds := by
  induction ds generalizing ls rs with
  | nil =>
      cases hl
      exact .nil
  | cons d ds ih =>
      cases hl with
      | @cons l _ ls _ hl hls =>
          cases hr with
          | @cons r _ rs _ hr hrs =>
              have htail := ih hls hrs
              cases l with
              | none =>
                  cases r with
                  | none => exact .dropped d htail
                  | some r => exact .kept hl hr htail
              | some l =>
                  cases r with
                  | none => exact .kept hl hr htail
                  | some r => exact .kept hl hr htail

/-- **Cancelling thins differences out.** -/
theorem thinned_cancel (equal : Node → Node → Bool) (ds : List Difference) :
    Thinned (cancel equal ds) ds := by
  obtain ⟨hl, hr⟩ := cleared_pairOff equal (ds.map (·.left?)) (ds.map (·.right?))
  exact thinned_filterMap_zip hl hr

end YamlDelta.Compare
