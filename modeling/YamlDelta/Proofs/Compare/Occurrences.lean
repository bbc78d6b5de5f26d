/-
Lists of scalars: what is left is what occurs more often.

For scalars, equality up to order is equality of content, an equivalence, and then it does
not matter which equals take each other: only how often each content occurs.  What is left
on the left is therefore the difference of the two lists as multisets of contents, and what
is left on the right is the difference the other way round.

Which occurrences are left is fixed as well.  The left sides choose in order, so of those
of one content the first find partners, as many as there are right sides of that content;
and since each takes the first partner still there, the right sides go in order too.
-/
import Mathlib.Algebra.Order.Sub.Basic
import Mathlib.Data.Multiset.OrderedMonoid
import YamlDelta.Proofs.Compare.Counting
import YamlDelta.Proofs.Compare.Matching
import YamlDelta.Proofs.Compare.Reordering

namespace YamlDelta

/-! ### Contents -/

namespace Scalar

/-- Having the same content is an equivalence. -/
def contentSetoid : Setoid Scalar where
  r v x := v.sameContent x = true
  iseqv := {
    refl := sameContent_refl
    symm := fun {v x} h => (sameContent_comm x v).trans h
    trans := sameContent_trans }

/-- What scalars of the same content have in common. -/
def Content : Type := Quotient contentSetoid

/-- The content of a scalar. -/
def content (v : Scalar) : Content := Quotient.mk contentSetoid v

theorem content_eq_iff {v x : Scalar} : v.content = x.content ↔ v.sameContent x = true :=
  Quotient.eq (r := contentSetoid)

instance : DecidableEq Content :=
  @Quotient.decidableEq Scalar contentSetoid fun v x =>
    inferInstanceAs (Decidable (v.sameContent x = true))

end Scalar

namespace Node

open Scalar (Content)

/-- The content of a scalar node. -/
def content? : Node → Option Content
  | .scalar v _ => some v.content
  | _ => none

/-- The contents of the scalars among some nodes. -/
def contents (ns : List Node) : Multiset Content :=
  ns.filterMap content?

/-- How many of the nodes have the content of the first. -/
def occurrences (n : Node) (ns : List Node) : Nat :=
  ns.countP fun m => m.content? = n.content?

theorem contents_append (ns ms : List Node) : contents (ns ++ ms) = contents ns + contents ms := by
  simp [contents, List.filterMap_append]

theorem contents_perm {ns ms : List Node} (h : ns.Perm ms) : contents ns = contents ms :=
  Multiset.coe_eq_coe.mpr (h.filterMap _)

/-- Nodes of a content are counted once each. -/
theorem card_contents {ns : List Node} (h : ∀ n ∈ ns, Compare.IsScalar n) :
    (contents ns).card = ns.length := by
  rw [contents, Multiset.coe_card, List.length_filterMap_eq_countP, List.countP_eq_length]
  intro n hn
  obtain ⟨v, p, rfl⟩ := h n hn
  rfl

theorem mem_contents {ns : List Node} {c : Content} :
    c ∈ contents ns ↔ ∃ n ∈ ns, n.content? = some c := by
  simp [contents, List.mem_filterMap]

end Node

namespace Compare

open Node (content? contents occurrences card_contents)

/-! ### Equality by a key -/

section Keys

variable {β : Type} [DecidableEq β] (key : Node → β)

/-- The nodes have the same key. -/
def sameKey (a b : Node) : Bool :=
  decide (key a = key b)

/-- How many sides have a key. -/
def tallied (ns : List (Option Node)) (k : β) : Nat :=
  ns.reduceOption.countP fun a => key a = k

/-- The sides when of each key the earliest are cleared, as many as the quota says. -/
def clearEarliest (quota : β → Nat) (ns : List (Option Node)) : List (Option Node) :=
  ns.mapIdx fun i n => n.filter fun a => quota (key a) ≤ tallied key (ns.take i) (key a)

/-- One less for one key. -/
def spend (quota : β → Nat) (k : β) (c : β) : Nat :=
  quota c - if k = c then 1 else 0

@[simp] theorem tallied_nil (k : β) : tallied key [] k = 0 := rfl

@[simp] theorem tallied_none (ns : List (Option Node)) (k : β) :
    tallied key (none :: ns) k = tallied key ns k := by
  simp [tallied]

@[simp] theorem tallied_some (a : Node) (ns : List (Option Node)) (k : β) :
    tallied key (some a :: ns) k = tallied key ns k + if key a = k then 1 else 0 := by
  simp [tallied, List.countP_cons]

theorem clearEarliest_none (quota : β → Nat) (ns : List (Option Node)) :
    clearEarliest key quota (none :: ns) = none :: clearEarliest key quota ns := by
  simp [clearEarliest, List.mapIdx_cons]

/-- The first side goes if there is a quota for it, and counts against that of the others. -/
theorem clearEarliest_some (quota : β → Nat) (a : Node) (ns : List (Option Node)) :
    clearEarliest key quota (some a :: ns) =
      (if 0 < quota (key a) then none else some a) ::
        clearEarliest key (spend quota (key a)) ns := by
  rw [clearEarliest, List.mapIdx_cons, clearEarliest]
  congr 1
  · by_cases h : 0 < quota (key a)
    · simp [h, Nat.ne_of_gt h]
    · simp [Nat.eq_zero_of_not_pos h]
  · refine congrArg (List.mapIdx · ns) ?_
    funext i n
    refine congrArg (Option.filter · n) ?_
    funext b
    rw [List.take_succ_cons, tallied_some, spend]
    exact decide_eq_decide.mpr Nat.sub_le_iff_le_add.symm

theorem clearEarliest_zero (ns : List (Option Node)) :
    clearEarliest key (fun _ => 0) ns = ns := by
  refine List.ext_getElem (by simp [clearEarliest]) fun i h h' => ?_
  cases hn : ns[i] <;> simp [clearEarliest, hn]

theorem spend_of_eq_zero {quota : β → Nat} {k : β} (h : quota k = 0) : spend quota k = quota := by
  funext c
  unfold spend
  by_cases hk : k = c
  · rw [← hk, h, Nat.zero_sub]
  · rw [if_neg hk, Nat.sub_zero]

/-- A quota beyond what there is makes no difference. -/
theorem clearEarliest_min (quota : β → Nat) (ns : List (Option Node)) :
    clearEarliest key (fun k => min (tallied key ns k) (quota k)) ns =
      clearEarliest key quota ns := by
  induction ns generalizing quota with
  | nil => rfl
  | cons n ns ih =>
      cases n with
      | none => simp only [tallied_none, clearEarliest_none, ih]
      | some a =>
          have hspend : spend (fun k => min (tallied key (some a :: ns) k) (quota k)) (key a) =
              fun k => min (tallied key ns k) (spend quota (key a) k) := by
            funext k
            rw [spend, spend, tallied_some]
            omega
          rw [clearEarliest_some, clearEarliest_some, hspend, ih, tallied_some, if_pos rfl]
          simp only [Nat.lt_min, Nat.succ_pos, true_and]

variable {key} {l : Node}

/-- Clearing the first node of a key is spending one of its quota in advance. -/
theorem clearEarliest_clearFirst {quota : β → Nat} {ns ms : List (Option Node)}
    (h : clearFirst (sameKey key l) ns = some ms) :
    clearEarliest key (fun k => quota k + if key l = k then 1 else 0) ns =
      clearEarliest key quota ms := by
  induction ns generalizing quota ms with
  | nil => cases h
  | cons n ns ih =>
      cases n with
      | none =>
          obtain ⟨ms', hms, rfl⟩ := Option.map_eq_some_iff.mp h
          rw [clearEarliest_none, clearEarliest_none, ih hms]
      | some r =>
          unfold clearFirst at h
          split at h
          · rename_i hr
            cases h
            have hkey : key l = key r := of_decide_eq_true hr
            have hspend :
                spend (fun k => quota k + if key l = k then 1 else 0) (key r) = quota := by
              funext k
              rw [spend, hkey, Nat.add_sub_cancel]
            rw [clearEarliest_some, clearEarliest_none, hspend, if_pos (by simp [hkey])]
          · rename_i hr
            obtain ⟨ms', hms, rfl⟩ := Option.map_eq_some_iff.mp h
            have hkey : key l ≠ key r := fun hkey => hr (decide_eq_true hkey)
            have hspend : spend (fun k => quota k + if key l = k then 1 else 0) (key r) =
                fun k => spend quota (key r) k + if key l = k then 1 else 0 := by
              funext k
              unfold spend
              by_cases hk : key r = k
              · simp [hk, show key l ≠ k from fun hl => hkey (hl.trans hk.symm)]
              · simp [hk]
            rw [clearEarliest_some, clearEarliest_some, hspend, ih hms, if_neg hkey,
              Nat.add_zero]

theorem tallied_of_clearFirst {ns ms : List (Option Node)}
    (h : clearFirst (sameKey key l) ns = some ms) :
    tallied key ns = fun k => tallied key ms k + if key l = k then 1 else 0 := by
  obtain ⟨before, n, after, hns, hms, hn, -⟩ := clearFirst_eq_some h
  have hkey : key l = key n := of_decide_eq_true hn
  funext k
  rw [tallied, tallied, hns, hms, hkey]
  simp [List.countP_cons, Nat.add_assoc]

theorem tallied_of_clearFirst_eq_none {ns : List (Option Node)}
    (h : clearFirst (sameKey key l) ns = none) : tallied key ns (key l) = 0 := by
  rw [tallied, List.countP_eq_zero]
  intro n hn hkey
  have hfalse := clearFirst_eq_none h n hn
  simp [sameKey, of_decide_eq_true hkey] at hfalse

/-- **Where equality is equality of keys, the earliest sides of each key cancel**, as many as there
are of that key on the other side. -/
theorem pairOff_sameKey (ls rs : List (Option Node)) :
    pairOff (sameKey key) ls rs =
      (clearEarliest key (tallied key rs) ls, clearEarliest key (tallied key ls) rs) := by
  induction ls generalizing rs with
  | nil => exact congrArg (Prod.mk []) (clearEarliest_zero key rs).symm
  | cons l ls ih =>
      cases l with
      | none =>
          have htallied : tallied key (none :: ls) = tallied key ls := funext (tallied_none key ls)
          rw [pairOff, ih, clearEarliest_none, htallied]
      | some l =>
          have htallied : tallied key (some l :: ls) =
              fun k => tallied key ls k + if key l = k then 1 else 0 :=
            funext (tallied_some key l ls)
          rw [clearEarliest_some, htallied]
          cases hc : clearFirst (sameKey key l) rs with
          | none =>
              have hzero := tallied_of_clearFirst_eq_none hc
              have hright : clearEarliest key
                  (fun k => tallied key ls k + if key l = k then 1 else 0) rs =
                    clearEarliest key (tallied key ls) rs := by
                -- there is nothing of this key on the right that one more could clear
                rw [← clearEarliest_min, ← clearEarliest_min key (tallied key ls)]
                refine congrArg (clearEarliest key · rs) ?_
                funext k
                by_cases hk : key l = k
                · rw [← hk, hzero, Nat.zero_min, Nat.zero_min]
                · rw [if_neg hk, Nat.add_zero]
              simp only [pairOff, hc, ih rs]
              rw [hzero, spend_of_eq_zero hzero, hright]
              rfl
          | some rs' =>
              have hspend : spend (tallied key rs) (key l) = tallied key rs' := by
                funext k
                rw [spend, tallied_of_clearFirst hc, Nat.add_sub_cancel]
              have hpos : 0 < tallied key rs (key l) := by
                rw [tallied_of_clearFirst hc]
                simp
              simp only [pairOff, hc, ih rs']
              rw [if_pos hpos, hspend, clearEarliest_clearFirst hc]

end Keys

/-! ### Differences of scalars -/

/-- How many sides of the content of a node cancel: as many as there are on the side with fewer. -/
def paired (ds : List Difference) (n : Node) : Nat :=
  min (occurrences n (lefts ds)) (occurrences n (rights ds))

/-- What is left of differences when of each content the earliest left sides and the earliest right
sides are cleared, as many as there are on the side with fewer. -/
def withoutEarliest (ds : List Difference) : List Difference :=
  (ds.mapIdx fun i d =>
    Difference.ofSides? (d.left?.filter fun a => paired ds a ≤ occurrences a (lefts (ds.take i)))
      (d.right?.filter fun b => paired ds b ≤ occurrences b (rights (ds.take i)))).reduceOption

theorem tallied_map_left (ds : List Difference) (n : Node) :
    tallied content? (ds.map (·.left?)) (content? n) = occurrences n (lefts ds) := by
  rw [lefts_eq_reduceOption]
  rfl

theorem tallied_map_right (ds : List Difference) (n : Node) :
    tallied content? (ds.map (·.right?)) (content? n) = occurrences n (rights ds) := by
  rw [rights_eq_reduceOption]
  rfl

theorem cancel_sameKey (ds : List Difference) :
    cancel (sameKey content?) ds = withoutEarliest ds := by
  rw [cancel, pairOff_sameKey]
  show ((clearEarliest content? _ _).zip (clearEarliest content? _ _)).filterMap _ = _
  rw [← clearEarliest_min, ← clearEarliest_min content? (tallied content? (ds.map (·.left?)))]
  refine (filterMap_zip_mapIdx _ _ ds).trans ?_
  simp only [← List.map_take, tallied_map_left, tallied_map_right, withoutEarliest, paired,
    Nat.min_comm]
  rfl

variable {options : CompareOptions}

/-- A scalar equals just the scalars of its content. -/
theorem silent_eq_sameKey {l : Node} (hl : IsScalar l) :
    silent options l = sameKey content? l := by
  obtain ⟨v, p, rfl⟩ := hl
  funext r
  by_cases hr : IsScalar r
  · obtain ⟨x, q, rfl⟩ := hr
    rw [silent_scalar, sameKey, Bool.eq_iff_iff, decide_eq_true_eq, ← Scalar.content_eq_iff]
    exact Option.some_inj.symm
  · have hcollection : r.kind.isCollection = true ∧ content? r = none := by
      cases r with
      | scalar x q => exact absurd ⟨x, q, rfl⟩ hr
      | mapping es q => exact ⟨rfl, rfl⟩
      | sequence is q => exact ⟨rfl, rfl⟩
    have hscalar : (Node.scalar v p).kind.isCollection = false := by cases v <;> rfl
    have hkind : (Node.scalar v p).kind ≠ r.kind := by
      intro h
      rw [h, hcollection.1] at hscalar
      cases hscalar
    rw [silent, nodes_of_kind_ne hkind (.inr hcollection.1), sameKey, hcollection.2]
    rfl

/-- Left and right sides that cancel have the same contents. -/
theorem contents_pairs {ps : List (Node × Node)} (hscalar : ∀ x ∈ ps, IsScalar x.1)
    (h : ∀ x ∈ ps, silent options x.1 x.2 = true) :
    contents (ps.map Prod.fst) = contents (ps.map Prod.snd) := by
  rw [contents, contents, List.filterMap_map, List.filterMap_map]
  refine congrArg _ (List.filterMap_congr fun x hx => ?_)
  have hkey := h x hx
  rw [silent_eq_sameKey (hscalar x hx)] at hkey
  exact of_decide_eq_true hkey

/-! ### Lists of scalars -/

variable {ls : List Node}

theorem not_sameCollection_of_isScalar {a b : Node} (h : IsScalar a) : ¬SameCollection a b := by
  obtain ⟨v, p, rfl⟩ := h
  rintro ⟨-, hcollection⟩
  cases v <;> cases hcollection

theorem accounted_scalars (hl : ∀ n ∈ ls, IsScalar n) (rs : List Node) :
    Accounted (silent .unordered) ls rs (sequences .unordered ls rs) := by
  have hitems : Accounted (silent .unordered) ls rs (items (nodes .unordered) ls rs) :=
    accounted_items fun a ha _ _ hcoll => absurd hcoll (not_sameCollection_of_isScalar (hl a ha))
  rw [sequences_unordered]
  exact hitems.trans (accounted_cancel _ _)

/-- What is left on the left has no content in common with what is left on the right. -/
theorem disjoint_contents_sequences (hl : ∀ n ∈ ls, IsScalar n) (rs : List Node) :
    Disjoint (contents (lefts (sequences .unordered ls rs)))
      (contents (rights (sequences .unordered ls rs))) := by
  rw [Multiset.disjoint_left]
  intro c hleft hright
  obtain ⟨a, ha, hac⟩ := Node.mem_contents.mp hleft
  obtain ⟨b, hb, hbc⟩ := Node.mem_contents.mp hright
  have hscalar := hl a ((accounted_scalars hl rs).mem_left ha)
  rw [sequences_unordered] at ha hb
  have hfalse := cancel_maximal ha hb
  rw [silent_eq_sameKey hscalar, sameKey, hac, hbc] at hfalse
  simp at hfalse

theorem tsub_of_disjoint {γ : Type} [DecidableEq γ] {s t : Multiset γ} (h : Disjoint s t) :
    s - t = s := by
  rw [← Multiset.sub_inter, Multiset.inter_eq_zero_iff_disjoint.mpr h, tsub_zero]

/-- **What is left is the difference of multisets**, on either side.  What has cancelled is the same
on both sides, and what is left has nothing in common. -/
theorem contents_sequences (hl : ∀ n ∈ ls, IsScalar n) (rs : List Node) :
    contents (lefts (sequences .unordered ls rs)) = contents ls - contents rs ∧
      contents (rights (sequences .unordered ls rs)) = contents rs - contents ls := by
  obtain ⟨ps, hps, hleft, hright⟩ := accounted_scalars hl rs
  have hscalar : ∀ x ∈ ps, IsScalar x.1 := fun x hx =>
    hl _ (hleft.mem_iff.mpr (List.mem_append_right _ (List.mem_map_of_mem hx)))
  have hdisjoint := disjoint_contents_sequences hl rs
  have hls : contents ls = contents (lefts (sequences .unordered ls rs)) +
      contents (ps.map Prod.fst) := by
    rw [Node.contents_perm hleft, Node.contents_append]
  have hrs : contents rs = contents (rights (sequences .unordered ls rs)) +
      contents (ps.map Prod.fst) := by
    rw [Node.contents_perm hright, Node.contents_append, contents_pairs hscalar hps]
  constructor
  · calc contents (lefts (sequences .unordered ls rs))
      _ = contents (lefts (sequences .unordered ls rs)) -
            contents (rights (sequences .unordered ls rs)) := (tsub_of_disjoint hdisjoint).symm
      _ = contents ls - contents rs := by rw [hls, hrs, add_tsub_add_eq_tsub_right]
  · calc contents (rights (sequences .unordered ls rs))
      _ = contents (rights (sequences .unordered ls rs)) -
            contents (lefts (sequences .unordered ls rs)) :=
          (tsub_of_disjoint hdisjoint.symm).symm
      _ = contents rs - contents ls := by rw [hls, hrs, add_tsub_add_eq_tsub_right]

/-- The scalars as nodes. -/
def leaves (xs : List (Scalar × Place)) : List Node :=
  xs.map fun x => .scalar x.1 x.2

theorem isScalar_of_mem_leaves {xs : List (Scalar × Place)} {n : Node} (h : n ∈ leaves xs) :
    IsScalar n := by
  obtain ⟨x, -, rfl⟩ := List.mem_map.mp h
  exact ⟨x.1, x.2, rfl⟩

theorem noSequences_of_isScalar {n : Node} (h : IsScalar n) : NoSequences n := by
  obtain ⟨v, p, rfl⟩ := h
  intro q is place hq
  cases q with
  | nil => cases hq
  | cons s q => simp at hq

theorem sequences_scalars (hl : ∀ n ∈ ls, IsScalar n) (rs : List Node) :
    sequences .unordered ls rs = withoutEarliest (sequences .positional ls rs) := by
  have hpositional : sequences .positional ls rs = items (nodes .unordered) ls rs :=
    (items_of_noSequences fun n hn => noSequences_of_isScalar (hl n hn)).symm
  have hitems : Accounted (silent .unordered) ls rs (items (nodes .unordered) ls rs) :=
    accounted_items fun a ha _ _ hcoll => absurd hcoll (not_sameCollection_of_isScalar (hl a ha))
  rw [hpositional, sequences_unordered, ← cancel_sameKey]
  exact cancel_congr fun n hn => silent_eq_sameKey (hl n (hitems.mem_left hn))

/-- A difference has a left side if it is a deletion or a modification. -/
theorem length_lefts (ds : List Difference) :
    (lefts ds).length = count .deleted ds + count .modified ds := by
  induction ds with
  | nil => rfl
  | cons d ds ih =>
      rw [count_cons, count_cons, lefts_cons]
      cases d <;> simp [Difference.kind, Difference.left?] <;> omega

/-- A difference has a right side if it is an addition or a modification. -/
theorem length_rights (ds : List Difference) :
    (rights ds).length = count .added ds + count .modified ds := by
  have hlefts := length_lefts ds
  have hrights := length_rights_add_deleted ds
  omega

/-- Nothing is left exactly if each content occurs as often on the left as on the right. -/
theorem sequences_eq_nil_iff {rs : List Node} (hl : ∀ n ∈ ls, IsScalar n)
    (hr : ∀ n ∈ rs, IsScalar n) :
    sequences .unordered ls rs = [] ↔ contents ls = contents rs := by
  obtain ⟨hleft, hright⟩ := contents_sequences hl rs
  constructor
  · intro h
    rw [h] at hleft hright
    exact le_antisymm (tsub_eq_zero_iff_le.mp hleft.symm) (tsub_eq_zero_iff_le.mp hright.symm)
  · intro h
    rw [h, tsub_self] at hleft
    rw [h, tsub_self] at hright
    have haccounted := accounted_scalars hl rs
    have hlefts := card_contents fun n hn => hl n (haccounted.mem_left hn)
    have hrights := card_contents fun n hn => hr n (haccounted.mem_right hn)
    rw [hleft] at hlefts
    rw [hright] at hrights
    exact eq_nil_of_sides (List.length_eq_zero_iff.mp hlefts.symm)
      (List.length_eq_zero_iff.mp hrights.symm)

/-- **For lists of scalars, ignoring order reports the difference of multisets**, where scalars are
alike if they do not differ.  The left sides are what occurs more often on the left and the right
sides what occurs more often on the right; of each content the earliest sides of the positional
differences have gone.  So the counts are those of the differences of multisets, and nothing is
reported exactly if one list is a permutation of the other. -/
theorem unordered_scalars_multiset_difference (xs ys : List (Scalar × Place)) :
    (∀ x y : Scalar × Place, x.1.content = y.1.content ↔
        nodes .unordered (.scalar x.1 x.2) (.scalar y.1 y.2) = []) ∧
      contents (lefts (sequences .unordered (leaves xs) (leaves ys))) =
        contents (leaves xs) - contents (leaves ys) ∧
      contents (rights (sequences .unordered (leaves xs) (leaves ys))) =
        contents (leaves ys) - contents (leaves xs) ∧
      sequences .unordered (leaves xs) (leaves ys) =
        withoutEarliest (sequences .positional (leaves xs) (leaves ys)) ∧
      count .deleted (sequences .unordered (leaves xs) (leaves ys)) +
          count .modified (sequences .unordered (leaves xs) (leaves ys)) =
        (contents (leaves xs) - contents (leaves ys)).card ∧
      count .added (sequences .unordered (leaves xs) (leaves ys)) +
          count .modified (sequences .unordered (leaves xs) (leaves ys)) =
        (contents (leaves ys) - contents (leaves xs)).card ∧
      (sequences .unordered (leaves xs) (leaves ys) = [] ↔
        contents (leaves xs) = contents (leaves ys)) := by
  have hl : ∀ n ∈ leaves xs, IsScalar n := fun _ => isScalar_of_mem_leaves
  have hr : ∀ n ∈ leaves ys, IsScalar n := fun _ => isScalar_of_mem_leaves
  have haccounted := accounted_scalars hl (leaves ys)
  obtain ⟨hleft, hright⟩ := contents_sequences hl (leaves ys)
  refine ⟨fun x y => ?_, hleft, hright, sequences_scalars hl _, ?_, ?_, sequences_eq_nil_iff hl hr⟩
  · have hsilent : silent .unordered (.scalar x.1 x.2) (.scalar y.1 y.2) = x.1.sameContent y.1 :=
      silent_scalar x.1 y.1 x.2 y.2
    rw [Scalar.content_eq_iff, ← hsilent, silent, List.isEmpty_iff]
  · rw [← hleft, ← length_lefts, card_contents fun n hn => hl n (haccounted.mem_left hn)]
  · rw [← hright, ← length_rights, card_contents fun n hn => hr n (haccounted.mem_right hn)]

end Compare

end YamlDelta
