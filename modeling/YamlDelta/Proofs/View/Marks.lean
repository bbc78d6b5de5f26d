/-
Which lines of the merged document are marked.

A report says which nodes the marked lines should come from: each difference has its left
side removed and its right side added (`reported`).  The merged document marks all of these
pieces, in this order.  What it may mark beside them are nodes that stand on one side only:
the view takes them for added or removed without asking for a difference.  So it marks
exactly what is reported if and only if every such node is reported (`Accounted`).

Positional comparison reports all of them, hence its differences are exactly the marked
lines.  When order is ignored, a node that stands on one side only may have cancelled, and
is marked nevertheless.
-/
import Mathlib.Data.List.Flatten
import YamlDelta.Proofs.Markup.Placement
import YamlDelta.Proofs.View.Layout

namespace YamlDelta.Unified

open Compare

/-- The line is marked. -/
def Status.isMarked : Status → Bool
  | .context => false
  | .added | .removed => true

/-- The pieces that are marked. -/
def marked (xs : List Piece) : List Piece :=
  xs.filter (·.status.isMarked)

/-- The sides of reported differences: what is on the left is removed, what is on the right is
added. -/
def reported (R : Report) : List Piece :=
  R.flatMap fun x =>
    x.2.left?.toList.map (⟨x.1, .removed, ·⟩) ++ x.2.right?.toList.map (⟨x.1, .added, ·⟩)

/-- Every node that stands on one side only, inside of collections that the report goes into, is
reported. -/
def Accounted (R : Report) (l r : Node) : Prop :=
  ∀ p x y s, Opened R l r p x y → (x.child? s).isSome ≠ (y.child? s).isSome →
    ∃ d, (p ++ [s], d) ∈ R

variable {options : CompareOptions} {ds : List Difference} {base : List Step} {R : Report}
  {l r : Node}

theorem mem_reported {R : Report} {x : Piece} (h : x ∈ reported R) :
    ∃ d, (x.location, d) ∈ R := by
  obtain ⟨⟨p, d⟩, hmem, hx⟩ := List.mem_flatMap.mp h
  rcases List.mem_append.mp hx with hx | hx <;> obtain ⟨n, -, rfl⟩ := List.mem_map.mp hx <;>
    exact ⟨d, hmem⟩

theorem reported_behind (s : Step) (R : Report) :
    reported (R.behind s) = (reported R).map (Piece.behind s) := by
  simp only [reported, Report.behind, List.flatMap_map, List.map_flatMap, List.map_append,
    List.map_map]
  rfl

theorem reported_flatMap_behind (ss : List Step) (R : Step → Report) :
    reported (ss.flatMap fun s => (R s).behind s) =
      ss.flatMap fun s => (reported (R s)).map (Piece.behind s) := by
  rw [reported, List.flatMap_assoc]
  exact List.flatMap_congr fun s _ => reported_behind s (R s)

theorem marked_flatMap {α : Type} (as : List α) (f : α → List Piece) :
    marked (as.flatMap f) = as.flatMap fun a => marked (f a) :=
  List.filter_flatMap

theorem marked_map_behind (s : Step) (xs : List Piece) :
    marked (xs.map (Piece.behind s)) = (marked xs).map (Piece.behind s) :=
  List.filter_map

/-! ### What the merged document marks -/

/-- What is marked of two nodes relates to what is reported of them, if that is so inside of them
wherever they are opened. -/
theorem reported_shown {rel : List Piece → List Piece → Prop} (hrefl : ∀ xs, rel xs xs)
    {s : Option Step} {parts : List (Step × Listing)}
    (h : Located options ds base R (some l) (some r))
    (hparts : SameCollection l r → (s = none ∨ ∃ z ∈ R, z.1 ≠ []) →
      rel (reported R) (marked (partsPieces parts))) :
    rel (reported R) (marked ((shown ds s l r parts).flatMap Listing.pieces)) := by
  rcases shown_cases h s parts with
    ⟨hcoll, hopen, hshown⟩ | ⟨rfl, -, hshown⟩ | ⟨d, hd, rfl, hshown⟩ <;> rw [hshown]
  · rw [List.flatMap_singleton]
    exact hparts hcoll hopen
  · exact hrefl []
  · rcases hd with rfl | rfl | rfl
    · exact hrefl _
    · rcases s with _ | k | i <;> exact hrefl _
    · exact hrefl _

/-- A node that stands on one side only is marked, as it is reported if it is. -/
theorem reported_oneSided {a b : Option Node} {s : Step} (h : Reports options a b R)
    (hone : a.isSome ≠ b.isSome) {d : Difference} (hd : ([], d) ∈ R) :
    reported R = marked ((atStep ds s a b).flatMap Listing.pieces) := by
  obtain ⟨rfl, hleft, hright⟩ := h.eq_singleton hd
  cases a with
  | none =>
      cases b with
      | none => exact absurd rfl hone
      | some y =>
          cases d with
          | added m =>
              rcases hright with hright | hright
              · cases hright
              · cases hright
                rfl
          | deleted m => simp [Difference.left?] at hleft
          | modified m n => simp [Difference.left?] at hleft
  | some x =>
      cases b with
      | some y => exact absurd rfl hone
      | none =>
          cases d with
          | deleted m =>
              rcases hleft with hleft | hleft
              · cases hleft
              · cases hleft
                rfl
          | added m => simp [Difference.right?] at hright
          | modified m n => simp [Difference.right?] at hright

theorem eq_nil_or_mem_of_oneSided {a b : Option Node} (h : Reports options a b R)
    (hone : a.isSome ≠ b.isSome) : R = [] ∨ ∃ d, ([], d) ∈ R := by
  have hgo : ¬GoOn a b := by
    rintro ⟨-⟩
    exact hone rfl
  rcases h.eq_of_not_goOn hgo with hnil | ⟨d, rfl, -⟩
  · exact .inl hnil
  · exact .inr ⟨d, List.mem_singleton.mpr rfl⟩

theorem marked_listing (ds : List Difference) (l r : Node) :
    marked (partsPieces (listing ds l r)) =
      (steps l r).flatMap fun s =>
        (marked ((atStep ds s (l.child? s) (r.child? s)).flatMap Listing.pieces)).map
          (Piece.behind s) := by
  rw [partsPieces_listing, marked_flatMap]
  refine List.flatMap_congr fun s _ => ?_
  rw [← List.map_flatMap, marked_map_behind]

/-- Inside of two collections the merged document marks all that is reported. -/
theorem reported_sublist_listing (hcoll : SameCollection l r)
    (h : Located options ds base R (some l) (some r)) :
    (reported R).Sublist (marked (partsPieces (listing ds l r))) := by
  induction l using Node.child_induct generalizing r base R with
  | h l ih =>
      obtain ⟨R, rfl, hR⟩ := h.exists_inside hcoll
      rw [reported_flatMap_behind, marked_listing]
      refine .flatMap_right _ fun s hs => .map _ ?_
      have hchild := hR s hs
      rcases children_of_mem_steps hcoll hs with hone | ⟨x, y, hx, hy⟩
      · rcases eq_nil_or_mem_of_oneSided hchild.reports hone with hnil | ⟨d, hd⟩
        · rw [hnil]
          exact List.nil_sublist _
        · rw [← reported_oneSided hchild.reports hone hd]
      · rw [hx, hy] at hchild ⊢
        exact reported_shown List.Sublist.refl hchild fun hcoll' _ => ih s x hx hcoll' hchild

theorem Accounted.child {ss : List Step} {R : Step → Report} {s : Step} {x y : Node}
    (h : Accounted (ss.flatMap fun s => (R s).behind s) l r) (hs : s ∈ ss)
    (hx : l.child? s = some x) (hy : r.child? s = some y) (hbelow : ∃ z ∈ R s, z.1 ≠ []) :
    Accounted (R s) x y := by
  intro p u v t hopened hone
  obtain ⟨d, hd⟩ := h (s :: p) u v t ((opened_cons hs).mpr ⟨x, y, hx, hy, hbelow, hopened⟩) hone
  obtain ⟨s', -, q, heq, hd⟩ := mem_flatMap_behind.mp hd
  obtain ⟨rfl, rfl⟩ := List.cons.inj heq
  exact ⟨d, hd⟩

/-- Inside of two collections the merged document marks just what is reported, if nothing that
stands on one side only is left out. -/
theorem reported_eq_listing (hcoll : SameCollection l r)
    (h : Located options ds base R (some l) (some r)) (hacc : Accounted R l r) :
    reported R = marked (partsPieces (listing ds l r)) := by
  induction l using Node.child_induct generalizing r base R with
  | h l ih =>
      obtain ⟨R, rfl, hR⟩ := h.exists_inside hcoll
      rw [reported_flatMap_behind, marked_listing]
      refine List.flatMap_congr fun s hs => congrArg (List.map _) ?_
      have hchild := hR s hs
      rcases children_of_mem_steps hcoll hs with hone | ⟨x, y, hx, hy⟩
      · obtain ⟨d, hd⟩ := hacc [] l r s (opened_nil.mpr ⟨rfl, rfl, hcoll⟩) hone
        obtain ⟨s', -, q, heq, hd⟩ := mem_flatMap_behind.mp hd
        obtain ⟨rfl, rfl⟩ := List.cons.inj heq
        exact reported_oneSided hchild.reports hone hd
      · rw [hx, hy] at hchild ⊢
        exact reported_shown (fun _ => rfl) hchild fun hcoll' hbelow =>
          ih s x hx hcoll' hchild (hacc.child hs hx hy (by simpa using hbelow))

/-- **The merged document marks all that is reported.** -/
theorem reported_sublist (h : Located options ds [] R (some l) (some r)) :
    (reported R).Sublist (marked ((documentListing ds l r).flatMap Listing.pieces)) :=
  reported_shown List.Sublist.refl h fun hcoll _ => reported_sublist_listing hcoll h

/-- **The merged document marks just what is reported**, if nothing that stands on one side only is
left out. -/
theorem reported_eq (h : Located options ds [] R (some l) (some r)) (hacc : Accounted R l r) :
    reported R = marked ((documentListing ds l r).flatMap Listing.pieces) :=
  reported_shown (fun _ => rfl) h fun hcoll _ => reported_eq_listing hcoll h hacc

/-! ### Positional comparison -/

/-- Positional comparison leaves out no node that stands on one side only. -/
theorem accounted_positional (h : Reports .positional (some l) (some r) R) : Accounted R l r := by
  intro p x y s hopened hone
  have hpoint : DivergencePoint (some l) (some r) (p ++ [s]) := by
    constructor
    · intro q hq hne
      rcases List.prefix_concat_iff.mp hq with heq | hq
      · exact absurd heq hne
      · exact hopened.goOn h hq
    · rw [Node.at?_append, Node.at?_append, hopened.left, hopened.right]
      show Part (x.child? s) (y.child? s)
      cases hx : x.child? s with
      | none =>
          cases hy : y.child? s with
          | none => simp [hx, hy] at hone
          | some d => exact .rightOnly d
      | some c =>
          cases hy : y.child? s with
          | none => exact .leftOnly c
          | some d => simp [hx, hy] at hone
  obtain ⟨d, hd, -⟩ := h.of_divergencePoint hpoint
  exact ⟨d, hd⟩

/-- **In positional mode the marked lines are exactly the reported differences.**  In the order of
the comparison each difference has the lines of its left side removed and those of its right side
added, set into the collections around them. -/
theorem positional_marks {left right : Stream} {i : Nat} (hl : left.document i = some l)
    (hr : right.document i = some r) (hleft : l.Placed "") (hright : r.Placed "") :
    ∃ R : Report, R.map Prod.snd = Compare.nodes .positional l r ∧
      (∀ x ∈ R, x.2.path = Path.render x.1) ∧
      LaysOut (reported R)
        ((documentAt left right (.ofStreams .positional left right) i).filter
          (·.status.isMarked)) := by
  obtain ⟨R, hR, hpaths, h⟩ := exists_located .positional hleft hright
  refine ⟨R, hR, hpaths, ?_⟩
  rw [documentAt_eq hl hr, document_eq_lines h, reported_eq h (accounted_positional h.reports)]
  exact laysOut_filter_listing _ rfl _

/-- The marked lines of an item that is replaced by another. -/
theorem positional_marks_of_item :
    ∃ left right l r, Stream.ofText "a: [x]\n" = .ok left ∧ Stream.ofText "a: [y]\n" = .ok right ∧
      left.document 0 = some l ∧ right.document 0 = some r ∧ l.Placed "" ∧ r.Placed "" ∧
      ∃ R : Report, R.map Prod.snd = Compare.nodes .positional l r ∧
        (∀ x ∈ R, x.2.path = Path.render x.1) ∧
        LaysOut (reported R)
          ((documentAt left right (.ofStreams .positional left right) 0).filter
            (·.status.isMarked)) := by
  obtain ⟨left, right, l, r, hleft, hright, hl, hr, -⟩ :=
    Stream.exists_of_firstDocuments "a: [x]\n" "a: [y]\n" (fun _ _ _ _ => true) (by decide +kernel)
  have hl' := Stream.placed_of_ofText hleft hl
  have hr' := Stream.placed_of_ofText hright hr
  exact ⟨left, right, l, r, hleft, hright, hl, hr, hl', hr', positional_marks hl hr hl' hr'⟩

/-! ### Without regard to order -/

/-- What stands on one side only is shown, and marked. -/
theorem exists_marked_atStep (ds : List Difference) {a b : Option Node}
    (hone : a.isSome ≠ b.isSome) (s : Step) :
    ∃ z ∈ marked ((atStep ds s a b).flatMap Listing.pieces), z.location = [] := by
  cases a with
  | none =>
      cases b with
      | none => exact absurd rfl hone
      | some d => exact ⟨⟨[], .added, d⟩, List.mem_singleton.mpr rfl, rfl⟩
  | some c =>
      cases b with
      | none => exact ⟨⟨[], .removed, c⟩, List.mem_singleton.mpr rfl, rfl⟩
      | some d => exact absurd rfl hone

/-- What stands on one side only, inside of collections that the report goes into, is marked. -/
theorem exists_marked_of_oneSided {p : List Step} {x y : Node} {s : Step}
    (h : Located options ds base R (some l) (some r)) (hopened : Opened R l r p x y)
    (hone : (x.child? s).isSome ≠ (y.child? s).isSome) :
    ∃ z ∈ marked (partsPieces (listing ds l r)), z.location = p ++ [s] := by
  have hcoll := hopened.sameCollection h.reports
  rw [marked_listing]
  induction p generalizing l r base R with
  | nil =>
      obtain ⟨rfl, rfl, -⟩ := opened_nil.mp hopened
      obtain ⟨z, hz, hlocation⟩ := exists_marked_atStep ds hone s
      refine ⟨z.behind s, ?_, congrArg (s :: ·) hlocation⟩
      exact List.mem_flatMap.mpr ⟨s, mem_steps_of_oneSided hcoll hone, List.mem_map_of_mem hz⟩
  | cons t p ih =>
      obtain ⟨R, rfl, hR⟩ := h.exists_inside hcoll
      have ht := hopened.mem_steps hcoll
      obtain ⟨c, d, hc, hd, hbelow, hopened'⟩ := (opened_cons ht).mp hopened
      have hchild := hR t ht
      rw [hc, hd] at hchild
      have hcoll' := hopened'.sameCollection hchild.reports
      obtain ⟨z, hz, hlocation⟩ := ih hchild hopened' hcoll'
      refine ⟨z.behind t, List.mem_flatMap.mpr ⟨t, ht, List.mem_map_of_mem ?_⟩,
        congrArg (t :: ·) hlocation⟩
      rw [hc, hd, atStep, shown_eq_opened hcoll' hchild (.inr hbelow), List.flatMap_singleton,
        Listing.pieces, marked_listing]
      exact hz

/-! ### Counting lines -/

theorem rows_ne_nil (x : Piece) : x.rows ≠ [] := by
  intro hnil
  have hlines := List.map_eq_nil_iff.mp (List.map_eq_nil_iff.mp hnil)
  exact writer_ne_nil _ _ hlines

/-- A sublist that has as much in all, where everything has something, is the whole list. -/
theorem eq_of_sublist_of_length_eq {α β : Type} {as bs : List α} {f : α → List β}
    (h : as.Sublist bs) (hne : ∀ b, f b ≠ [])
    (hlength : (as.flatMap f).length = (bs.flatMap f).length) : as = bs := by
  induction h with
  | slnil => rfl
  | cons b h ih =>
      have hle := (h.flatMap f).length_le
      have hb := List.length_pos_of_ne_nil (hne b)
      rw [List.flatMap_cons, List.length_append] at hlength
      omega
  | cons_cons b h ih =>
      rw [List.flatMap_cons, List.flatMap_cons, List.length_append, List.length_append,
        Nat.add_left_cancel_iff] at hlength
      rw [ih hlength]

/-- Pieces among others whose lines are already all the lines of these are all of them. -/
theorem LaysOut.eq_of_sublist {xs ys zs : List Piece} {ls : List Line} (h : LaysOut xs ls)
    (hperm : xs.Perm ys) (hsub : ys.Sublist zs) (h' : LaysOut zs ls) : ys = zs := by
  refine eq_of_sublist_of_length_eq hsub rows_ne_nil ?_
  rw [← (hperm.flatMap_right Piece.rows).length_eq, List.Forall₂.length_eq h,
    List.Forall₂.length_eq h']

theorem filter_marked (keep : Status → Bool) (hcontext : keep .context = false)
    (xs : List Piece) : (marked xs).filter (keep ·.status) = xs.filter (keep ·.status) := by
  rw [marked, List.filter_filter]
  refine List.filter_congr fun x _ => ?_
  cases hx : x.status <;> simp [Status.isMarked, hcontext]

/-- The lines of one status are the sides of the differences that have it, in some order. -/
def Accurate (status : Status) (R : Report) (lines : List Line) : Prop :=
  ∃ xs, xs.Perm ((reported R).filter (·.status = status)) ∧
    LaysOut xs (lines.filter (·.status = status))

theorem accurate_iff {status : Status} (hmarked : status ≠ .context)
    {ts : List Listing} (hsub : (reported R).Sublist (marked (ts.flatMap Listing.pieces))) :
    Accurate status R (ts.flatMap (·.lines none)) ↔
      (reported R).filter (·.status = status) =
        (marked (ts.flatMap Listing.pieces)).filter (·.status = status) := by
  have hcontext : decide (Status.context = status) = false :=
    decide_eq_false fun h => hmarked h.symm
  have hlines := laysOut_filter_listing (decide <| · = status) hcontext ts
  have hpieces := filter_marked (decide <| · = status) hcontext
    (ts.flatMap Listing.pieces)
  rw [← hpieces] at hlines
  constructor
  · rintro ⟨xs, hperm, h⟩
    exact h.eq_of_sublist hperm (hsub.filter _) hlines
  · intro heq
    exact ⟨_, .refl _, heq ▸ hlines⟩

/-- Nothing but what is reported is marked exactly if nothing that stands on one side only is left
out. -/
theorem accurate_iff_accounted (h : Located options ds [] R (some l) (some r)) :
    (Accurate .removed R (document ds (some l) (some r)) ∧
      Accurate .added R (document ds (some l) (some r))) ↔ Accounted R l r := by
  have hsub := reported_sublist h
  rw [document_eq_lines h, accurate_iff (by decide) hsub, accurate_iff (by decide) hsub]
  constructor
  · rintro ⟨hremoved, hadded⟩ p x y s hopened hone
    have hcoll := hopened.sameCollection h.reports
    obtain ⟨z, hz, hlocation⟩ := exists_marked_of_oneSided h hopened hone
    have hmem : z ∈ marked ((documentListing ds l r).flatMap Listing.pieces) := by
      rw [documentListing, shown_eq_opened hcoll h (.inl rfl), List.flatMap_singleton]
      exact hz
    have hstatus := (List.mem_filter.mp hmem).2
    have hreported : z ∈ reported R := by
      cases hs : z.status with
      | context => simp [hs, Status.isMarked] at hstatus
      | added =>
          refine (List.mem_filter.mp (hadded ▸ List.mem_filter.mpr ⟨hmem, ?_⟩)).1
          exact decide_eq_true hs
      | removed =>
          refine (List.mem_filter.mp (hremoved ▸ List.mem_filter.mpr ⟨hmem, ?_⟩)).1
          exact decide_eq_true hs
    rw [← hlocation]
    exact mem_reported hreported
  · intro hacc
    rw [← reported_eq h hacc]
    exact ⟨rfl, rfl⟩

/-- **Without regard to order the marked lines are exactly the reported differences if and only if
every node that stands on one side only is reported.**  The report is that of the comparison: its
differences are found at the locations that their paths lead to. -/
theorem unordered_marks_iff {leftText rightText : String} {left right : Stream} {i : Nat}
    (hleft : Stream.ofText leftText = .ok left) (hright : Stream.ofText rightText = .ok right)
    (hl : left.document i = some l) (hr : right.document i = some r) :
    ∃ R : Report, R.map Prod.snd = Compare.nodes .unordered l r ∧
      (∀ x ∈ R, x.2.path = Path.render x.1) ∧
      ((Accurate .removed R (documentAt left right (.ofStreams .unordered left right) i) ∧
        Accurate .added R (documentAt left right (.ofStreams .unordered left right) i)) ↔
          Accounted R l r) := by
  have hl' := Stream.placed_of_ofText hleft hl
  have hr' := Stream.placed_of_ofText hright hr
  obtain ⟨R, hR, hpaths, h⟩ := exists_located .unordered hl' hr'
  refine ⟨R, hR, hpaths, ?_⟩
  rw [documentAt_eq hl hr]
  exact accurate_iff_accounted h

theorem unordered_marks_of_swap :
    ∃ left right l r, Stream.ofText "[1, 2]\n" = .ok left ∧ Stream.ofText "[2, 3]\n" = .ok right ∧
      left.document 0 = some l ∧ right.document 0 = some r ∧
      ∃ R : Report, R.map Prod.snd = Compare.nodes .unordered l r ∧
        (∀ x ∈ R, x.2.path = Path.render x.1) ∧
        ((Accurate .removed R (documentAt left right (.ofStreams .unordered left right) 0) ∧
          Accurate .added R (documentAt left right (.ofStreams .unordered left right) 0)) ↔
            Accounted R l r) := by
  obtain ⟨left, right, l, r, hleft, hright, hl, hr, -⟩ :=
    Stream.exists_of_firstDocuments "[1, 2]\n" "[2, 3]\n" (fun _ _ _ _ => true)
      (by decide +kernel)
  exact ⟨left, right, l, r, hleft, hright, hl, hr, unordered_marks_iff hleft hright hl hr⟩

/-- An item that has cancelled with one at another index is marked as added, where the right
sequence is the longer one. -/
theorem cancelled_item_marked :
    ∃ left right l r, Stream.ofText "[a]\n" = .ok left ∧ Stream.ofText "[b, a]\n" = .ok right ∧
      left.document 0 = some l ∧ right.document 0 = some r ∧
      documentAt left right (.ofStreams .unordered left right) 0 =
        [⟨.added, "- b"⟩, ⟨.added, "- a"⟩] ∧
      ¬∃ R : Report, R.map Prod.snd = Compare.nodes .unordered l r ∧
        (∀ x ∈ R, x.2.path = Path.render x.1) ∧
        Accurate .removed R (documentAt left right (.ofStreams .unordered left right) 0) ∧
        Accurate .added R (documentAt left right (.ofStreams .unordered left right) 0) := by
  obtain ⟨left, right, l, r, hleft, hright, hl, hr, htest⟩ :=
    Stream.exists_of_firstDocuments "[a]\n" "[b, a]\n"
      (fun left right l r =>
        documentAt left right (.ofStreams .unordered left right) 0 ==
            [⟨.added, "- b"⟩, ⟨.added, "- a"⟩] &&
          (SameCollection l r && (l.child? (.index 1)).isSome != (r.child? (.index 1)).isSome) &&
          (Compare.nodes .unordered l r).map (·.path) == ["[0]"])
      (by decide +kernel)
  simp only [Bool.and_eq_true, beq_iff_eq, decide_eq_true_eq, bne_iff_ne] at htest
  obtain ⟨⟨hlines, hcoll, hone⟩, hreported⟩ := htest
  refine ⟨left, right, l, r, hleft, hright, hl, hr, hlines, ?_⟩
  rintro ⟨R, hR, hpaths, haccurate⟩
  have hl' := Stream.placed_of_ofText hleft hl
  have hr' := Stream.placed_of_ofText hright hr
  obtain ⟨R', hR', hpaths', h⟩ := exists_located .unordered hl' hr'
  cases report_eq (hR.trans hR'.symm) hpaths hpaths'
  rw [documentAt_eq hl hr] at haccurate
  have hacc := (accurate_iff_accounted h).mp haccurate
  obtain ⟨d, hd⟩ := hacc [] l r (.index 1) (opened_nil.mpr ⟨rfl, rfl, hcoll⟩) hone
  have hpath : d.path ∈ (Compare.nodes .unordered l r).map (·.path) := by
    rw [← hR, List.map_map]
    exact List.mem_map.mpr ⟨_, hd, rfl⟩
  rw [hreported, hpaths _ hd] at hpath
  exact absurd hpath (show Path.render [.index 1] ∉ ["[0]"] by decide +kernel)

end YamlDelta.Unified
