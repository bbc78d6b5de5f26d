/-
Which values of the right document the merged document shows.

Whatever is not removed is shown as it is on the right.  So a node of the right document is
lost only where its side of a position is left out, and that happens for one reason: the
left node there has a deletion of its own, although the right one is still there.  Only
comparison without regard to order reports such deletions, when the right node has
cancelled.  An item of a sequence is then kept as context; the value of a key is not, and
neither is anything below it.
-/
import YamlDelta.Proofs.Markup.Placement
import YamlDelta.Proofs.View.Layout

namespace YamlDelta.Unified

open Compare

/-- The node at a location is shown, by itself or within another, and not as removed. -/
def Shown (ts : List Listing) (p : List Step) (n : Node) : Prop :=
  ∃ x ∈ ts.flatMap Listing.pieces, x.status ≠ .removed ∧
    ∃ q, p = x.location ++ q ∧ Node.at? (some x.node) q = some n

/-- At the location, or on the way to it, a left node is reported as deleted where the step that
leads there is no index.  The step before the report's own root may be given. -/
def Deleted (R : Report) (s : Option Step) (p : List Step) : Prop :=
  ∃ q m, (q, Difference.deleted m) ∈ R ∧ q <+: p ∧ ∀ i, (s.toList ++ q).getLast? ≠ some (.index i)

variable {options : CompareOptions} {ds : List Difference} {base : List Step} {R : Report}
  {l r n : Node} {s : Option Step} {t : Step} {p : List Step}

/-! ### One step -/

theorem shown_singleton_whole {status : Status} {m : Node} :
    Shown [.whole status m] p n ↔ status ≠ .removed ∧ Node.at? (some m) p = some n := by
  constructor
  · rintro ⟨x, hx, hstatus, q, rfl, hn⟩
    rw [List.flatMap_singleton, Listing.pieces, List.mem_singleton] at hx
    subst hx
    exact ⟨hstatus, hn⟩
  · rintro ⟨hstatus, hn⟩
    exact ⟨⟨[], status, m⟩, List.mem_singleton.mpr rfl, hstatus, p, rfl, hn⟩

theorem shown_append {ts us : List Listing} :
    Shown (ts ++ us) p n ↔ Shown ts p n ∨ Shown us p n := by
  simp only [Shown, List.flatMap_append, List.mem_append, or_and_right, exists_or]

/-- What is shown behind a step is shown where the step leads. -/
theorem shown_opened_listing (ht : t ∈ steps l r) :
    Shown [.opened (listing ds l r)] (t :: p) n ↔
      Shown (atStep ds t (l.child? t) (r.child? t)) p n := by
  unfold Shown
  rw [List.flatMap_singleton, Listing.pieces, partsPieces_listing]
  constructor
  · rintro ⟨x, hx, hstatus, q, heq, hn⟩
    obtain ⟨s, -, hx⟩ := List.mem_flatMap.mp hx
    rw [← List.map_flatMap] at hx
    obtain ⟨y, hy, rfl⟩ := List.mem_map.mp hx
    obtain ⟨rfl, rfl⟩ := List.cons.inj heq
    exact ⟨y, hy, hstatus, q, rfl, hn⟩
  · rintro ⟨x, hx, hstatus, q, rfl, hn⟩
    refine ⟨x.behind t, List.mem_flatMap.mpr ⟨t, ht, ?_⟩, hstatus, q, rfl, hn⟩
    rw [← List.map_flatMap]
    exact List.mem_map_of_mem hx

theorem deleted_nil : ¬Deleted [] s p := by
  rintro ⟨q, m, hmem, -⟩
  cases hmem

theorem deleted_singleton {d : Difference} :
    Deleted [([], d)] s p ↔ (∃ m, d = .deleted m) ∧ ∀ i, s ≠ some (.index i) := by
  constructor
  · rintro ⟨q, m, hmem, -, hlast⟩
    obtain ⟨rfl, rfl⟩ := Prod.mk.inj (List.mem_singleton.mp hmem)
    refine ⟨⟨m, rfl⟩, fun i hs => hlast i ?_⟩
    rw [hs]
    rfl
  · rintro ⟨⟨m, rfl⟩, hs⟩
    refine ⟨[], m, List.mem_singleton.mpr rfl, List.nil_prefix, fun i hlast => hs i ?_⟩
    cases s with
    | none => cases hlast
    | some t => exact hlast

/-- A deletion behind a step is a deletion where the step leads. -/
theorem deleted_flatMap_behind {ss : List Step} {R : Step → Report} (ht : t ∈ ss) :
    Deleted (ss.flatMap fun s => (R s).behind s) s (t :: p) ↔ Deleted (R t) (some t) p := by
  constructor
  · rintro ⟨q, m, hmem, hprefix, hlast⟩
    obtain ⟨u, -, q, rfl, hmem'⟩ := mem_flatMap_behind.mp hmem
    obtain ⟨rfl, hprefix'⟩ := List.cons_prefix_cons.mp hprefix
    exact ⟨q, m, hmem', hprefix', fun i => by simpa using hlast i⟩
  · rintro ⟨q, m, hmem, hprefix, hlast⟩
    refine ⟨t :: q, m, mem_flatMap_behind.mpr ⟨t, ht, q, rfl, hmem⟩, ?_, fun i => ?_⟩
    · exact List.cons_prefix_cons.mpr ⟨rfl, hprefix⟩
    · simpa using hlast i

/-- Unless the nodes are opened, the right one is shown, or left out with all that is in it. -/
theorem shown_changed_iff {d : Difference} (hd : d = .added r ∨ d = .deleted l ∨ d = .modified l r)
    (hn : Node.at? (some r) p = some n) :
    Shown (changed s l r d) p n ↔ ¬Deleted [([], d)] s p := by
  rw [deleted_singleton]
  rcases hd with rfl | rfl | rfl
  · simp [changed, shown_singleton_whole, hn]
  · rcases s with _ | k | i
    · simp [changed, shown_singleton_whole]
    · simp [changed, shown_singleton_whole]
    · rw [changed, ← List.singleton_append, shown_append, shown_singleton_whole,
        shown_singleton_whole]
      simp [hn]
  · rw [changed, ← List.singleton_append, shown_append, shown_singleton_whole,
      shown_singleton_whole]
    simp [hn]

/-- A node that is only on the right is never left out. -/
theorem not_deleted_rightOnly (h : Reports options none (some r) R) : ¬Deleted R s p := by
  rintro ⟨q, m, hmem, -, -⟩
  rcases (h.of_mem hmem).2.left with hleft | hleft
  · cases hleft
  · rw [Node.at?_none] at hleft
    cases hleft

/-! ### The whole way -/

/-- **A scalar on the right is shown unless its side is left out on the way to it.** -/
theorem shown_iff_not_deleted {v : Scalar} {place : Place}
    (h : Located options ds base R (some l) (some r))
    (hleaf : Node.at? (some r) p = some (.scalar v place)) :
    Shown (shown ds s l r (listing ds l r)) p (.scalar v place) ↔ ¬Deleted R s p := by
  induction p generalizing l r R base s with
  | nil =>
      rcases shown_cases h s (listing ds l r) with
        ⟨hcoll, -, -⟩ | ⟨rfl, -, hshown⟩ | ⟨d, hd, rfl, hshown⟩
      · -- a scalar is not opened
        cases hleaf
        have hkind := hcoll.2
        rw [hcoll.1] at hkind
        cases v <;> cases hkind
      · simp [hshown, shown_singleton_whole, hleaf, deleted_nil]
      · rw [hshown]
        exact shown_changed_iff hd hleaf
  | cons t p ih =>
      rcases shown_cases h s (listing ds l r) with
        ⟨hcoll, -, hshown⟩ | ⟨rfl, -, hshown⟩ | ⟨d, hd, rfl, hshown⟩
      · rw [Node.at?_cons, Option.bind_some] at hleaf
        cases hy : r.child? t with
        | none => simp [hy] at hleaf
        | some y =>
            obtain ⟨R, rfl, hR⟩ := h.exists_inside hcoll
            have ht : t ∈ steps l r := (mem_steps hcoll t).mpr (.inr (by rw [hy]; rfl))
            have hchild := hR t ht
            rw [hshown, shown_opened_listing ht, deleted_flatMap_behind ht]
            rw [hy] at hleaf hchild ⊢
            cases hx : l.child? t with
            | none =>
                rw [hx] at hchild
                rw [atStep, shown_singleton_whole]
                exact iff_of_true ⟨by decide, hleaf⟩ (not_deleted_rightOnly hchild.reports)
            | some x =>
                rw [hx] at hchild
                exact ih hchild hleaf
      · simp [hshown, shown_singleton_whole, hleaf, deleted_nil]
      · rw [hshown]
        exact shown_changed_iff hd hleaf

/-- What is shown has its lines in the merged document. -/
theorem Shown.shows {ts : List Listing} (h : Shown ts p n) :
    ∃ status, status ≠ .removed ∧ Shows (ts.flatMap (·.lines none)) ⟨p, status, n⟩ := by
  obtain ⟨x, hx, hstatus, q, rfl, hn⟩ := h
  exact ⟨x.status, hstatus, (shows_of_mem_pieces hx).at? hn⟩

/-- What is shown of two documents that are compared without regard to order. -/
def unorderedListing (l r : Node) : List Listing :=
  documentListing (Difference.sort (Compare.nodes .unordered l r)) l r

/-- **Without regard to order a scalar of the right document is shown if and only if no left node is
reported as deleted at its location, or on the way to it, where no index leads.**  What is shown has
its lines, as they are written on their own, among the context or the added lines of the merged
document, set into the collections around its location. -/
theorem right_scalar_shown_iff {leftText rightText : String} {left right : Stream} {i : Nat}
    (hleft : Stream.ofText leftText = .ok left) (hright : Stream.ofText rightText = .ok right)
    (hl : left.document i = some l) (hr : right.document i = some r) :
    ∃ R : Report, R.map Prod.snd = Compare.nodes .unordered l r ∧
      (∀ x ∈ R, x.2.path = Path.render x.1) ∧
      documentAt left right (.ofStreams .unordered left right) i =
        (unorderedListing l r).flatMap (·.lines none) ∧
      ∀ p v place, Node.at? (some r) p = some (.scalar v place) →
        (Shown (unorderedListing l r) p (.scalar v place) ↔ ¬Deleted R none p) ∧
        (Shown (unorderedListing l r) p (.scalar v place) → ∃ status, status ≠ .removed ∧
          Shows (documentAt left right (.ofStreams .unordered left right) i)
            ⟨p, status, .scalar v place⟩) := by
  have hl' := Stream.placed_of_ofText hleft hl
  have hr' := Stream.placed_of_ofText hright hr
  obtain ⟨R, hR, hpaths, h⟩ := exists_located .unordered hl' hr'
  have hlines := document_eq_lines h
  rw [documentAt_eq hl hr]
  refine ⟨R, hR, hpaths, hlines, fun p v place hleaf => ⟨?_, fun hshown => ?_⟩⟩
  · exact shown_iff_not_deleted h hleaf
  · rw [hlines]
    exact hshown.shows

/-- Where an item has cancelled it is kept as context, although the left one is removed. -/
theorem right_scalar_shown_of_cancelled :
    ∃ left right l r v place, Stream.ofText "- 1\n- \x7bk: x\x7d\n" = .ok left ∧
      Stream.ofText "- \x7bk: x\x7d\n- 2\n" = .ok right ∧
      left.document 0 = some l ∧ right.document 0 = some r ∧
      (Compare.nodes .unordered l r).map Difference.path = ["[0]", "[1]"] ∧
      Node.at? (some r) [.index 0, .key "k"] = some (.scalar v place) ∧
      documentAt left right (.ofStreams .unordered left right) 0 =
        [⟨.removed, "- 1"⟩, ⟨.context, "- k: x"⟩, ⟨.added, "- 2"⟩] ∧
      ∃ status, status ≠ .removed ∧
        Shows (documentAt left right (.ofStreams .unordered left right) 0)
          ⟨[.index 0, .key "k"], status, .scalar v place⟩ := by
  obtain ⟨left, right, l, r, hleft, hright, hl, hr, htest⟩ :=
    Stream.exists_of_firstDocuments "- 1\n- \x7bk: x\x7d\n" "- \x7bk: x\x7d\n- 2\n"
      (fun left right l r =>
        (Compare.nodes .unordered l r).map Difference.path == ["[0]", "[1]"] &&
          documentAt left right (.ofStreams .unordered left right) 0 ==
            [⟨.removed, "- 1"⟩, ⟨.context, "- k: x"⟩, ⟨.added, "- 2"⟩] &&
          (Node.at? (some r) [.index 0, .key "k"]).any (·.kind == .string))
      (by decide +kernel)
  simp only [Bool.and_eq_true, beq_iff_eq, Option.any_eq_true] at htest
  obtain ⟨⟨hpaths, hlines⟩, n, hn, hkind⟩ := htest
  obtain ⟨v, place, rfl⟩ : ∃ v place, n = .scalar v place := by
    cases n with
    | scalar v place => exact ⟨v, place, rfl⟩
    | mapping | sequence => cases hkind
  obtain ⟨R, hR, hrender, -, hleaves⟩ := right_scalar_shown_iff hleft hright hl hr
  refine ⟨left, right, l, r, v, place, hleft, hright, hl, hr, hpaths, hn, hlines, ?_⟩
  obtain ⟨hshown, hshows⟩ := hleaves _ v place hn
  refine hshows (hshown.mpr ?_)
  -- what is deleted on the way to the scalar is deleted at an index
  rintro ⟨q, m, hmem, hprefix, hlast⟩
  have hpath : Path.render q ∈ ["[0]", "[1]"] := by
    rw [← hpaths, ← hR, List.map_map, ← hrender _ hmem]
    exact List.mem_map_of_mem (f := Difference.path ∘ Prod.snd) hmem
  simp only [List.prefix_cons_iff, List.prefix_nil] at hprefix
  rcases hprefix with rfl | ⟨_, rfl, rfl | ⟨_, rfl, rfl⟩⟩
  · exact absurd hpath (by decide)
  · exact hlast 0 rfl
  · exact absurd hpath (by decide)

/-- The value of a key is lost when it has cancelled with a value further down, and the left value
has not. -/
theorem cancelled_value_lost :
    ∃ left right l r n,
      Stream.ofText "- \x7ba: x, k: p\x7d\n- \x7ba: x, k: q\x7d\n" = .ok left ∧
      Stream.ofText "- \x7ba: x, k: q\x7d\n- \x7ba: x, k: r\x7d\n" = .ok right ∧
      left.document 0 = some l ∧ right.document 0 = some r ∧
      Node.at? (some r) [.index 0, .key "k"] = some n ∧ n.kind = .string ∧
      documentAt left right (.ofStreams .unordered left right) 0 =
        [⟨.context, "- a: x"⟩, ⟨.removed, "  k: p"⟩, ⟨.context, "- a: x"⟩, ⟨.added, "  k: r"⟩] ∧
      ¬∃ status, status ≠ .removed ∧
        Shows (documentAt left right (.ofStreams .unordered left right) 0)
          ⟨[.index 0, .key "k"], status, n⟩ := by
  obtain ⟨left, right, l, r, hleft, hright, hl, hr, htest⟩ :=
    Stream.exists_of_firstDocuments "- \x7ba: x, k: p\x7d\n- \x7ba: x, k: q\x7d\n"
      "- \x7ba: x, k: q\x7d\n- \x7ba: x, k: r\x7d\n"
      (fun left right _ r =>
        documentAt left right (.ofStreams .unordered left right) 0 ==
            [⟨.context, "- a: x"⟩, ⟨.removed, "  k: p"⟩, ⟨.context, "- a: x"⟩,
              ⟨.added, "  k: r"⟩] &&
          (Node.at? (some r) [.index 0, .key "k"]).any fun n =>
            n.kind == .string && Emitter.entryLines .plain "k" n == ["k: q"])
      (by decide +kernel)
  simp only [Bool.and_eq_true, beq_iff_eq, Option.any_eq_true] at htest
  obtain ⟨hlines, n, hn, hkind, hwritten⟩ := htest
  refine ⟨left, right, l, r, n, hleft, hright, hl, hr, hn, hkind, hlines, ?_⟩
  rintro ⟨status, hstatus, block, hblock, hrows⟩
  have hwriter : Piece.lines ⟨[.index 0, .key "k"], status, n⟩ = [⟨status, "k: q"⟩] :=
    congrArg (annotate status) hwritten
  rw [hwriter] at hrows
  obtain ⟨line, rest, hinset, -, rfl⟩ := List.forall₂_cons_left_iff.mp hrows
  have hmem := hblock.subset (List.mem_cons_self ..)
  rw [hlines] at hmem
  have hlost : ∀ line ∈ [(⟨.context, "- a: x"⟩ : Line), ⟨.removed, "  k: p"⟩,
      ⟨.context, "- a: x"⟩, ⟨.added, "  k: r"⟩],
      line.status ≠ .removed → 'q' ∉ line.content.toList := by decide
  refine hlost line hmem (hinset.status_eq ▸ hstatus) (hinset.suffix.subset ?_)
  show 'q' ∈ "k: q".toList
  decide

end YamlDelta.Unified
