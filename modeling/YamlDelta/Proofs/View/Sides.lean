/-
When the merged document contains both documents.

Dropping the lines of one sign should leave the other document.  It does unless a hyphen or
an empty collection is lost where collections are opened.  Whether a hyphen is lost depends
on the first line of what is opened, and that line follows from the first step into the two
collections: it is removed if a left node is reported there, and added only if there is none
on the left, hence if the left collection is empty.
-/
import YamlDelta.Proofs.Markup.Placement
import YamlDelta.Proofs.View.Kept

namespace YamlDelta.Unified

open Compare Emitter
open Node (SameData)

variable {status : Status} {ds : List Difference} {base : List Step} {R : Report}
  {a b : Option Node} {l r : Node}

/-! ### First lines -/

/-- The first line inside of two opened collections has a status: the first step leads to a node on
the left that is removed, or to none, or to an item that is itself opened and begins so. -/
inductive Begins : Status → Node → Node → Prop
  | removed {l r c : Node} {s : Step} {ss : List Step} (h : steps l r = s :: ss)
      (hl : l.child? s = some c) (hpart : Part (some c) (r.child? s)) : Begins .removed l r
  | added {l r : Node} {s : Step} {ss : List Step} (h : steps l r = s :: ss)
      (hl : l.child? s = none) : Begins .added l r
  | inside {status : Status} {l r c d : Node} {i : Nat} {ss : List Step} {p : List Step}
      (h : steps l r = .index i :: ss) (hl : l.child? (.index i) = some c)
      (hr : r.child? (.index i) = some d) (hcoll : SameCollection c d)
      (hpoint : DivergencePoint (some c) (some d) p) (hbegins : Begins status c d) :
      Begins status l r

theorem begins_iff {s : Step} {ss : List Step} (h : steps l r = s :: ss) :
    Begins status l r ↔
      (status = .removed ∧ ∃ c, l.child? s = some c ∧ Part (some c) (r.child? s)) ∨
        (status = .added ∧ l.child? s = none) ∨
          ∃ i c d p, s = .index i ∧ l.child? s = some c ∧ r.child? s = some d ∧
            SameCollection c d ∧ DivergencePoint (some c) (some d) p ∧ Begins status c d := by
  constructor
  · intro hbegins
    cases hbegins with
    | removed h' hl hpart =>
        obtain ⟨rfl, -⟩ := List.cons.inj (h.symm.trans h')
        exact .inl ⟨rfl, _, hl, hpart⟩
    | added h' hl =>
        obtain ⟨rfl, -⟩ := List.cons.inj (h.symm.trans h')
        exact .inr (.inl ⟨rfl, hl⟩)
    | inside h' hl hr hcoll hpoint hbegins =>
        obtain ⟨rfl, -⟩ := List.cons.inj (h.symm.trans h')
        exact .inr (.inr ⟨_, _, _, _, rfl, hl, hr, hcoll, hpoint, hbegins⟩)
  · rintro (⟨rfl, c, hl, hpart⟩ | ⟨rfl, hl⟩ | ⟨i, c, d, p, rfl, hl, hr, hcoll, hpoint, hbegins⟩)
    · exact .removed h hl hpart
    · exact .added h hl
    · exact .inside h hl hr hcoll hpoint hbegins

theorem Begins.steps_ne_nil (h : Begins status l r) : steps l r ≠ [] := by
  cases h with
  | removed h _ _ => exact h ▸ List.cons_ne_nil _ _
  | added h _ => exact h ▸ List.cons_ne_nil _ _
  | inside h _ _ _ _ _ => exact h ▸ List.cons_ne_nil _ _

theorem beginsWith_cons {l : Line} {ls : List Line} :
    BeginsWith status (l :: ls) ↔ l.status = status := by
  simp [BeginsWith]

theorem beginsWith_append {ls : List Line} (h : ls ≠ []) (ms : List Line) :
    BeginsWith status (ls ++ ms) ↔ BeginsWith status ls := by
  obtain ⟨l, ls, rfl⟩ := List.exists_cons_of_ne_nil h
  rw [List.cons_append, beginsWith_cons, beginsWith_cons]

theorem beginsWith_annotate {other : Status} {lines : List String} (h : lines ≠ []) :
    BeginsWith status (annotate other lines) ↔ other = status := by
  obtain ⟨l, ls, rfl⟩ := List.exists_cons_of_ne_nil h
  exact beginsWith_cons

theorem beginsWith_bullet {ls : List Line} :
    BeginsWith status (relayout Lines.bullet ls) ↔ BeginsWith status ls := by
  cases ls with
  | nil => rfl
  | cons l ls => rw [relayout_bullet, beginsWith_cons, beginsWith_cons]

theorem beginsWith_framed_key (side : Side) (k : String) (ls : List Line) :
    ¬BeginsWith side.dropped (framed (some (.key k)) ls) := by
  rw [framed, beginsWith_cons]
  exact dropped_ne_context side

theorem annotate_ne_nil (status : Status) {lines : List String} (h : lines ≠ []) :
    annotate status lines ≠ [] :=
  fun hnil => h (List.map_eq_nil_iff.mp hnil)

/-- Every step has lines, if what is opened has. -/
theorem stepLines_ne_nil {s : Step} (hsome : a.isSome = true ∨ b.isSome = true)
    (h : Located .positional ds base R a b)
    (hinside : ∀ c d, a = some c → b = some d → (∃ z ∈ R, z.1 ≠ []) →
      partsLines (listing ds c d) ≠ []) :
    (atStep ds s a b).flatMap (·.lines (some s)) ≠ [] := by
  have hwhole := fun status n => annotate_ne_nil status (writer_ne_nil (some s) n)
  cases a with
  | none =>
      cases b with
      | none => simp at hsome
      | some d =>
          rw [atStep, List.flatMap_singleton, Listing.lines]
          exact hwhole .added d
  | some c =>
      cases b with
      | none =>
          rw [atStep, List.flatMap_singleton, Listing.lines]
          exact hwhole .removed c
      | some d =>
          rw [atStep]
          rcases shown_positional h (some s) (listing ds c d) with
            ⟨-, hopen, hshown⟩ | ⟨-, -, -, hshown⟩ | ⟨-, -, hshown⟩ <;> rw [hshown]
          · have hparts := hinside c d rfl rfl (by simpa using hopen)
            rw [List.flatMap_singleton, Listing.lines]
            cases s with
            | key k => exact List.cons_ne_nil _ _
            | index i =>
                obtain ⟨l, ls, hcons⟩ := List.exists_cons_of_ne_nil hparts
                rw [framed, hcons, relayout_bullet]
                exact List.cons_ne_nil _ _
          · rw [List.flatMap_singleton, Listing.lines]
            exact hwhole .context d
          · rw [List.flatMap_cons, Listing.lines]
            exact List.append_ne_nil_of_left_ne_nil (hwhole .removed c) _

/-- Where something is reported further down, opened collections have lines. -/
theorem partsLines_ne_nil (h : Located .positional ds base R (some l) (some r))
    (hbelow : ∃ z ∈ R, z.1 ≠ []) : partsLines (listing ds l r) ≠ [] := by
  induction l using Node.child_induct generalizing r base R with
  | h l ih =>
      have hcoll := h.reports.sameCollection hbelow
      obtain ⟨R, rfl, hR⟩ := h.exists_inside hcoll
      obtain ⟨⟨p, d⟩, hz, -⟩ := hbelow
      obtain ⟨s, hs, -, -, -⟩ := mem_flatMap_behind.mp hz
      rw [partsLines_listing]
      intro hnil
      refine stepLines_ne_nil ((mem_steps hcoll s).mp hs) (hR s hs) (fun c d hc hd hbelow => ?_)
        (List.flatMap_eq_nil_iff.mp hnil s hs)
      have hchild := hR s hs
      rw [hc, hd] at hchild
      exact ih s c hc hchild hbelow

/-- How the lines of two nodes begin, one on each side. -/
theorem beginsWith_shown (side : Side) (s : Step) {c d : Node}
    (h : Located .positional ds base R (some c) (some d)) :
    BeginsWith side.dropped
        ((shown ds (some s) c d (listing ds c d)).flatMap (·.lines (some s))) ↔
      (side.dropped = .removed ∧ Part (some c) (some d)) ∨
        ∃ i p, s = .index i ∧ SameCollection c d ∧ DivergencePoint (some c) (some d) p ∧
          BeginsWith side.dropped (partsLines (listing ds c d)) := by
  have hnot : SameCollection c d → ¬Part (some c) (some d) := fun hcoll hpart =>
    hpart.not_goOn ⟨hcoll⟩
  have hwhole : ∀ status n ms, BeginsWith side.dropped
      (annotate status (writer (some s) n) ++ ms) ↔ status = side.dropped := by
    intro status n ms
    rw [beginsWith_append (annotate_ne_nil status (writer_ne_nil _ n)),
      beginsWith_annotate (writer_ne_nil _ n)]
  rcases shown_positional h (some s) (listing ds c d) with
    ⟨hcoll, hopen, hshown⟩ | ⟨rfl, -, -, hshown⟩ | ⟨-, hpart, hshown⟩ <;> rw [hshown]
  · -- opened: a key comes first, or the first of the parts
    obtain ⟨z, hz, -⟩ : ∃ z ∈ R, z.1 ≠ [] := by simpa using hopen
    have hpoint := (h.reports.of_mem hz).1
    rw [List.flatMap_singleton, Listing.lines]
    cases s with
    | key k => simp [beginsWith_framed_key, hnot hcoll]
    | index i =>
        rw [framed, beginsWith_bullet]
        constructor
        · intro hbegins
          exact .inr ⟨i, z.1, rfl, hcoll, hpoint, hbegins⟩
        · rintro (⟨-, hpart⟩ | ⟨_, _, -, -, -, hbegins⟩)
          · exact absurd hpart (hnot hcoll)
          · exact hbegins
  · -- nothing is reported
    rw [List.flatMap_cons, Listing.lines, hwhole]
    refine iff_of_false (dropped_ne_context side) ?_
    rintro (⟨-, hpart⟩ | ⟨_, _, -, -, hpoint, -⟩)
    · exact h.reports.not_part_of_nil hpart
    · obtain ⟨e, he, -⟩ := h.reports.of_divergencePoint hpoint
      cases he
  · -- the left node is removed
    rw [List.flatMap_cons, Listing.lines, hwhole]
    constructor
    · intro heq
      exact .inl ⟨heq.symm, hpart⟩
    · rintro (⟨heq, -⟩ | ⟨_, _, -, hcoll, -, -⟩)
      · exact heq.symm
      · exact absurd hpart (hnot hcoll)

/-- How the lines of one step begin. -/
theorem beginsWith_step (side : Side) {s : Step} (hsome : a.isSome = true ∨ b.isSome = true)
    (h : Located .positional ds base R a b) :
    BeginsWith side.dropped ((atStep ds s a b).flatMap (·.lines (some s))) ↔
      (side.dropped = .removed ∧ ∃ c, a = some c ∧ Part (some c) b) ∨
        (side.dropped = .added ∧ a = none) ∨
          ∃ i c d p, s = .index i ∧ a = some c ∧ b = some d ∧ SameCollection c d ∧
            DivergencePoint (some c) (some d) p ∧
              BeginsWith side.dropped (partsLines (listing ds c d)) := by
  cases a with
  | none =>
      cases b with
      | none => simp at hsome
      | some d =>
          rw [atStep, List.flatMap_singleton, Listing.lines,
            beginsWith_annotate (writer_ne_nil _ _)]
          simp [eq_comm]
  | some c =>
      cases b with
      | none =>
          rw [atStep, List.flatMap_singleton, Listing.lines,
            beginsWith_annotate (writer_ne_nil _ _)]
          simp [eq_comm, Part.leftOnly c]
      | some d =>
          rw [atStep, beginsWith_shown side s h]
          simp

/-- **How opened collections begin.** -/
theorem beginsWith_iff_begins (side : Side) (hcoll : SameCollection l r)
    (h : Located .positional ds base R (some l) (some r)) :
    BeginsWith side.dropped (partsLines (listing ds l r)) ↔ Begins side.dropped l r := by
  induction l using Node.child_induct generalizing r base R with
  | h l ih =>
      obtain ⟨R, rfl, hR⟩ := h.exists_inside hcoll
      rw [partsLines_listing]
      cases hsteps : steps l r with
      | nil =>
          exact iff_of_false (by simp [BeginsWith]) fun hbegins => hbegins.steps_ne_nil hsteps
      | cons s ss =>
          have hs : s ∈ steps l r := hsteps ▸ List.mem_cons_self ..
          have hsome := (mem_steps hcoll s).mp hs
          have hchild := hR s hs
          have hne := stepLines_ne_nil (s := s) hsome hchild fun c d hc hd hbelow => by
            rw [hc, hd] at hchild
            exact partsLines_ne_nil hchild hbelow
          rw [List.flatMap_cons, beginsWith_append hne, begins_iff hsteps,
            beginsWith_step side hsome hchild]
          refine or_congr Iff.rfl (or_congr Iff.rfl ?_)
          have hinside : ∀ c d, l.child? s = some c → r.child? s = some d → SameCollection c d →
              (BeginsWith side.dropped (partsLines (listing ds c d)) ↔
                Begins side.dropped c d) := by
            intro c d hc hd hcoll'
            rw [hc, hd] at hchild
            exact ih s c hc hcoll' hchild
          constructor
          · rintro ⟨i, c, d, p, hi, hc, hd, hcoll', hpoint, hbegins⟩
            exact ⟨i, c, d, p, hi, hc, hd, hcoll', hpoint, (hinside c d hc hd hcoll').mp hbegins⟩
          · rintro ⟨i, c, d, p, hi, hc, hd, hcoll', hpoint, hbegins⟩
            exact ⟨i, c, d, p, hi, hc, hd, hcoll', hpoint, (hinside c d hc hd hcoll').mpr hbegins⟩

/-! ### Documents -/

/-- The first step leads to a child on the left, if there is one. -/
theorem isSome_first_child {s : Step} {ss : List Step} (hcoll : SameCollection l r)
    (hblock : isBlock l = true) (h : steps l r = s :: ss) : (l.child? s).isSome = true := by
  rcases sameCollection_cases hcoll with ⟨ls, p, rs, q, rfl, rfl⟩ | ⟨ls, p, rs, q, rfl, rfl⟩
  · obtain ⟨e, es, rfl⟩ := List.exists_cons_of_ne_nil (by simpa [isBlock] using hblock)
    rw [steps, keys, List.map_cons, List.eraseDups_cons, List.cons_append, List.map_cons] at h
    obtain ⟨rfl, -⟩ := List.cons.inj h
    exact Node.isSome_lookup.mpr (List.mem_cons_self ..)
  · obtain ⟨n, is, rfl⟩ := List.exists_cons_of_ne_nil (by simpa [isBlock] using hblock)
    obtain ⟨m, hm⟩ : ∃ m, max (n :: is).length rs.length = m + 1 :=
      ⟨max (n :: is).length rs.length - 1, by rw [List.length_cons]; omega⟩
    rw [steps, hm, List.range_succ_eq_map, List.map_cons] at h
    obtain ⟨rfl, -⟩ := List.cons.inj h
    rfl

/-- Collections of which the left ones are not empty do not begin with an added line. -/
theorem not_begins_added (h : Reports .positional (some l) (some r) R)
    (hcoll : SameCollection l r) (hblock : ∀ p x y, Opened R l r p x y → isBlock x = true) :
    ¬Begins .added l r := by
  intro hbegins
  generalize hstatus : Status.added = status at hbegins
  induction hbegins generalizing R with
  | removed h _ _ => cases hstatus
  | added hsteps hl =>
      have hroot := hblock [] _ _ (opened_nil.mpr ⟨rfl, rfl, hcoll⟩)
      have hfirst := isSome_first_child hcoll hroot hsteps
      rw [hl] at hfirst
      cases hfirst
  | @inside _ l r c d i ss p hsteps hl hr hcoll' hpoint _ ih =>
      obtain ⟨R, rfl, hR⟩ := h.exists_inside hcoll
      have hs : Step.index i ∈ steps l r := hsteps ▸ List.mem_cons_self ..
      have hchild := hR _ hs
      rw [hl, hr] at hchild
      refine ih hchild hcoll' (fun q x y hopened => ?_) hstatus
      obtain ⟨e, he, -⟩ := hchild.of_divergencePoint hpoint
      have hne : p ≠ [] := by
        rintro rfl
        exact (divergencePoint_nil.mp hpoint).not_goOn ⟨hcoll'⟩
      exact hblock _ x y ((opened_cons hs).mpr ⟨c, d, hl, hr, ⟨_, he, hne⟩, hopened⟩)

/-- Documents that are not opened are contained in any case. -/
theorem contains_document_iff (side : Side) (h : Located .positional ds [] R (some l) (some r)) :
    Contains side.dropped (document ds (some l) (some r)) (side.pick l r) ↔
      ∀ p x y, Opened R l r p x y → isBlock (side.pick x y) = true ∧
        ∀ i, p.getLast? = some (.index i) → ¬Begins side.dropped x y := by
  rw [document_eq_lines h, documentListing, Contains]
  rcases kept_shown_cases side h none (listing ds l r) with
    ⟨hcoll, -, hkept⟩ | ⟨-, hroot, n, hdata, hkept⟩ <;> rw [hkept]
  · rw [framed]
    refine (contains_iff_opened side hcoll h).trans ?_
    refine forall_congr' fun p => forall_congr' fun x => forall_congr' fun y =>
      forall_congr' fun hopened => and_congr_right fun _ => ?_
    obtain ⟨R', hR', -⟩ := h.of_opened hopened
    rw [beginsWith_iff_begins side hopened.coll hR']
  · refine iff_of_true ⟨n, hdata, rfl⟩ fun p x y hopened => ?_
    exact absurd (hopened.sameCollection h.reports) (hroot rfl)

/-- **Dropping the lines of one sign leaves the other document** for both signs if and only if none
of two collections that are opened is empty, and none of two that are opened at an index begins with
a removed line. -/
theorem contains_both_iff (h : Located .positional ds [] R (some l) (some r)) :
    (Contains Side.right.dropped (document ds (some l) (some r)) r ∧
      Contains Side.left.dropped (document ds (some l) (some r)) l) ↔
      ∀ p x y, Opened R l r p x y → isBlock x = true ∧ isBlock y = true ∧
        ∀ i, p.getLast? = some (.index i) → ¬Begins .removed x y := by
  refine (and_congr (contains_document_iff .right h) (contains_document_iff .left h)).trans ?_
  constructor
  · rintro ⟨hr, hl⟩ p x y hopened
    exact ⟨(hl p x y hopened).1, (hr p x y hopened).1, (hr p x y hopened).2⟩
  · intro hall
    refine ⟨fun p x y hopened => ⟨(hall p x y hopened).2.1, (hall p x y hopened).2.2⟩,
      fun p x y hopened => ⟨(hall p x y hopened).1, fun i _ => ?_⟩⟩
    obtain ⟨R', hR', hlift⟩ := h.of_opened hopened
    exact not_begins_added hR'.reports hopened.coll fun q u v huv =>
      (hall _ u v (hlift q u v huv)).1

/-! ### Signs -/

/-- The sign of a status. -/
def Status.sign : Status → Char
  | .context => ' '
  | .added => '+'
  | .removed => '-'

/-- The lines without those of one sign, and without their own. -/
def unsigned (sign : Char) (lines : List String) : List String :=
  (lines.filter fun line => line.toList.head? ≠ some sign).map fun line =>
    String.ofList (line.toList.drop 1)

theorem toList_render_plain (l : Line) :
    (l.render .plain).toList = l.status.sign :: l.content.toList := by
  obtain ⟨other, content⟩ := l
  cases other <;> simp [Line.render, Palette.added, Palette.deleted, Status.sign]

theorem sign_inj {other : Status} : other.sign = status.sign ↔ other = status := by
  cases other <;> cases status <;> decide

/-- Signs tell the status of a line. -/
theorem unsigned_render (status : Status) (lines : List Line) :
    unsigned status.sign (lines.map (·.render .plain)) = kept status lines := by
  rw [unsigned, kept, List.filter_map, List.map_map]
  have hfilter : lines.filter ((fun line => decide (line.toList.head? ≠ some status.sign)) ∘
      (·.render .plain)) = lines.filter (·.status ≠ status) := by
    refine List.filter_congr fun l _ => ?_
    rw [Function.comp_apply, toList_render_plain, List.head?_cons]
    simp [sign_inj]
  rw [hfilter]
  refine List.map_congr_left fun l _ => ?_
  rw [Function.comp_apply, toList_render_plain, List.drop_one, List.tail_cons, String.ofList_toList]

/-- **The merged document contains both documents if and only if no collection is empty where two
are opened, and none of two that are opened at an index begins with a removed line.**  Dropping the
lines of one sign, and the signs, then leaves the lines of a node that does not differ from the
other document. -/
theorem both_contained_iff {leftText rightText : String} {left right : Stream} {i : Nat}
    (hleft : Stream.ofText leftText = .ok left) (hright : Stream.ofText rightText = .ok right)
    (hl : left.document i = some l) (hr : right.document i = some r) :
    ∃ R : Report, R.map Prod.snd = Compare.nodes .positional l r ∧
      (∀ x ∈ R, x.2.path = Path.render x.1) ∧
      (((∃ t, Compare.nodes .positional t r = [] ∧
            unsigned '-' ((documentAt left right (.ofStreams .positional left right) i).map
              (·.render .plain)) = nodeLines .plain t) ∧
          ∃ t, Compare.nodes .positional t l = [] ∧
            unsigned '+' ((documentAt left right (.ofStreams .positional left right) i).map
              (·.render .plain)) = nodeLines .plain t) ↔
        ∀ p x y, Opened R l r p x y → isBlock x = true ∧ isBlock y = true ∧
          ∀ i, p.getLast? = some (.index i) → ¬Begins .removed x y) := by
  have hl' := Stream.placed_of_ofText hleft hl
  have hr' := Stream.placed_of_ofText hright hr
  obtain ⟨R, hR, hpaths, h⟩ := exists_located .positional hl' hr'
  refine ⟨R, hR, hpaths, ?_⟩
  rw [documentAt_eq hl hr, show '-' = Status.removed.sign from rfl,
    show '+' = Status.added.sign from rfl, unsigned_render, unsigned_render]
  simp only [positional_eq_nil_iff]
  exact contains_both_iff h

theorem both_contained_of_item :
    ∃ left right l r, Stream.ofText "- a: 1\n" = .ok left ∧ Stream.ofText "- b: 1\n" = .ok right ∧
      left.document 0 = some l ∧ right.document 0 = some r ∧
      ∃ R : Report, R.map Prod.snd = Compare.nodes .positional l r ∧
        (∀ x ∈ R, x.2.path = Path.render x.1) ∧
        (((∃ t, Compare.nodes .positional t r = [] ∧
              unsigned '-' ((documentAt left right (.ofStreams .positional left right) 0).map
                (·.render .plain)) = nodeLines .plain t) ∧
            ∃ t, Compare.nodes .positional t l = [] ∧
              unsigned '+' ((documentAt left right (.ofStreams .positional left right) 0).map
                (·.render .plain)) = nodeLines .plain t) ↔
          ∀ p x y, Opened R l r p x y → isBlock x = true ∧ isBlock y = true ∧
            ∀ i, p.getLast? = some (.index i) → ¬Begins .removed x y) := by
  obtain ⟨left, right, l, r, hleft, hright, hl, hr, -⟩ :=
    Stream.exists_of_firstDocuments "- a: 1\n" "- b: 1\n" (fun _ _ _ _ => true)
      (by decide +kernel)
  exact ⟨left, right, l, r, hleft, hright, hl, hr, both_contained_iff hleft hright hl hr⟩

/-- The item of a sequence loses its hyphen with the removed line that comes first in it. -/
theorem hyphen_lost :
    ∃ left right l r, Stream.ofText "- a: x\n" = .ok left ∧ Stream.ofText "- a: y\n" = .ok right ∧
      left.document 0 = some l ∧ right.document 0 = some r ∧
      (documentAt left right (.ofStreams .positional left right) 0).map (·.render .plain) =
        ["-- a: x", "+  a: y"] ∧
      ¬∃ t, Compare.nodes .positional t r = [] ∧
        unsigned '-' ((documentAt left right (.ofStreams .positional left right) 0).map
          (·.render .plain)) = nodeLines .plain t := by
  obtain ⟨left, right, l, r, hleft, hright, hl, hr, htest⟩ :=
    Stream.exists_of_firstDocuments "- a: x\n" "- a: y\n"
      (fun left right _ r =>
        (documentAt left right (.ofStreams .positional left right) 0).map (·.render .plain) ==
          ["-- a: x", "+  a: y"] && (r.kind == .sequence && isBlock r))
      (by decide +kernel)
  simp only [Bool.and_eq_true, beq_iff_eq] at htest
  obtain ⟨hlines, hkind, hblock⟩ := htest
  refine ⟨left, right, l, r, hleft, hright, hl, hr, hlines, ?_⟩
  rintro ⟨t, hsilent, hkept⟩
  have hdata := positional_eq_nil_iff.mp hsilent
  have hleft : unsigned '-' ["-- a: x", "+  a: y"] = ["  a: y"] := by decide +kernel
  rw [hlines, hleft] at hkept
  -- a sequence with the data of the right one begins with a hyphen
  have hblock' := isBlock_of_sameData hdata hblock
  have hkind' := (sameCollection_of_sameData hdata (by rw [hkind]; rfl)).1.trans hkind
  cases t with
  | mapping es p => cases hkind'
  | scalar v p => cases hblock'
  | sequence is p =>
      obtain ⟨n, is, rfl⟩ := List.exists_cons_of_ne_nil (by simpa [isBlock] using hblock')
      obtain ⟨first, rest, hfirst, hhead, -⟩ := headed_itemLines n
      rw [nodeLines_sequence (List.cons_ne_nil _ _), List.flatMap_cons, hfirst,
        List.cons_append] at hkept
      rw [← (List.cons.inj hkept).1] at hhead
      exact absurd hhead (by decide)

end YamlDelta.Unified
