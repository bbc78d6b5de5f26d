/-
What is left of the merged document when the lines of one kind are dropped.

Without its removed lines the merged document should be the right document, and without its
added lines the left one.  That is so child by child.  A child that is not opened is written
whole, and a key that is opened stays for both sides, as it is context.  Two things are lost
otherwise: the hyphen of an item whose collections are opened stands on their first line, and
goes with it if that is dropped; and an empty collection is opened like any other, with
nothing to show for itself.  So opened collections contain the one of a side if and only if
neither happens anywhere inside of them (`contains_iff_opened`).
-/
import YamlDelta.Proofs.View.Assembly
import YamlDelta.Proofs.View.Layout

namespace YamlDelta.Unified

open Compare Emitter
open Node (SameData)

/-! ### Dropping the lines of one status -/

/-- The two documents. -/
inductive Side where
  | left
  | right

/-- The status of the lines that belong to the other side only. -/
def Side.dropped : Side → Status
  | left => .added
  | right => .removed

/-- What stands on a side. -/
def Side.pick {α : Type} : Side → α → α → α
  | left, a, _ => a
  | right, _, b => b

/-- The contents of the lines that do not have a status. -/
def kept (status : Status) (lines : List Line) : List String :=
  (lines.filter (·.status ≠ status)).map (·.content)

/-- The first line has a status. -/
def BeginsWith (status : Status) (lines : List Line) : Prop :=
  ∃ line, lines.head? = some line ∧ line.status = status

theorem dropped_ne_context (side : Side) : Status.context ≠ side.dropped := by
  cases side <;> decide

variable {status : Status} {lines : List Line}

theorem kept_append (ls ms : List Line) :
    kept status (ls ++ ms) = kept status ls ++ kept status ms := by
  simp [kept]

theorem kept_flatMap {α : Type} (as : List α) (f : α → List Line) :
    kept status (as.flatMap f) = as.flatMap fun a => kept status (f a) := by
  rw [kept, List.filter_flatMap, List.map_flatMap]
  rfl

theorem kept_annotate {other : Status} (h : other ≠ status) (lines : List String) :
    kept status (annotate other lines) = lines := by
  simp [kept, annotate, List.filter_map, Function.comp_def, h]

@[simp] theorem kept_left_added (lines : List String) :
    kept Side.left.dropped (annotate .added lines) = [] := by
  simp [kept, annotate, Side.dropped]

@[simp] theorem kept_right_removed (lines : List String) :
    kept Side.right.dropped (annotate .removed lines) = [] := by
  simp [kept, annotate, Side.dropped]

@[simp] theorem kept_left_removed (lines : List String) :
    kept Side.left.dropped (annotate .removed lines) = lines := by
  rw [kept_annotate (show Status.removed ≠ Side.left.dropped by decide)]

@[simp] theorem kept_right_added (lines : List String) :
    kept Side.right.dropped (annotate .added lines) = lines := by
  rw [kept_annotate (show Status.added ≠ Side.right.dropped by decide)]

theorem kept_cons_of_eq {other : Status} (h : other = status) (content : String)
    (ls : List Line) : kept status (⟨other, content⟩ :: ls) = kept status ls := by
  simp [kept, h]

theorem kept_cons_of_ne {other : Status} (h : other ≠ status) (content : String)
    (ls : List Line) : kept status (⟨other, content⟩ :: ls) = content :: kept status ls := by
  simp [kept, h]

theorem kept_indent (lines : List Line) :
    kept status (relayout (Lines.indent 2) lines) = Lines.indent 2 (kept status lines) := by
  rw [relayout_indent]
  induction lines with
  | nil => rfl
  | cons l ls ih =>
      obtain ⟨other, content⟩ := l
      rw [List.map_cons]
      by_cases h : other = status
      · rw [kept_cons_of_eq h, kept_cons_of_eq h, ih]
      · rw [kept_cons_of_ne h, kept_cons_of_ne h, ih]
        rfl

/-- The hyphen stays if the first line does. -/
theorem kept_bullet (h : ¬BeginsWith status lines) :
    kept status (relayout Lines.bullet lines) = Lines.bullet (kept status lines) := by
  cases lines with
  | nil => rfl
  | cons l ls =>
      obtain ⟨other, content⟩ := l
      have hother : other ≠ status := fun hother => h ⟨_, rfl, hother⟩
      rw [relayout_bullet, kept_cons_of_ne hother, kept_cons_of_ne hother, kept_indent]
      rfl

/-- The hyphen goes if the first line does. -/
theorem kept_bullet_of_begins (h : BeginsWith status lines) :
    kept status (relayout Lines.bullet lines) = Lines.indent 2 (kept status lines) := by
  obtain ⟨⟨other, content⟩, hl, hother⟩ := h
  cases lines with
  | nil => cases hl
  | cons m ls =>
      cases hl
      rw [relayout_bullet, kept_cons_of_eq hother, kept_cons_of_eq hother, kept_indent]

/-- The lines that are kept are those of a node with the data of a given one. -/
def Contains (status : Status) (lines : List Line) (n : Node) : Prop :=
  ∃ t, SameData t n ∧ kept status lines = nodeLines .plain t

/-! ### Opened collections -/

theorem pick_some (side : Side) (l r : Node) :
    side.pick (some l) (some r) = some (side.pick l r) := by
  cases side <;> rfl

/-- The node that a side has at a step is a child of the node that it has. -/
theorem child?_pick (side : Side) (x y : Node) (s : Step) :
    (side.pick x y).child? s = side.pick (x.child? s) (y.child? s) := by
  cases side <;> rfl

/-! ### One step -/

/-- What a positional comparison shows of two nodes. -/
theorem shown_positional {ds : List Difference} {base : List Step} {R : Report} {l r : Node}
    (h : Located .positional ds base R (some l) (some r)) (s : Option Step)
    (ps : List (Step × Listing)) :
    (SameCollection l r ∧ (s = none ∨ ∃ z ∈ R, z.1 ≠ []) ∧ shown ds s l r ps = [.opened ps]) ∨
      (R = [] ∧ SameData l r ∧ (s = none → ¬SameCollection l r) ∧
        shown ds s l r ps = [.whole .context r]) ∨
      ((∀ z ∈ R, z.1 = []) ∧ Part (some l) (some r) ∧
        shown ds s l r ps = [.whole .removed l, .whole .added r]) := by
  rcases shown_cases h s ps with hopened | ⟨rfl, hroot, hshown⟩ | ⟨d, -, rfl, hshown⟩
  · exact .inl hopened
  · exact .inr (.inl ⟨rfl, h.reports.sameData, hroot, hshown⟩)
  · have hpart := (h.reports.of_mem (List.mem_singleton.mpr rfl)).1.2
    obtain ⟨e, he, hsides⟩ := h.reports.of_divergencePoint (divergencePoint_nil.mpr hpart)
    obtain rfl : e = d := (Prod.mk.inj (List.mem_singleton.mp he)).2
    refine .inr (.inr ⟨fun z hz => by rw [List.mem_singleton.mp hz], hpart, ?_⟩)
    rw [hshown]
    cases e <;> simp_all [Difference.left?, Difference.right?, changed]

variable {ds : List Difference} {base : List Step} {R : Report} {a b : Option Node} {l r : Node}

/-- What is kept of two nodes is a node with the data of the one of the side, unless they are
opened. -/
theorem kept_shown_cases (side : Side) (h : Located .positional ds base R (some l) (some r))
    (s : Option Step) (ps : List (Step × Listing)) :
    (SameCollection l r ∧ (s = none ∨ ∃ z ∈ R, z.1 ≠ []) ∧
        kept side.dropped ((shown ds s l r ps).flatMap (·.lines s)) =
          kept side.dropped (framed s (partsLines ps))) ∨
      ((∀ z ∈ R, z.1 = []) ∧ (s = none → ¬SameCollection l r) ∧
        ∃ n, SameData n (side.pick l r) ∧
          kept side.dropped ((shown ds s l r ps).flatMap (·.lines s)) = writer s n) := by
  rcases shown_positional h s ps with
    ⟨hcoll, hopen, hshown⟩ | ⟨rfl, hdata, hroot, hshown⟩ | ⟨hroot, hpart, hshown⟩ <;> rw [hshown]
  · refine .inl ⟨hcoll, hopen, ?_⟩
    rw [List.flatMap_singleton, Listing.lines]
  · -- the right node stands for both
    refine .inr ⟨List.forall_mem_nil _, hroot, r, ?_, ?_⟩
    · cases side with
      | left => exact hdata.symm
      | right => exact sameData_refl r
    · rw [List.flatMap_singleton, Listing.lines, kept_annotate (dropped_ne_context side)]
  · refine .inr ⟨hroot, fun _ hcoll => hpart.not_goOn ⟨hcoll⟩, side.pick l r, sameData_refl _, ?_⟩
    rw [List.flatMap_cons, List.flatMap_singleton, kept_append, Listing.lines, Listing.lines]
    cases side with
    | left =>
        rw [kept_left_removed, kept_left_added, List.append_nil]
        rfl
    | right =>
        rw [kept_right_removed, kept_right_added, List.nil_append]
        rfl

/-- What is kept of the lines of one step. -/
def keptAt (side : Side) (ds : List Difference) (s : Step) (a b : Option Node) : List String :=
  kept side.dropped ((atStep ds s a b).flatMap (·.lines (some s)))

theorem kept_partsLines (side : Side) (ds : List Difference) (l r : Node) :
    kept side.dropped (partsLines (listing ds l r)) =
      (steps l r).flatMap fun s => keptAt side ds s (l.child? s) (r.child? s) := by
  rw [partsLines_listing, kept_flatMap]
  rfl

theorem keptAt_leftOnly (side : Side) (s : Step) (c : Node) :
    keptAt side ds s (some c) none =
      kept side.dropped (annotate .removed (writer (some s) c)) := by
  rw [keptAt, atStep, List.flatMap_singleton, Listing.lines]

theorem keptAt_rightOnly (side : Side) (s : Step) (c : Node) :
    keptAt side ds s none (some c) =
      kept side.dropped (annotate .added (writer (some s) c)) := by
  rw [keptAt, atStep, List.flatMap_singleton, Listing.lines]

theorem keptAt_of_none {side : Side} (h : side.pick a b = none) (s : Step) :
    keptAt side ds s a b = [] := by
  cases side with
  | left =>
      obtain rfl : a = none := h
      cases b with
      | none => rfl
      | some d => rw [keptAt_rightOnly, kept_left_added]
  | right =>
      obtain rfl : b = none := h
      cases a with
      | none => rfl
      | some c => rw [keptAt_leftOnly, kept_right_removed]

/-- Where something stands on a side, its lines are kept, or those of what is opened there. -/
theorem keptAt_cases {side : Side} {n : Node} (h : Located .positional ds base R a b)
    (hn : side.pick a b = some n) (s : Step) :
    ((∀ z ∈ R, z.1 = []) ∧ ∃ n', SameData n' n ∧ keptAt side ds s a b = writer (some s) n') ∨
      ∃ c d, a = some c ∧ b = some d ∧ SameCollection c d ∧ (∃ z ∈ R, z.1 ≠ []) ∧
        keptAt side ds s a b =
          kept side.dropped (framed (some s) (partsLines (listing ds c d))) := by
  have honly : ¬GoOn a b → ∀ z ∈ R, z.1 = [] := by
    intro hgo z hz
    rcases h.reports.eq_of_not_goOn hgo with rfl | ⟨d, rfl, -⟩
    · cases hz
    · rw [List.mem_singleton.mp hz]
  cases a with
  | none =>
      cases b with
      | none => cases side <;> cases hn
      | some d =>
          cases side with
          | left => cases hn
          | right =>
              cases hn
              refine .inl ⟨honly (by rintro ⟨⟩), n, sameData_refl n, ?_⟩
              rw [keptAt_rightOnly, kept_right_added]
  | some c =>
      cases b with
      | none =>
          cases side with
          | right => cases hn
          | left =>
              cases hn
              refine .inl ⟨honly (by rintro ⟨⟩), n, sameData_refl n, ?_⟩
              rw [keptAt_leftOnly, kept_left_removed]
      | some d =>
          obtain rfl : side.pick c d = n := Option.some.inj ((pick_some side c d).symm.trans hn)
          rcases kept_shown_cases side h (some s) (listing ds c d) with
            ⟨hcoll, hopen, hkept⟩ | ⟨hroot, -, hwhole⟩
          · exact .inr ⟨c, d, rfl, rfl, hcoll, by simpa using hopen, hkept⟩
          · exact .inl ⟨hroot, hwhole⟩

/-! ### One level -/

/-- What is kept of a key that is opened is an entry, if the parts are the lines of its value. -/
theorem kept_framed_key_iff (side : Side) {n : Node} (hn : n.kind.isCollection = true)
    (k : String) (ls : List Line) :
    kept side.dropped (framed (some (.key k)) ls) = entryLines .plain k n ↔
      isBlock n = true ∧ kept side.dropped ls = nodeLines .plain n := by
  rw [framed, kept_cons_of_ne (dropped_ne_context side), kept_indent, entryLines_eq_iff hn]

/-- What is kept of an index that is opened is an item, if the parts are the lines of its value and
begin with a line that is kept. -/
theorem kept_framed_index_iff (side : Side) {n : Node} (hn : n.kind.isCollection = true)
    (i : Nat) (ls : List Line) :
    kept side.dropped (framed (some (.index i)) ls) = itemLines .plain n ↔
      ¬BeginsWith side.dropped ls ∧ kept side.dropped ls = nodeLines .plain n := by
  by_cases hbegins : BeginsWith side.dropped ls
  · refine iff_of_false (fun heq => ?_) fun h => h.1 hbegins
    obtain ⟨first, rest, hfirst, hhead, -⟩ := headed_itemLines n
    rw [framed, kept_bullet_of_begins hbegins, hfirst] at heq
    have hindent := isHead_indent first (heq ▸ List.mem_cons_self ..)
    rw [hhead] at hindent
    cases hindent
  · rw [framed, kept_bullet hbegins, itemLines_of_isCollection hn,
      Lines.bullet_injective.eq_iff]
    simp [hbegins]

/-- Where what is kept of opened collections is written like a collection, the parts are the lines
of it and no hyphen is lost. -/
theorem of_kept_framed (side : Side) {n : Node} (hn : n.kind.isCollection = true) {s : Step}
    {ls : List Line} (h : kept side.dropped (framed (some s) ls) = writer (some s) n) :
    kept side.dropped ls = nodeLines .plain n ∧
      ∀ i, s = .index i → ¬BeginsWith side.dropped ls := by
  cases s with
  | key k => exact ⟨((kept_framed_key_iff side hn k ls).mp h).2, nofun⟩
  | index i =>
      obtain ⟨hfirst, hkept⟩ := (kept_framed_index_iff side hn i ls).mp h
      exact ⟨hkept, fun _ _ => hfirst⟩

theorem kept_framed (side : Side) {n : Node} (hn : n.kind.isCollection = true)
    (hblock : isBlock n = true) {s : Step} {ls : List Line}
    (hkept : kept side.dropped ls = nodeLines .plain n)
    (hfirst : ∀ i, s = .index i → ¬BeginsWith side.dropped ls) :
    kept side.dropped (framed (some s) ls) = writer (some s) n := by
  cases s with
  | key k => exact (kept_framed_key_iff side hn k ls).mpr ⟨hblock, hkept⟩
  | index i => exact (kept_framed_index_iff side hn i ls).mpr ⟨hfirst i rfl, hkept⟩

/-- An empty collection takes a line, and nothing is kept of it. -/
theorem isBlock_of_contains {side : Side}
    (h : Contains side.dropped (partsLines (listing ds l r)) (side.pick l r)) :
    isBlock (side.pick l r) = true := by
  obtain ⟨t, -, hlines⟩ := h
  by_contra hblock
  have hnone : ∀ s, side.pick (l.child? s) (r.child? s) = none := by
    intro s
    rw [← child?_pick, ← Option.not_isSome_iff_eq_none]
    exact fun hs => hblock (isBlock_iff_child.mpr ⟨s, hs⟩)
  rw [kept_partsLines, List.flatMap_eq_nil_iff.mpr fun s _ => keptAt_of_none (hnone s) s] at hlines
  exact nodeLines_ne_nil .plain t hlines.symm

theorem isCollection_pick (side : Side) (hcoll : SameCollection l r) :
    (side.pick l r).kind.isCollection = true := by
  cases side with
  | left => exact hcoll.2
  | right => exact hcoll.symm.2

/-- What is kept of an entry is a block that begins with its key. -/
theorem headedBy_keptAt {side : Side} {n : Node} {k : String}
    (h : Located .positional ds base R a b) (hn : side.pick a b = some n) :
    HeadedBy k (keptAt side ds (.key k) a b) := by
  rcases keptAt_cases h hn (.key k) with ⟨-, n', -, hkept⟩ | ⟨c, d, -, -, -, -, hkept⟩ <;>
    rw [hkept]
  · exact headedBy_entryLines k n'
  · rw [framed, kept_cons_of_ne (dropped_ne_context side), kept_indent]
    exact headedBy_cons (opens_keyLine k) (isHead_keyLine k) isHead_indent

/-- What is kept of an item is a block, or has lost its head. -/
theorem headed_keptAt {side : Side} {n : Node} {i : Nat} (h : Located .positional ds base R a b)
    (hn : side.pick a b = some n) :
    Headed (keptAt side ds (.index i) a b) ∨
      ∀ line ∈ keptAt side ds (.index i) a b, isHead line = false := by
  rcases keptAt_cases h hn (.index i) with ⟨-, n', -, hkept⟩ | ⟨c, d, -, -, -, -, hkept⟩ <;>
    rw [hkept]
  · exact .inl (headed_itemLines n')
  · rw [framed]
    by_cases hbegins : BeginsWith side.dropped (partsLines (listing ds c d))
    · rw [kept_bullet_of_begins hbegins]
      exact .inr isHead_indent
    · rw [kept_bullet hbegins]
      by_cases hnil : kept side.dropped (partsLines (listing ds c d)) = []
      · rw [hnil]
        exact .inr (List.forall_mem_nil _)
      · exact .inl (headed_bullet hnil)

/-- **Two opened collections contain the one of a side** if and only if that is not empty and the
same holds wherever collections are opened inside, and an item that is opened begins with a line
that is kept. -/
theorem contains_iff_children (side : Side) {R : Step → Report} (hcoll : SameCollection l r)
    (hR : ∀ s ∈ steps l r,
      Located .positional ds (base ++ [s]) (R s) (l.child? s) (r.child? s)) :
    Contains side.dropped (partsLines (listing ds l r)) (side.pick l r) ↔
      isBlock (side.pick l r) = true ∧
        ∀ s c d, l.child? s = some c → r.child? s = some d → (∃ z ∈ R s, z.1 ≠ []) →
          Contains side.dropped (partsLines (listing ds c d)) (side.pick c d) ∧
            ∀ i, s = .index i → ¬BeginsWith side.dropped (partsLines (listing ds c d)) := by
  have hlocated : ∀ s n, side.pick (l.child? s) (r.child? s) = some n →
      Located .positional ds (base ++ [s]) (R s) (l.child? s) (r.child? s) := by
    intro s n hn
    refine hR s ((mem_steps hcoll s).mpr ?_)
    cases side with
    | left => exact .inl (Option.isSome_iff_exists.mpr ⟨n, hn⟩)
    | right => exact .inr (Option.isSome_iff_exists.mpr ⟨n, hn⟩)
  unfold Contains
  rw [kept_partsLines, lines_iff_children hcoll (by cases side <;> simp [Side.pick])]
  · refine and_congr_right fun _ =>
      ⟨fun hchildren s c d hc hd hbelow => ?_, fun hopened s n hn => ?_⟩
    · have hn : side.pick (l.child? s) (r.child? s) = some (side.pick c d) := by
        rw [hc, hd, pick_some]
      obtain ⟨c', hdata, hkept⟩ := hchildren s (side.pick c d) (by rw [child?_pick, hn])
      rcases keptAt_cases (hlocated s _ hn) hn s with
        ⟨hroot, -⟩ | ⟨c₀, d₀, hc₀, hd₀, hcoll', -, hframed⟩
      · obtain ⟨z, hz, hne⟩ := hbelow
        exact absurd (hroot z hz) hne
      · cases hc.symm.trans hc₀
        cases hd.symm.trans hd₀
        rw [hframed] at hkept
        have hcoll'' := sameCollection_of_sameData hdata (isCollection_pick side hcoll')
        obtain ⟨hlines, hfirst⟩ := of_kept_framed side hcoll''.2 hkept
        exact ⟨⟨c', hdata, hlines⟩, hfirst⟩
    · rw [child?_pick] at hn
      rcases keptAt_cases (hlocated s n hn) hn s with
        ⟨-, hwhole⟩ | ⟨c, d, hc, hd, hcoll', hbelow, hframed⟩
      · exact hwhole
      · obtain ⟨hcontains, hfirst⟩ := hopened s c d hc hd hbelow
        have hblock := isBlock_of_contains hcontains
        obtain ⟨t, hdata, hkept⟩ := hcontains
        have hcoll'' := sameCollection_of_sameData hdata (isCollection_pick side hcoll')
        rw [hc, hd, pick_some] at hn
        cases hn
        refine ⟨t, hdata, ?_⟩
        rw [hframed]
        exact kept_framed side hcoll''.2 (isBlock_of_sameData hdata hblock) hkept hfirst
  · intro s hs
    rw [child?_pick] at hs
    exact keptAt_of_none hs s
  · intro k hk
    obtain ⟨n, hn⟩ := Option.isSome_iff_exists.mp hk
    rw [child?_pick] at hn
    exact headedBy_keptAt (hlocated _ n hn) hn
  · intro i
    cases hn : side.pick (l.child? (.index i)) (r.child? (.index i)) with
    | none =>
        rw [keptAt_of_none hn]
        exact .inr (List.forall_mem_nil _)
    | some n => exact headed_keptAt (hlocated _ n hn) hn

/-! ### All levels -/

/-- **Opened collections contain those of a side** if and only if none of that side is empty where
collections are opened, and every item that is opened begins with a line that is kept. -/
theorem contains_iff_opened (side : Side) (hcoll : SameCollection l r)
    (h : Located .positional ds base R (some l) (some r)) :
    Contains side.dropped (partsLines (listing ds l r)) (side.pick l r) ↔
      ∀ p x y, Opened R l r p x y → isBlock (side.pick x y) = true ∧
        ∀ i, p.getLast? = some (.index i) →
          ¬BeginsWith side.dropped (partsLines (listing ds x y)) := by
  induction l using Node.child_induct generalizing r base R with
  | h l ih =>
      obtain ⟨R, rfl, hR⟩ := h.exists_inside hcoll
      rw [contains_iff_children side hcoll hR, forall_opened_iff hcoll]
      refine and_congr (by simp) ?_
      refine forall_congr' fun s => forall_congr' fun c => forall_congr' fun d =>
        forall_congr' fun hc => forall_congr' fun hd => forall_congr' fun hbelow => ?_
      have hchild := hR s ((mem_steps hcoll s).mpr (.inl (by rw [hc]; rfl)))
      rw [hc, hd] at hchild
      have hcoll' := hchild.reports.sameCollection hbelow
      rw [ih s c hc hcoll' hchild]
      constructor
      · rintro ⟨hall, hfirst⟩ p x y hopened
        refine ⟨(hall p x y hopened).1, fun i hi => ?_⟩
        cases p with
        | nil =>
            obtain ⟨rfl, rfl, -⟩ := opened_nil.mp hopened
            exact hfirst i (by simpa using hi)
        | cons t p => exact (hall _ x y hopened).2 i (by simpa using hi)
      · intro hall
        refine ⟨fun p x y hopened => ⟨(hall p x y hopened).1, fun i hi => ?_⟩, fun i hi => ?_⟩
        · exact (hall p x y hopened).2 i (by simp [List.getLast?_cons, hi])
        · exact (hall [] c d (opened_nil.mpr ⟨rfl, rfl, hcoll'⟩)).2 i (by rw [hi]; rfl)

end YamlDelta.Unified
