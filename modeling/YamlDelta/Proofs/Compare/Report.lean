/-
Differences with the locations at which they stand.

A comparison returns differences in the order in which it walks the two trees.  Here each
is joined to its location, and `Reports` says what a list of them can look like: nothing,
or one difference where the two documents part, or the reports of all children one after
the other, each one step further down.  Whatever cancels only thins such a list out, so it
describes comparison with and without regard to order alike; without options to ignore
anything, a report leaves nothing out.

Where nodes are placed, the path of a difference is that of its location.
-/
import YamlDelta.Proofs.Compare.Counting
import YamlDelta.Proofs.Compare.Divergence
import YamlDelta.Proofs.Compare.Equality
import YamlDelta.Proofs.Compare.Thinning
import YamlDelta.Proofs.Node.Paths

namespace YamlDelta.Compare

open Node (at? SameData)

/-- Differences with the locations at which they stand, seen from the two nodes compared. -/
abbrev Report := List (List Step × Difference)

/-- The report seen from one step further up. -/
def Report.behind (s : Step) (R : Report) : Report :=
  R.map fun x => (s :: x.1, x.2)

/-- The difference has these nodes as its sides, or lacks one of them. -/
structure SidesFrom (l r : Option Node) (d : Difference) : Prop where
  left : d.left? = none ∨ d.left? = l
  right : d.right? = none ∨ d.right? = r

/-- A difference of two nodes has at least one of them. -/
theorem SidesFrom.eq_of_some {l r : Node} {d : Difference} (h : SidesFrom (some l) (some r) d) :
    d = .added r ∨ d = .deleted l ∨ d = .modified l r := by
  obtain ⟨hl, hr⟩ := h
  cases d <;> simp_all [Difference.left?, Difference.right?]

/-- What a comparison of two nodes can report, each of which may be missing. -/
inductive Reports (options : CompareOptions) : Option Node → Option Node → Report → Prop
  | silent {l r : Option Node} (h : options.ignoreOrder = true ∨ ¬Part l r ∧ ¬GoOn l r) :
      Reports options l r []
  | here {l r : Option Node} {d : Difference} (hpart : Part l r) (hsides : SidesFrom l r d)
      (h : options.ignoreOrder = true ∨ (d.left?, d.right?) = (l, r)) :
      Reports options l r [([], d)]
  | inside {l r : Node} (hcoll : SameCollection l r) (R : Step → Report)
      (h : ∀ s ∈ steps l r, Reports options (l.child? s) (r.child? s) (R s)) :
      Reports options (some l) (some r) ((steps l r).flatMap fun s => (R s).behind s)

variable {options : CompareOptions} {l r : Node} {a b : Option Node} {R : Report}

theorem map_snd_behind (s : Step) (R : Report) :
    (R.behind s).map Prod.snd = R.map Prod.snd := by
  rw [Report.behind, List.map_map]
  rfl

theorem map_snd_flatMap_behind (ss : List Step) (R : Step → Report) :
    (ss.flatMap fun s => (R s).behind s).map Prod.snd = ss.flatMap fun s => (R s).map Prod.snd := by
  rw [List.map_flatMap]
  exact List.flatMap_congr fun s _ => map_snd_behind s (R s)

theorem mem_behind {s : Step} {p : List Step} {d : Difference} :
    (p, d) ∈ R.behind s ↔ ∃ q, p = s :: q ∧ (q, d) ∈ R := by
  rw [Report.behind, List.mem_map]
  constructor
  · rintro ⟨⟨q, e⟩, hmem, heq⟩
    obtain ⟨rfl, rfl⟩ := Prod.mk.inj heq
    exact ⟨q, rfl, hmem⟩
  · rintro ⟨q, rfl, hmem⟩
    exact ⟨(q, d), hmem, rfl⟩

theorem mem_flatMap_behind {ss : List Step} {R : Step → Report} {p : List Step}
    {d : Difference} :
    (p, d) ∈ ss.flatMap (fun s => (R s).behind s) ↔ ∃ s ∈ ss, ∃ q, p = s :: q ∧ (q, d) ∈ R s := by
  rw [List.mem_flatMap]
  exact exists_congr fun s => and_congr_right fun _ => mem_behind

/-! ### Every comparison makes a report -/

/-- What is left of a report is a report. -/
theorem Reports.thin (hignore : options.ignoreOrder = true) (h : Reports options a b R)
    {es : List Difference} (hes : Thinned es (R.map Prod.snd)) :
    ∃ R', R'.map Prod.snd = es ∧ Reports options a b R' := by
  induction h generalizing es with
  | silent _ => exact ⟨[], hes.of_nil.symm, .silent (.inl hignore)⟩
  | @here a b d hpart hsides _ =>
      cases hes with
      | @kept _ d' _ _ hl hr hes =>
          rw [hes.of_nil]
          refine ⟨[([], d')], rfl, .here hpart ⟨?_, ?_⟩ (.inl hignore)⟩
          · rcases hl with hl | hl
            · exact .inl hl
            · rw [hl]
              exact hsides.left
          · rcases hr with hr | hr
            · exact .inl hr
            · rw [hr]
              exact hsides.right
      | dropped _ hes => exact ⟨[], hes.of_nil.symm, .silent (.inl hignore)⟩
  | @inside l r hcoll R _ ih =>
      rw [map_snd_flatMap_behind] at hes
      obtain ⟨g, rfl, hg⟩ := hes.exists_flatMap (nodup_steps l r)
      have hthin : ∀ s, ∃ R', s ∈ steps l r →
          R'.map Prod.snd = g s ∧ Reports options (l.child? s) (r.child? s) R' := by
        intro s
        by_cases hs : s ∈ steps l r
        · obtain ⟨R', hR'⟩ := ih s hs (hg s hs)
          exact ⟨R', fun _ => hR'⟩
        · exact ⟨[], fun h => absurd h hs⟩
      choose R' hR' using hthin
      refine ⟨_, ?_, .inside hcoll R' fun s hs => (hR' s hs).2⟩
      rw [map_snd_flatMap_behind]
      exact List.flatMap_congr fun s hs => (hR' s hs).1

theorem exists_reports_sides {deeper : Node → Node → List Difference}
    (h : ∀ x y, a = some x → b = some y →
      ∃ R, R.map Prod.snd = deeper x y ∧ Reports options (some x) (some y) R) :
    ∃ R, R.map Prod.snd = sides deeper a b ∧ Reports options a b R := by
  cases a with
  | none =>
      cases b with
      | none => exact ⟨[], rfl, .silent (.inr ⟨nofun, nofun⟩)⟩
      | some y =>
          exact ⟨[([], .added y)], rfl, .here (.rightOnly y) ⟨.inl rfl, .inr rfl⟩ (.inr rfl)⟩
  | some x =>
      cases b with
      | none =>
          exact ⟨[([], .deleted x)], rfl, .here (.leftOnly x) ⟨.inr rfl, .inl rfl⟩ (.inr rfl)⟩
      | some y => exact h x y rfl rfl

/-- **Every comparison makes a report.** -/
theorem exists_reports (options : CompareOptions) (l r : Node) :
    ∃ R, R.map Prod.snd = nodes options l r ∧ Reports options (some l) (some r) R := by
  induction l using Node.child_induct generalizing r with
  | h l ih =>
      by_cases hcoll : SameCollection l r
      · have hsteps : ∀ s, ∃ R, R.map Prod.snd = sides (nodes options) (l.child? s) (r.child? s) ∧
            Reports options (l.child? s) (r.child? s) R :=
          fun s => exists_reports_sides fun x y hx _ => ih s x hx y
        choose R hR using hsteps
        have hreports := Reports.inside hcoll R fun s _ => (hR s).2
        have hchildren : ((steps l r).flatMap fun s => (R s).behind s).map Prod.snd =
            children (nodes options) l r := by
          rw [map_snd_flatMap_behind]
          exact List.flatMap_congr fun s _ => (hR s).1
        rw [nodes_of_sameCollection hcoll]
        unfold settled
        split
        · rename_i hcancel
          refine hreports.thin hcancel.1 ?_
          rw [hchildren]
          exact thinned_cancel _ _
        · exact ⟨_, hchildren, hreports⟩
      · cases hscalar : sameScalar l r with
        | true =>
            refine ⟨[], (nodes_of_sameScalar hscalar).symm, .silent (.inr ⟨?_, ?_⟩)⟩
            · exact not_part_of_sameScalar hscalar
            · rintro ⟨h⟩
              exact hcoll h
        | false =>
            refine ⟨[([], .modified l r)], (nodes_of_apart hcoll hscalar).symm, ?_⟩
            exact .here (part_of_apart hcoll hscalar) ⟨.inr rfl, .inr rfl⟩ (.inr rfl)

/-- The differences of two documents, each of which may be missing, make a report. -/
theorem exists_reports_optional (options : CompareOptions) (a b : Option Node) :
    ∃ R, R.map Prod.snd = optional options a b ∧ Reports options a b R :=
  exists_reports_sides fun x y _ _ => exists_reports options x y

/-- Every difference of two streams is reported of two of their documents. -/
theorem exists_report_of_mem {left right : Stream} {doc : DocumentDiff} {d : Difference}
    (hdoc : doc ∈ (StreamDiff.ofStreams options left right).documents)
    (hd : d ∈ doc.differences) :
    ∃ i R p, Reports options (left.document i) (right.document i) R ∧ (p, d) ∈ R := by
  obtain ⟨i, -, rfl⟩ := List.mem_map.mp hdoc
  have hd := (Difference.perm_sort _).mem_iff.mp hd
  obtain ⟨R, hR, hreports⟩ :=
    exists_reports_optional options (left.document i) (right.document i)
  rw [← hR] at hd
  obtain ⟨⟨p, d⟩, hmem, rfl⟩ := List.mem_map.mp hd
  exact ⟨i, R, p, hreports, hmem⟩

/-! ### Reading a report -/

/-- Of collections of one kind the children are reported. -/
theorem Reports.exists_inside (hcoll : SameCollection l r)
    (h : Reports options (some l) (some r) R) :
    ∃ R' : Step → Report, R = ((steps l r).flatMap fun s => (R' s).behind s) ∧
      ∀ s ∈ steps l r, Reports options (l.child? s) (r.child? s) (R' s) := by
  cases h with
  | silent h =>
      rcases h with h | ⟨-, h⟩
      · refine ⟨fun _ => [], ?_, fun s _ => .silent (.inl h)⟩
        exact (List.flatMap_eq_nil_iff.mpr fun _ _ => rfl).symm
      · exact absurd ⟨hcoll⟩ h
  | here hpart _ _ => exact absurd ⟨hcoll⟩ hpart.not_goOn
  | inside _ R' h => exact ⟨R', rfl, h⟩

/-- Nodes that are not collections of one kind are at most reported as wholes. -/
theorem Reports.eq_of_not_goOn (hgo : ¬GoOn a b) (h : Reports options a b R) :
    R = [] ∨ ∃ d, R = [([], d)] ∧ SidesFrom a b d := by
  cases h with
  | silent _ => exact .inl rfl
  | here _ hsides _ => exact .inr ⟨_, rfl, hsides⟩
  | inside hcoll _ _ => exact absurd ⟨hcoll⟩ hgo

/-- Where something is reported further down, two collections of one kind stand. -/
theorem Reports.sameCollection (h : Reports options (some l) (some r) R)
    (hbelow : ∃ z ∈ R, z.1 ≠ []) : SameCollection l r := by
  obtain ⟨z, hz, hne⟩ := hbelow
  by_contra hcoll
  rcases h.eq_of_not_goOn (by rintro ⟨h⟩; exact hcoll h) with rfl | ⟨d, rfl, -⟩
  · cases hz
  · exact hne (by rw [List.mem_singleton.mp hz])

/-- What is reported stands at a point of divergence, with no other sides than the nodes there. -/
theorem Reports.of_mem (h : Reports options a b R) {p : List Step} {d : Difference}
    (hmem : (p, d) ∈ R) : DivergencePoint a b p ∧ SidesFrom (at? a p) (at? b p) d := by
  induction h generalizing p with
  | silent _ => cases hmem
  | here hpart hsides _ =>
      obtain ⟨rfl, rfl⟩ := Prod.mk.inj (List.mem_singleton.mp hmem)
      exact ⟨divergencePoint_nil.mpr hpart, hsides⟩
  | inside hcoll R _ ih =>
      obtain ⟨s, hs, q, rfl, hq⟩ := mem_flatMap_behind.mp hmem
      obtain ⟨hpoint, hsides⟩ := ih s hs hq
      exact ⟨divergencePoint_cons.mpr ⟨⟨hcoll⟩, hpoint⟩, hsides⟩

/-- No location is reported twice. -/
theorem Reports.nodup (h : Reports options a b R) : (R.map Prod.fst).Nodup := by
  induction h with
  | silent _ => exact List.nodup_nil
  | here _ _ _ => exact List.nodup_singleton _
  | @inside l r _ R _ ih =>
      rw [List.map_flatMap, List.nodup_flatMap]
      have hbehind : ∀ s, ((R s).behind s).map Prod.fst = ((R s).map Prod.fst).map (s :: ·) := by
        intro s
        rw [Report.behind, List.map_map, List.map_map]
        rfl
      refine ⟨fun s hs => ?_, (nodup_steps l r).imp fun {s t} hst => ?_⟩
      · rw [hbehind]
        exact (ih s hs).map List.cons_injective
      · show List.Disjoint (((R s).behind s).map Prod.fst) (((R t).behind t).map Prod.fst)
        rw [hbehind, hbehind]
        intro p hp hp'
        obtain ⟨q, -, rfl⟩ := List.mem_map.mp hp
        obtain ⟨q', -, hq⟩ := List.mem_map.mp hp'
        exact hst (List.cons.inj hq).1.symm

/-- A positional report has every point of divergence, with both nodes that stand there. -/
theorem Reports.of_divergencePoint (h : Reports .positional a b R) {p : List Step}
    (hp : DivergencePoint a b p) :
    ∃ d, (p, d) ∈ R ∧ (d.left?, d.right?) = (at? a p, at? b p) := by
  induction h generalizing p with
  | silent h =>
      rcases h with h | ⟨hpart, hgo⟩
      · cases h
      · cases p with
        | nil => exact absurd (divergencePoint_nil.mp hp) hpart
        | cons s p => exact absurd (divergencePoint_cons.mp hp).1 hgo
  | @here a b d hpart _ h =>
      rcases h with h | h
      · cases h
      · cases p with
        | nil => exact ⟨d, List.mem_singleton.mpr rfl, h⟩
        | cons s p => exact absurd (divergencePoint_cons.mp hp).1 hpart.not_goOn
  | @inside l r hcoll R _ ih =>
      cases p with
      | nil => exact absurd (GoOn.intro hcoll) (divergencePoint_nil.mp hp).not_goOn
      | cons s p =>
          obtain ⟨-, hpoint⟩ := divergencePoint_cons.mp hp
          have hs : s ∈ steps l r := by
            by_contra hs
            rw [mem_steps hcoll, not_or, Option.not_isSome_iff_eq_none,
              Option.not_isSome_iff_eq_none] at hs
            rw [Option.bind_some, Option.bind_some, hs.1, hs.2] at hpoint
            exact not_divergencePoint_none p hpoint
          obtain ⟨d, hd, hsides⟩ := ih s hs hpoint
          exact ⟨d, mem_flatMap_behind.mpr ⟨s, hs, p, rfl, hd⟩, hsides⟩

/-- A difference that is reported at the nodes themselves is the only one. -/
theorem Reports.eq_singleton (h : Reports options a b R) {d : Difference} (hd : ([], d) ∈ R) :
    R = [([], d)] ∧ SidesFrom a b d := by
  have hsides := (h.of_mem hd).2
  cases h with
  | silent _ => cases hd
  | here _ _ _ => exact ⟨by rw [List.mem_singleton.mp hd], hsides⟩
  | inside _ R _ =>
      obtain ⟨s, -, q, hnil, -⟩ := mem_flatMap_behind.mp hd
      cases hnil

theorem Reports.not_part_of_nil (h : Reports .positional a b []) : ¬Part a b := fun hpart => by
  obtain ⟨d, hd, -⟩ := h.of_divergencePoint (divergencePoint_nil.mpr hpart)
  cases hd

/-- Where a positional report is empty, both nodes hold the same data. -/
theorem Reports.sameData (h : Reports .positional (some l) (some r) []) : SameData l r := by
  induction l using Node.child_induct generalizing r with
  | h l ih =>
      by_cases hcoll : SameCollection l r
      · obtain ⟨R, hR, hchildren⟩ := h.exists_inside hcoll
        rw [sameData_iff_children hcoll]
        intro s
        by_cases hs : s ∈ steps l r
        · have hnil : R s = [] := List.map_eq_nil_iff.mp (List.flatMap_eq_nil_iff.mp hR.symm s hs)
          have hchild := hchildren s hs
          rw [hnil] at hchild
          have hpart := hchild.not_part_of_nil
          cases hx : l.child? s with
          | none =>
              cases hy : r.child? s with
              | none => exact .none
              | some y => exact absurd (hx ▸ hy ▸ .rightOnly y) hpart
          | some x =>
              cases hy : r.child? s with
              | none => exact absurd (hx ▸ hy ▸ .leftOnly x) hpart
              | some y =>
                  rw [hx, hy] at hchild
                  exact .some (ih s x hx hchild)
        · rw [mem_steps hcoll, not_or, Option.not_isSome_iff_eq_none,
            Option.not_isSome_iff_eq_none] at hs
          rw [hs.1, hs.2]
          exact .none
      · cases hscalar : sameScalar l r with
        | true => exact sameData_of_sameScalar hscalar
        | false => exact absurd (part_of_apart hcoll hscalar) h.not_part_of_nil

/-! ### Where a report goes inside -/

/-- Two collections of one kind at one location, the root or one below which something is
reported. -/
structure Opened (R : Report) (l r : Node) (p : List Step) (x y : Node) : Prop where
  left : at? (some l) p = some x
  right : at? (some r) p = some y
  coll : SameCollection x y
  below : p = [] ∨ ∃ z ∈ R, p <+: z.1 ∧ p ≠ z.1

theorem opened_nil {x y : Node} :
    Opened R l r [] x y ↔ l = x ∧ r = y ∧ SameCollection x y :=
  ⟨fun h => ⟨Option.some.inj h.left, Option.some.inj h.right, h.coll⟩,
    fun ⟨hl, hr, hcoll⟩ => ⟨congrArg some hl, congrArg some hr, hcoll, .inl rfl⟩⟩

theorem Opened.mem_steps {x y : Node} {s : Step} {p : List Step} (h : SameCollection l r)
    (hopened : Opened R l r (s :: p) x y) : s ∈ steps l r := by
  rw [Compare.mem_steps h]
  have hl := hopened.left
  rw [Node.at?_cons, Option.bind_some] at hl
  cases hc : l.child? s with
  | none => simp [hc] at hl
  | some c => exact .inl rfl

theorem opened_cons {ss : List Step} {R : Step → Report} {s : Step} (hs : s ∈ ss)
    {p : List Step} {x y : Node} :
    Opened (ss.flatMap fun s => (R s).behind s) l r (s :: p) x y ↔
      ∃ c d, l.child? s = some c ∧ r.child? s = some d ∧ (∃ z ∈ R s, z.1 ≠ []) ∧
        Opened (R s) c d p x y := by
  constructor
  · rintro ⟨hl, hr, hcoll, hbelow⟩
    rcases hbelow with hnil | ⟨⟨q, e⟩, hmem, hprefix, hne⟩
    · cases hnil
    · obtain ⟨t, -, q, rfl, hmem'⟩ := mem_flatMap_behind.mp hmem
      obtain ⟨rfl, hprefix'⟩ := List.cons_prefix_cons.mp hprefix
      have hne' : p ≠ q := fun heq => hne (heq ▸ rfl)
      rw [Node.at?_cons, Option.bind_some] at hl hr
      cases hc : l.child? s with
      | none => simp [hc] at hl
      | some c =>
          cases hd : r.child? s with
          | none => simp [hd] at hr
          | some d =>
              rw [hc] at hl
              rw [hd] at hr
              refine ⟨c, d, rfl, rfl, ⟨(q, e), hmem', ?_⟩, hl, hr, hcoll, ?_⟩
              · rintro rfl
                exact hne' (List.prefix_nil.mp hprefix')
              · exact .inr ⟨(q, e), hmem', hprefix', hne'⟩
  · rintro ⟨c, d, hc, hd, ⟨⟨q, e⟩, hmem, hq⟩, hl, hr, hcoll, hbelow⟩
    refine ⟨by simpa [hc] using hl, by simpa [hd] using hr, hcoll, .inr ?_⟩
    rcases hbelow with rfl | ⟨⟨q', e'⟩, hmem', hprefix, hne⟩
    · refine ⟨(s :: q, e), mem_flatMap_behind.mpr ⟨s, hs, q, rfl, hmem⟩, ?_, ?_⟩
      · exact List.cons_prefix_cons.mpr ⟨rfl, List.nil_prefix⟩
      · exact fun heq => hq (List.cons.inj heq).2.symm
    · refine ⟨(s :: q', e'), mem_flatMap_behind.mpr ⟨s, hs, q', rfl, hmem'⟩, ?_, ?_⟩
      · exact List.cons_prefix_cons.mpr ⟨rfl, hprefix⟩
      · exact fun heq => hne (List.cons.inj heq).2

/-- What holds of all collections that a report goes into holds of the two nodes, and of all that
the reports of their children go into. -/
theorem forall_opened_iff {R : Step → Report} {P : List Step → Node → Node → Prop}
    (hcoll : SameCollection l r) :
    (∀ p x y, Opened ((steps l r).flatMap fun s => (R s).behind s) l r p x y → P p x y) ↔
      P [] l r ∧ ∀ s c d, l.child? s = some c → r.child? s = some d → (∃ z ∈ R s, z.1 ≠ []) →
        ∀ p x y, Opened (R s) c d p x y → P (s :: p) x y := by
  constructor
  · intro hall
    refine ⟨hall [] l r (opened_nil.mpr ⟨rfl, rfl, hcoll⟩), ?_⟩
    intro s c d hc hd hbelow p x y hopened
    have hs : s ∈ steps l r := (mem_steps hcoll s).mpr (.inl (by rw [hc]; rfl))
    exact hall (s :: p) x y ((opened_cons hs).mpr ⟨c, d, hc, hd, hbelow, hopened⟩)
  · rintro ⟨hroot, hchildren⟩ p x y hopened
    cases p with
    | nil =>
        obtain ⟨rfl, rfl, -⟩ := opened_nil.mp hopened
        exact hroot
    | cons s p =>
        obtain ⟨c, d, hc, hd, hbelow, hopened⟩ := (opened_cons (hopened.mem_steps hcoll)).mp hopened
        exact hchildren s c d hc hd hbelow p x y hopened

/-- The documents go on all the way into collections that a report goes into. -/
theorem Opened.goOn {x y : Node} {p q : List Step} (h : Reports options (some l) (some r) R)
    (hopened : Opened R l r p x y) (hq : q <+: p) : GoOn (at? (some l) q) (at? (some r) q) := by
  by_cases hqp : q = p
  · rw [hqp, hopened.left, hopened.right]
    exact ⟨hopened.coll⟩
  · rcases hopened.below with rfl | ⟨⟨p', d⟩, hmem, hprefix, -⟩
    · exact absurd (List.prefix_nil.mp hq) hqp
    · refine (h.of_mem hmem).1.1 q (hq.trans hprefix) fun heq => hqp ?_
      exact hq.eq_of_length_le (heq ▸ hprefix.length_le)

/-- The nodes themselves are opened on the way to all that is. -/
theorem Opened.sameCollection {x y : Node} {p : List Step}
    (h : Reports options (some l) (some r) R) (hopened : Opened R l r p x y) :
    SameCollection l r := by
  obtain ⟨hcoll⟩ := hopened.goOn h List.nil_prefix
  exact hcoll

/-! ### Paths of differences -/

/-- The nodes, where they are not missing, are placed at a path. -/
def PlacedAt (path : String) (a b : Option Node) : Prop :=
  (∀ n, a = some n → n.Placed path) ∧ ∀ n, b = some n → n.Placed path

theorem PlacedAt.child {path : String} (h : PlacedAt path (some l) (some r)) (s : Step) :
    PlacedAt (Path.step path s) (l.child? s) (r.child? s) :=
  ⟨fun _ hc => (h.1 l rfl).child hc, fun _ hc => (h.2 r rfl).child hc⟩

/-- What stands at a location on either side has the path of the location. -/
theorem PlacedAt.path_eq {path : String} (h : PlacedAt path a b) {p : List Step} {n : Node}
    (hn : at? a p = some n ∨ at? b p = some n) : n.path = Path.extend path p := by
  rcases hn with hn | hn
  · cases ha : a with
    | none => simp [ha] at hn
    | some m =>
        rw [ha] at hn
        exact ((h.1 m ha).at? hn).path_eq
  · cases hb : b with
    | none => simp [hb] at hn
    | some m =>
        rw [hb] at hn
        exact ((h.2 m hb).at? hn).path_eq

/-- Either side of a difference has the path of its location. -/
theorem Reports.side_path_eq {path : String} (h : Reports options a b R)
    (hplaced : PlacedAt path a b) {p : List Step} {d : Difference} (hmem : (p, d) ∈ R) {n : Node}
    (hn : d.left? = some n ∨ d.right? = some n) : n.path = Path.extend path p := by
  obtain ⟨hleft, hright⟩ := (h.of_mem hmem).2
  rcases hn with hn | hn
  · rcases hleft with hl | hl
    · rw [hn] at hl
      cases hl
    · exact hplaced.path_eq (.inl (hl.symm.trans hn))
  · rcases hright with hr | hr
    · rw [hn] at hr
      cases hr
    · exact hplaced.path_eq (.inr (hr.symm.trans hn))

/-- A difference has the path of its location. -/
theorem Reports.path_eq {path : String} (h : Reports options a b R) (hplaced : PlacedAt path a b)
    {p : List Step} {d : Difference} (hmem : (p, d) ∈ R) : d.path = Path.extend path p := by
  have hside := fun {n} => h.side_path_eq hplaced hmem (n := n)
  cases d with
  | added n => exact hside (.inr rfl)
  | deleted n => exact hside (.inl rfl)
  | modified n m => exact hside (.inl rfl)

/-- The locations of differences follow from their paths. -/
theorem report_eq {R R' : Report} (h : R.map Prod.snd = R'.map Prod.snd)
    (hR : ∀ x ∈ R, x.2.path = Path.render x.1) (hR' : ∀ x ∈ R', x.2.path = Path.render x.1) :
    R = R' := by
  have hinj : Function.Injective fun x : List Step × Difference => (Path.render x.1, x.2) := by
    intro x y hxy
    obtain ⟨hpath, hd⟩ := Prod.mk.inj hxy
    exact Prod.ext (Path.render_inj hpath) hd
  have hpaths : ∀ S : Report, (∀ x ∈ S, x.2.path = Path.render x.1) →
      S.map (fun x => (Path.render x.1, x.2)) = (S.map Prod.snd).map fun d => (d.path, d) := by
    intro S hS
    rw [List.map_map]
    exact List.map_congr_left fun x hx => by rw [Function.comp_apply, hS x hx]
  exact List.map_injective_iff.mpr hinj (by rw [hpaths R hR, hpaths R' hR', h])

end YamlDelta.Compare
