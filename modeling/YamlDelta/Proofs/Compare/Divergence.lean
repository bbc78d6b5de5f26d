/-
Positional comparison reports the points of divergence, each once.

Follow one location down two documents at the same time.  As long as both nodes on the
way are mappings, or both are sequences, the way goes on; it ends at the first location
where the two documents part.  That is a point of divergence, and which locations are
points of divergence is said here without reference to the comparison.

The main statement is that the comparison reports exactly these points: its differences
are the points of divergence in some order, no point twice, each with precisely the two
nodes that stand there.  The comparison never asks whether two kinds are compatible;
that what it does agrees with `Kind.compatible` is part of the proof.
-/
import Mathlib.Data.List.Infix
import YamlDelta.Proofs.Compare.Recursion
import YamlDelta.Proofs.Node.Content

namespace YamlDelta.Compare

open Node (at?)

/-! ### Points of divergence -/

/-- Two documents part here: one of them has no node, or the nodes are of kinds that are not
compared by content, or they are scalars of different content. -/
inductive Part : Option Node → Option Node → Prop
  | leftOnly (l : Node) : Part (some l) none
  | rightOnly (r : Node) : Part none (some r)
  | kinds {l r : Node} (h : l.kind.compatible r.kind = false) : Part (some l) (some r)
  | contents {v w : Scalar} {p q : Place} (hk : v.kind.compatible w.kind = true)
      (h : ¬v.SameContent w) : Part (some (.scalar v p)) (some (.scalar w q))

/-- Two documents go on from here: both nodes are mappings, or both are sequences. -/
inductive GoOn : Option Node → Option Node → Prop
  | intro {l r : Node} (h : SameCollection l r) : GoOn (some l) (some r)

/-- The documents go on at every location on the way, and part at its end. -/
def DivergencePoint (l r : Option Node) (p : List Step) : Prop :=
  (∀ q, q <+: p → q ≠ p → GoOn (at? l q) (at? r q)) ∧ Part (at? l p) (at? r p)

theorem divergencePoint_nil {l r : Option Node} : DivergencePoint l r [] ↔ Part l r := by
  constructor
  · exact fun h => h.2
  · intro h
    exact ⟨fun q hq hne => absurd (List.prefix_nil.mp hq) hne, h⟩

theorem divergencePoint_cons {l r : Option Node} {s : Step} {p : List Step} :
    DivergencePoint l r (s :: p) ↔
      GoOn l r ∧ DivergencePoint (l.bind (·.child? s)) (r.bind (·.child? s)) p := by
  constructor
  · rintro ⟨hway, hend⟩
    refine ⟨hway [] List.nil_prefix (by simp), fun q hq hne => ?_, hend⟩
    exact hway (s :: q) (List.prefix_cons_inj s |>.mpr hq) (by simpa using hne)
  · rintro ⟨hgo, hway, hend⟩
    refine ⟨fun q hq hne => ?_, hend⟩
    cases q with
    | nil => exact hgo
    | cons t q =>
        obtain ⟨rfl, hqp⟩ := List.cons_prefix_cons.mp hq
        exact hway q hqp (by simpa using hne)

theorem not_divergencePoint_none (p : List Step) : ¬DivergencePoint none none p := by
  rintro ⟨-, hend⟩
  rw [Node.at?_none] at hend
  cases hend

/-- Where two documents part they do not go on. -/
theorem Part.not_goOn {l r : Option Node} (h : Part l r) : ¬GoOn l r := by
  rintro ⟨hk, hc⟩
  cases h with
  | kinds h => rw [hk, Kind.compatible_refl] at h; cases h
  | contents hk' h => rename_i v w p q; cases v <;> cases hc

/-- No point of divergence lies beyond another. -/
theorem DivergencePoint.eq_of_leads_to {l r : Option Node} {p q : List Step}
    (hp : DivergencePoint l r p) (hq : DivergencePoint l r q) (h : p <+: q) : p = q := by
  by_contra hne
  exact hp.2.not_goOn (hq.1 p h hne)

/-! ### What is reported, and where -/

/-- The differences are those at these locations: the locations are the points of divergence, each
once, and every difference has the nodes that stand at its location. -/
structure ReportedAt (l r : Option Node) (ds : List Difference) (ps : List (List Step)) :
    Prop where
  nodup : ps.Nodup
  exact : ∀ p, p ∈ ps ↔ DivergencePoint l r p
  sides : ds.map (fun d => (d.left?, d.right?)) = ps.map fun p => (at? l p, at? r p)

/-- Nodes that part are one difference, at the root. -/
theorem reportedAt_root {l r : Option Node} {d : Difference} (h : Part l r)
    (hd : (d.left?, d.right?) = (l, r)) : ReportedAt l r [d] [[]] := by
  refine ⟨by simp, fun p => ?_, by simp [hd]⟩
  rw [List.mem_singleton]
  cases p with
  | nil => simp [divergencePoint_nil, h]
  | cons s p => simp [divergencePoint_cons, h.not_goOn]

/-- Nodes that neither part nor go on have no difference. -/
theorem reportedAt_nil {l r : Option Node} (hpart : ¬Part l r) (hgo : ¬GoOn l r) :
    ReportedAt l r [] [] := by
  refine ⟨by simp, fun p => ?_, rfl⟩
  cases p with
  | nil => simp [divergencePoint_nil, hpart]
  | cons s p => simp [divergencePoint_cons, hgo]

/-- The differences of two collections are those of their children, one step further down. -/
theorem reportedAt_children {deeper : Node → Node → List Difference} {l r : Node}
    (hcoll : SameCollection l r)
    (h : ∀ s, ∃ ps, ReportedAt (l.child? s) (r.child? s)
      (sides deeper (l.child? s) (r.child? s)) ps) :
    ∃ ps, ReportedAt (some l) (some r) (children deeper l r) ps := by
  choose points hpoints using h
  refine ⟨(steps l r).flatMap fun s => (points s).map (s :: ·), ?_, fun p => ?_, ?_⟩
  · rw [List.nodup_flatMap]
    refine ⟨fun s _ => (hpoints s).nodup.map (List.cons_injective), ?_⟩
    refine (nodup_steps l r).imp fun {s t} hst => ?_
    rintro p hs ht
    obtain ⟨p', -, rfl⟩ := List.mem_map.mp hs
    obtain ⟨q', -, hq⟩ := List.mem_map.mp ht
    exact hst (List.cons.inj hq).1.symm
  · rw [List.mem_flatMap]
    cases p with
    | nil =>
        have hpart : ¬DivergencePoint (some l) (some r) [] := fun hp =>
          (divergencePoint_nil.mp hp).not_goOn ⟨hcoll⟩
        simp [hpart]
    | cons s p =>
        rw [divergencePoint_cons, Option.bind_some, Option.bind_some, ← (hpoints s).exact p]
        constructor
        · rintro ⟨t, -, ht⟩
          obtain ⟨q, hq, heq⟩ := List.mem_map.mp ht
          obtain ⟨rfl, rfl⟩ := List.cons.inj heq
          exact ⟨⟨hcoll⟩, hq⟩
        · rintro ⟨-, hp⟩
          refine ⟨s, (mem_steps hcoll s).mpr ?_, List.mem_map_of_mem hp⟩
          -- a step that leads nowhere has no point of divergence behind it
          by_contra hnone
          rw [not_or, Option.not_isSome_iff_eq_none, Option.not_isSome_iff_eq_none] at hnone
          have hdiv := ((hpoints s).exact p).mp hp
          rw [hnone.1, hnone.2] at hdiv
          exact not_divergencePoint_none p hdiv
  · rw [children, List.map_flatMap, List.map_flatMap]
    refine List.flatMap_congr fun s _ => ?_
    rw [(hpoints s).sides, List.map_map]
    rfl

/-! ### The comparison -/

private theorem exists_reportedAt_sides {l r : Option Node}
    (h : ∀ a b, l = some a → r = some b →
      ∃ ps, ReportedAt (some a) (some b) (nodes .positional a b) ps) :
    ∃ ps, ReportedAt l r (sides (nodes .positional) l r) ps := by
  cases l with
  | none =>
      cases r with
      | none => exact ⟨[], reportedAt_nil (fun h => nomatch h) (fun h => nomatch h)⟩
      | some r => exact ⟨[[]], reportedAt_root (.rightOnly r) rfl⟩
  | some l =>
      cases r with
      | none => exact ⟨[[]], reportedAt_root (.leftOnly l) rfl⟩
      | some r => exact h l r rfl rfl

/-- Nodes that are neither collections of one kind nor scalars of the same content part. -/
theorem part_of_apart {l r : Node} (hcoll : ¬SameCollection l r)
    (hscalar : sameScalar l r = false) : Part (some l) (some r) := by
  by_cases hk : l.kind.compatible r.kind = true
  · cases l with
    | mapping ls p =>
        cases r with
        | mapping rs q => exact absurd ⟨rfl, rfl⟩ hcoll
        | sequence rs q => cases hk
        | scalar w q => cases w <;> cases hk
    | sequence ls p =>
        cases r with
        | mapping rs q => cases hk
        | sequence rs q => exact absurd ⟨rfl, rfl⟩ hcoll
        | scalar w q => cases w <;> cases hk
    | scalar v p =>
        cases r with
        | mapping rs q => cases v <;> cases hk
        | sequence rs q => cases v <;> cases hk
        | scalar w q =>
            refine .contents hk fun hsame => ?_
            rw [sameScalar, Scalar.sameContent_iff.mpr hsame] at hscalar
            cases hscalar
  · exact .kinds (by simpa using hk)

/-- Scalars of the same content do not part. -/
theorem not_part_of_sameScalar {l r : Node} (h : sameScalar l r = true) :
    ¬Part (some l) (some r) := by
  cases l <;> cases r <;> simp only [sameScalar, reduceCtorEq] at h
  intro hpart
  cases hpart with
  | kinds hk =>
      have hcomp := Scalar.compatible_of_sameContent h
      simp only [Node.kind] at hk
      rw [hcomp] at hk
      cases hk
  | contents hk hne => exact hne (Scalar.sameContent_iff.mp h)

private theorem exists_reportedAt_nodes (l : Node) :
    ∀ r, ∃ ps, ReportedAt (some l) (some r) (nodes .positional l r) ps := by
  induction l using Node.child_induct with
  | h l ih =>
      intro r
      by_cases hcoll : SameCollection l r
      · rw [nodes_of_sameCollection hcoll, settled, if_neg (by simp [CompareOptions.positional])]
        refine reportedAt_children hcoll fun s => exists_reportedAt_sides fun a b ha _ => ?_
        exact ih s a ha b
      · have hgo : ¬GoOn (some l) (some r) := by
          rintro ⟨h⟩
          exact hcoll h
        cases hscalar : sameScalar l r with
        | true =>
            rw [nodes_of_sameScalar hscalar]
            exact ⟨[], reportedAt_nil (not_part_of_sameScalar hscalar) hgo⟩
        | false =>
            rw [nodes_of_apart hcoll hscalar]
            exact ⟨[[]], reportedAt_root (part_of_apart hcoll hscalar) rfl⟩

/-- **Positional comparison reports exactly the points of divergence.**  There is a list of all
points of divergence, none twice and none beyond another, such that the differences in order have
the nodes at these points as their sides, and no side where no node stands. -/
theorem positional_reports_divergence_points (l r : Option Node) :
    ∃ ps : List (List Step), ps.Nodup ∧ (∀ p, p ∈ ps ↔ DivergencePoint l r p) ∧
      (∀ p ∈ ps, ∀ q ∈ ps, p <+: q → p = q) ∧
      (optional .positional l r).map (fun d => (d.left?, d.right?)) =
        ps.map fun p => (at? l p, at? r p) := by
  obtain ⟨ps, hps⟩ := exists_reportedAt_sides (l := l) (r := r)
    fun a b _ _ => exists_reportedAt_nodes a b
  refine ⟨ps, hps.nodup, hps.exact, fun p hp q hq h => ?_, hps.sides⟩
  exact ((hps.exact p).mp hp).eq_of_leads_to ((hps.exact q).mp hq) h

end YamlDelta.Compare
