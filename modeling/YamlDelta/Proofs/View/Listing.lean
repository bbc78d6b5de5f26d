/-
The merged document as a tree.

Before it becomes lines, the merged document is a tree of what is shown where: at each
location a node is written whole under some status, or the collections of both documents
are opened and their children shown one after the other.  `listing` builds that tree, and
its lines are those of the unified view (`document_eq_lines`).

The view finds differences by their paths.  Where nodes are placed, that is finding them
by location (`Indexed`), and what lies below a path is what was reported further down.
Only then is a collection opened just where there is something to show in it.
-/
import YamlDelta.Proofs.Compare.Counting
import YamlDelta.Proofs.Compare.Report
import YamlDelta.View.Unified

namespace YamlDelta

namespace Unified

open Compare

/-! ### Differences found by location -/

/-- Looking for differences by the path of a location below `base` finds what the report has
there. -/
structure Indexed (ds : List Difference) (base : List Step) (R : Report) : Prop where
  at? : ∀ q d, differenceAt? ds (Path.render (base ++ q)) = some d ↔ (q, d) ∈ R
  below : ∀ q, hasBelow ds (Path.render (base ++ q)) = true ↔ ∃ x ∈ R, q <+: x.1 ∧ q ≠ x.1

variable {options : CompareOptions} {ds : List Difference} {base : List Step} {R : Report}

theorem differenceAt?_mem {path : String} {d : Difference} (h : differenceAt? ds path = some d) :
    d ∈ ds ∧ d.path = path := by
  unfold differenceAt? at h
  exact ⟨List.mem_reverse.mp (List.mem_of_find?_eq_some h), by simpa using List.find?_some h⟩

/-- **Differences are found by their locations.** -/
theorem indexed_root {a b : Option Node} (h : Reports options a b R) (hplaced : PlacedAt "" a b)
    (hds : ds.Perm (R.map Prod.snd)) : Indexed ds [] R := by
  have hmem : ∀ d, d ∈ ds ↔ ∃ p, (p, d) ∈ R := by
    intro d
    rw [hds.mem_iff, List.mem_map]
    exact ⟨fun ⟨x, hx, hd⟩ => ⟨x.1, hd ▸ hx⟩, fun ⟨p, hp⟩ => ⟨(p, d), hp, rfl⟩⟩
  constructor
  · intro q d
    rw [List.nil_append]
    constructor
    · intro hfind
      obtain ⟨hd, hpath⟩ := differenceAt?_mem hfind
      obtain ⟨p, hp⟩ := (hmem d).mp hd
      rw [h.path_eq hplaced hp] at hpath
      rwa [← Path.render_inj hpath]
    · intro hq
      have hsome : (differenceAt? ds (Path.render q)).isSome = true := by
        rw [differenceAt?, List.find?_isSome]
        exact ⟨d, List.mem_reverse.mpr ((hmem d).mpr ⟨q, hq⟩), by simp [h.path_eq hplaced hq,
          Path.extend_root]⟩
      obtain ⟨e, he⟩ := Option.isSome_iff_exists.mp hsome
      obtain ⟨hmem', hpath⟩ := differenceAt?_mem he
      obtain ⟨p, hp⟩ := (hmem e).mp hmem'
      rw [h.path_eq hplaced hp] at hpath
      rw [Path.render_inj hpath] at hp
      have heq := List.inj_on_of_nodup_map h.nodup hp hq rfl
      rw [he, (Prod.mk.inj heq).2]
  · intro q
    rw [List.nil_append, hasBelow, List.any_eq_true]
    constructor
    · rintro ⟨d, hd, hbelow⟩
      obtain ⟨p, hp⟩ := (hmem d).mp hd
      rw [h.path_eq hplaced hp, Path.extend_root, Path.isBelow_render] at hbelow
      exact ⟨(p, d), hp, hbelow⟩
    · rintro ⟨⟨p, d⟩, hp, hbelow⟩
      refine ⟨d, (hmem d).mpr ⟨p, hp⟩, ?_⟩
      rwa [h.path_eq hplaced hp, Path.extend_root, Path.isBelow_render]

theorem Indexed.child {ss : List Step} {R : Step → Report}
    (h : Indexed ds base (ss.flatMap fun s => (R s).behind s)) {s : Step} (hs : s ∈ ss) :
    Indexed ds (base ++ [s]) (R s) := by
  constructor
  · intro q d
    rw [List.append_assoc, List.singleton_append, h.at?, mem_flatMap_behind]
    constructor
    · rintro ⟨t, -, q', heq, hmem⟩
      obtain ⟨rfl, rfl⟩ := List.cons.inj heq
      exact hmem
    · intro hmem
      exact ⟨s, hs, q, rfl, hmem⟩
  · intro q
    rw [List.append_assoc, List.singleton_append, h.below]
    constructor
    · rintro ⟨⟨p, d⟩, hmem, hprefix, hne⟩
      obtain ⟨t, -, q', rfl, hmem'⟩ := mem_flatMap_behind.mp hmem
      obtain ⟨rfl, hprefix'⟩ := List.cons_prefix_cons.mp hprefix
      exact ⟨(q', d), hmem', hprefix', fun heq => hne (heq ▸ rfl)⟩
    · rintro ⟨⟨p, d⟩, hmem, hprefix, hne⟩
      refine ⟨(s :: p, d), mem_flatMap_behind.mpr ⟨s, hs, p, rfl, hmem⟩, ?_, ?_⟩
      · exact List.cons_prefix_cons.mpr ⟨rfl, hprefix⟩
      · exact fun heq => hne (List.cons.inj heq).2

/-- What is found at the base itself. -/
theorem Indexed.at_base (h : Indexed ds base R) (d : Difference) :
    differenceAt? ds (Path.render base) = some d ↔ ([], d) ∈ R := by
  have hroot := h.at? [] d
  rwa [List.append_nil] at hroot

theorem Indexed.below_base (h : Indexed ds base R) :
    hasBelow ds (Path.render base) = true ↔ ∃ x ∈ R, x.1 ≠ [] := by
  have hroot := h.below []
  rw [List.append_nil] at hroot
  rw [hroot]
  exact exists_congr fun x => and_congr_right fun _ => by simp [eq_comm]

/-- Where nothing is found, neither here nor below, nothing is reported. -/
theorem Indexed.eq_nil (h : Indexed ds base R)
    (hnone : differenceAt? ds (Path.render base) = none)
    (hbelow : hasBelow ds (Path.render base) = false) : R = [] := by
  refine List.eq_nil_iff_forall_not_mem.mpr fun ⟨p, d⟩ hmem => ?_
  by_cases hp : p = []
  · rw [hp, ← h.at_base, hnone] at hmem
    cases hmem
  · have htrue := h.below_base.mpr ⟨_, hmem, hp⟩
    rw [hbelow] at htrue
    cases htrue

/-- What is reported of two nodes, each of which may be missing, at the location where they are
placed, and found there. -/
structure Located (options : CompareOptions) (ds : List Difference) (base : List Step) (R : Report)
    (a b : Option Node) : Prop where
  reports : Reports options a b R
  indexed : Indexed ds base R
  placed : PlacedAt (Path.render base) a b

theorem Located.path_eq {a : Option Node} {r : Node} (h : Located options ds base R a (some r)) :
    r.path = Path.render base :=
  (h.placed.2 r rfl).path_eq

/-- What is reported of collections is located in their children. -/
theorem Located.exists_inside {l r : Node} (h : Located options ds base R (some l) (some r))
    (hcoll : SameCollection l r) :
    ∃ R' : Step → Report, R = ((steps l r).flatMap fun s => (R' s).behind s) ∧
      ∀ s ∈ steps l r, Located options ds (base ++ [s]) (R' s) (l.child? s) (r.child? s) := by
  obtain ⟨R', rfl, hR'⟩ := h.reports.exists_inside hcoll
  refine ⟨R', rfl, fun s hs => ⟨hR' s hs, h.indexed.child hs, ?_⟩⟩
  rw [Path.render, List.foldl_append]
  exact h.placed.child s

/-- Where something is found further down, two collections of one kind stand. -/
theorem Located.sameCollection {l r : Node} (h : Located options ds base R (some l) (some r))
    (hbelow : hasBelow ds r.path = true) : SameCollection l r := by
  rw [h.path_eq, h.indexed.below_base] at hbelow
  exact h.reports.sameCollection hbelow

/-- Collections that a report goes into are located with a report of their own. -/
theorem Located.of_opened {l r x y : Node} {p : List Step}
    (h : Located options ds base R (some l) (some r)) (hopened : Opened R l r p x y) :
    ∃ R', Located options ds (base ++ p) R' (some x) (some y) ∧
      ∀ q u v, Opened R' x y q u v → Opened R l r (p ++ q) u v := by
  induction p generalizing l r base R with
  | nil =>
      obtain ⟨rfl, rfl, -⟩ := opened_nil.mp hopened
      rw [List.append_nil]
      exact ⟨R, h, fun _ _ _ h => h⟩
  | cons s p ih =>
      have hcoll := hopened.sameCollection h.reports
      have hs := hopened.mem_steps hcoll
      obtain ⟨R, rfl, hR⟩ := h.exists_inside hcoll
      obtain ⟨c, d, hc, hd, hbelow, hopened'⟩ := (opened_cons hs).mp hopened
      have hchild := hR s hs
      rw [hc, hd] at hchild
      obtain ⟨R', hR', hlift⟩ := ih hchild hopened'
      rw [List.append_assoc, List.singleton_append] at hR'
      refine ⟨R', hR', fun q u v huv => ?_⟩
      exact (opened_cons hs).mpr ⟨c, d, hc, hd, hbelow, hlift q u v huv⟩

/-! ### The tree -/

/-- What is shown at a location: a node, whole and under one status, or two collections opened, with
what is shown at each step into them. -/
inductive Listing where
  | whole (status : Status) (n : Node)
  | opened (parts : List (Step × Listing))

/-- What holds of a listing when it holds of its parts holds of every listing. -/
theorem Listing.induct {P : Listing → Prop} (whole : ∀ status n, P (.whole status n))
    (opened : ∀ ps, (∀ x ∈ ps, P x.2) → P (.opened ps)) : ∀ t, P t :=
  fun t => Listing.rec (motive_1 := P) (motive_2 := fun ps => ∀ x ∈ ps, P x.2)
    (motive_3 := fun x => P x.2) whole (fun ps h => opened ps h) (fun _ hx => nomatch hx)
    (fun _ _ h hs => List.forall_mem_cons.2 ⟨h, hs⟩) (fun _ _ h => h) t

/-- What is shown of two nodes as their difference says.  The step leads to them; where it is an
index, the right node stays if only the left one is reported. -/
def changed (s : Option Step) (l r : Node) : Difference → List Listing
  | .added _ => [.whole .added r]
  | .deleted _ =>
    .whole .removed l ::
      match s with
      | some (.index _) => [.whole .context r]
      | some (.key _) | none => []
  | .modified _ _ => [.whole .removed l, .whole .added r]

/-- What is shown of two nodes, given what is shown inside of them.  The step leads to them; there
is none to the roots, which are opened even if they do not differ. -/
def shown (ds : List Difference) (s : Option Step) (l r : Node) (parts : List (Step × Listing)) :
    List Listing :=
  match differenceAt? ds r.path with
  | some d => changed s l r d
  | none =>
    if SameCollection l r ∧ (s = none ∨ hasBelow ds r.path = true) then [.opened parts]
    else [.whole .context r]

/-- What is shown at the steps into two collections. -/
def listing (ds : List Difference) (l r : Node) : List (Step × Listing) :=
  (steps l r).flatMap fun s =>
    match _hl : l.child? s, r.child? s with
    | some a, some b => (shown ds (some s) a b (listing ds a b)).map (s, ·)
    | some a, none => [(s, .whole .removed a)]
    | none, some b => [(s, .whole .added b)]
    | none, none => []
termination_by l.height
decreasing_by exact Node.height_child?_lt _hl

/-- What is shown at one step into two collections. -/
def atStep (ds : List Difference) (s : Step) : Option Node → Option Node → List Listing
  | some a, some b => shown ds (some s) a b (listing ds a b)
  | some a, none => [.whole .removed a]
  | none, some b => [.whole .added b]
  | none, none => []

theorem listing_eq (ds : List Difference) (l r : Node) :
    listing ds l r =
      (steps l r).flatMap fun s => (atStep ds s (l.child? s) (r.child? s)).map (s, ·) := by
  rw [listing]
  refine List.flatMap_congr fun s _ => ?_
  split <;> rename_i hl hr <;> rw [hl, hr] <;> rfl

/-- What is shown of two documents. -/
def documentListing (ds : List Difference) (l r : Node) : List Listing :=
  shown ds none l r (listing ds l r)

/-! ### Its lines -/

/-- How a node is written where a step has led to it, or at the root. -/
def writer : Option Step → Writer
  | none => Emitter.nodeLines .plain
  | some (.key k) => Emitter.entryLines .plain k
  | some (.index _) => Emitter.itemLines .plain

/-- How the lines of opened collections are set where a step has led to them. -/
def framed (s : Option Step) (lines : List Line) : List Line :=
  match s with
  | none => lines
  | some (.key k) => ⟨.context, Emitter.keyLine .plain k⟩ :: relayout (Lines.indent 2) lines
  | some (.index _) => relayout Lines.bullet lines

mutual
/-- The lines of what is shown where a step has led. -/
def Listing.lines (s : Option Step) : Listing → List Line
  | .whole status n => annotate status (writer s n)
  | .opened ps => framed s (partsLines ps)
/-- The lines of what is shown inside of two collections. -/
def partsLines : List (Step × Listing) → List Line
  | [] => []
  | (s, t) :: ps => t.lines (some s) ++ partsLines ps
end

theorem partsLines_eq_flatMap (ps : List (Step × Listing)) :
    partsLines ps = ps.flatMap fun x => x.2.lines (some x.1) := by
  induction ps with
  | nil => rfl
  | cons x ps ih => rw [partsLines, ih, List.flatMap_cons]

theorem partsLines_listing (ds : List Difference) (l r : Node) :
    partsLines (listing ds l r) =
      (steps l r).flatMap fun s =>
        (atStep ds s (l.child? s) (r.child? s)).flatMap (·.lines (some s)) := by
  simp only [partsLines_eq_flatMap, listing_eq, List.flatMap_assoc, List.flatMap_map]

/-! ### They are the lines of the view -/

/-- What the view makes of one index of two sequences. -/
def mergedItem (ds : List Difference) (parts : Node → Node → Option (List Line)) :
    Option Node → Option Node → List Line
  | some l, some r => item ds parts l r
  | some l, none => annotate .removed (Emitter.itemLines .plain l)
  | none, some r => annotate .added (Emitter.itemLines .plain r)
  | none, none => []

/-- What the view makes of one step into two collections. -/
def merged (ds : List Difference) (parts : Node → Node → Option (List Line)) :
    Step → Option Node → Option Node → List Line
  | .key k => entry ds parts k
  | .index _ => mergedItem ds parts

variable {parts : Node → Node → Option (List Line)} {l r : Node}

private theorem eraseDups_filter (p : String → Bool) (ks : List String) :
    (ks.filter p).eraseDups = ks.eraseDups.filter p := by
  induction hn : ks.length using Nat.strongRecOn generalizing ks with
  | ind n ih =>
      cases ks with
      | nil => simp
      | cons k ks =>
          subst hn
          have htail := ih _ (Nat.lt_succ_of_le (List.length_filter_le (fun j => !j == k) ks)) _ rfl
          rw [List.filter_filter] at htail
          rw [List.eraseDups_cons, List.filter_cons, List.filter_cons, ← htail]
          split
          · rw [List.eraseDups_cons, List.filter_filter]
            simp only [Bool.and_comm]
          · rename_i hk
            congr 1
            refine List.filter_congr fun j _ => ?_
            by_cases hj : j = k
            · simp [hj, hk]
            · simp [hj]

theorem keys_append (ls rs : List (String × Node)) :
    keys (ls ++ rs) = keys ls ++ (keys rs).filter fun k => (Node.lookup k ls).isNone := by
  rw [keys, List.map_append, List.eraseDups_append, List.removeAll, eraseDups_filter]
  refine congrArg _ (List.filter_congr fun k _ => ?_)
  have hk : (Node.lookup k ls).isSome = true ↔ k ∈ ls.map Prod.fst := Node.isSome_lookup
  cases hlookup : Node.lookup k ls with
  | none =>
      rw [hlookup] at hk
      simpa using hk
  | some n =>
      rw [hlookup] at hk
      simpa using hk

theorem sequences_nil_right (ls : List Node) :
    sequences ds parts ls [] =
      ls.flatMap fun l => annotate .removed (Emitter.itemLines .plain l) := by
  cases ls <;> rfl

theorem sequences_eq_flatMap (ls rs : List Node) :
    sequences ds parts ls rs =
      (List.range (max ls.length rs.length)).flatMap fun i =>
        mergedItem ds parts ls[i]? rs[i]? := by
  induction ls generalizing rs with
  | nil =>
      induction rs with
      | nil => rfl
      | cons r rs ih =>
          simp only [List.length_nil, List.length_cons, Nat.zero_max] at ih ⊢
          rw [List.range_succ_eq_map, List.flatMap_cons, List.flatMap_map]
          cases rs with
          | nil => simp [sequences, mergedItem]
          | cons r' rs => simpa [sequences, mergedItem] using ih
  | cons l ls ih =>
      cases rs with
      | nil =>
          have htail := ih []
          simp only [List.length_nil, List.length_cons, Nat.max_zero] at htail ⊢
          rw [List.range_succ_eq_map, List.flatMap_cons, List.flatMap_map]
          rw [sequences_nil_right] at htail ⊢
          simpa [mergedItem] using htail
      | cons r rs =>
          rw [List.length_cons, List.length_cons, Nat.succ_max_succ, List.range_succ_eq_map,
            List.flatMap_cons, List.flatMap_map]
          simp [sequences, mergedItem, ih rs]

/-- One step into two collections is merged as it is shown. -/
theorem merged_eq_lines (s : Step) {a b : Option Node}
    (hbelow : ∀ x y, a = some x → b = some y → hasBelow ds y.path = true → SameCollection x y)
    (hparts : ∀ x y, a = some x → b = some y →
      parts x y = if SameCollection x y then some (partsLines (listing ds x y)) else none) :
    merged ds parts s a b = (atStep ds s a b).flatMap (·.lines (some s)) := by
  cases a with
  | none => cases b <;> cases s <;> simp [merged, mergedItem, entry, atStep, Listing.lines, writer]
  | some x =>
      cases b with
      | none => cases s <;> simp [merged, mergedItem, entry, atStep, Listing.lines, writer]
      | some y =>
          have hcoll := hbelow x y rfl rfl
          have hlines := hparts x y rfl rfl
          cases hd : differenceAt? ds y.path with
          | some d =>
              cases d <;> cases s <;>
                simp [merged, mergedItem, entry, item, changed?, atStep, shown, changed, hd,
                  Listing.lines, writer]
          | none =>
              cases hb : hasBelow ds y.path with
              | false =>
                  cases s <;>
                    simp [merged, mergedItem, entry, item, changed?, atStep, shown, hd, hb,
                      Listing.lines, writer]
              | true =>
                  rw [if_pos (hcoll hb)] at hlines
                  cases s <;>
                    simp [merged, mergedItem, entry, item, nodes, changed?, atStep, shown, hd, hb,
                      hcoll hb, hlines, Listing.lines, framed]

/-- One level of two collections. -/
theorem partsWithin_succ (ds : List Difference) (depth : Nat) (l r : Node) :
    partsWithin ds (depth + 1) l r =
      if SameCollection l r then
        some ((steps l r).flatMap fun s =>
          merged ds (partsWithin ds depth) s (l.child? s) (r.child? s))
      else none := by
  cases l with
  | mapping ls p =>
      cases r with
      | mapping rs q =>
          rw [if_pos ⟨rfl, rfl⟩, partsWithin, mappings, keys_append, steps, List.flatMap_map]
          rfl
      | sequence rs q => rfl
      | scalar w q => cases w <;> rfl
  | sequence ls p =>
      cases r with
      | mapping rs q => rfl
      | sequence rs q =>
          rw [if_pos ⟨rfl, rfl⟩, partsWithin, sequences_eq_flatMap, steps, List.flatMap_map]
          rfl
      | scalar w q => cases w <;> rfl
  | scalar v p =>
      rw [if_neg (by rintro ⟨-, hc⟩; cases v <;> cases hc)]
      rfl

/-- **What is shown of two nodes follows from what is reported of them.**  They are opened, or
nothing is reported and the right one is shown, or they are one difference. -/
theorem shown_cases (h : Located options ds base R (some l) (some r)) (s : Option Step)
    (ps : List (Step × Listing)) :
    (SameCollection l r ∧ (s = none ∨ ∃ z ∈ R, z.1 ≠ []) ∧ shown ds s l r ps = [.opened ps]) ∨
      (R = [] ∧ (s = none → ¬SameCollection l r) ∧ shown ds s l r ps = [.whole .context r]) ∨
      ∃ d, (d = .added r ∨ d = .deleted l ∨ d = .modified l r) ∧ R = [([], d)] ∧
        shown ds s l r ps = changed s l r d := by
  unfold shown
  cases hd : differenceAt? ds r.path with
  | some d =>
      rw [h.path_eq, h.indexed.at_base] at hd
      obtain ⟨hR, hsides⟩ := h.reports.eq_singleton hd
      exact .inr (.inr ⟨d, hsides.eq_of_some, hR, rfl⟩)
  | none =>
      by_cases hopen : SameCollection l r ∧ (s = none ∨ hasBelow ds r.path = true)
      · refine .inl ⟨hopen.1, ?_, if_pos hopen⟩
        rw [← h.indexed.below_base, ← h.path_eq]
        exact hopen.2
      · refine .inr (.inl ⟨?_, fun hs hcoll => hopen ⟨hcoll, .inl hs⟩, if_neg hopen⟩)
        have hbelow : hasBelow ds r.path = false := by
          by_contra hbelow
          rw [Bool.not_eq_false] at hbelow
          exact hopen ⟨h.sameCollection hbelow, .inr hbelow⟩
        rw [h.path_eq] at hd hbelow
        exact h.indexed.eq_nil hd hbelow

/-- Collections that a report goes into are opened. -/
theorem shown_eq_opened (hcoll : SameCollection l r)
    (h : Located options ds base R (some l) (some r)) {s : Option Step}
    {ps : List (Step × Listing)} (hopen : s = none ∨ ∃ z ∈ R, z.1 ≠ []) :
    shown ds s l r ps = [.opened ps] := by
  rcases shown_cases h s ps with ⟨-, -, hshown⟩ | ⟨rfl, hroot, -⟩ | ⟨d, -, rfl, -⟩
  · exact hshown
  · rcases hopen with hs | ⟨z, hz, -⟩
    · exact absurd hcoll (hroot hs)
    · cases hz
  · exact absurd ⟨hcoll⟩ (h.reports.of_mem (List.mem_singleton.mpr rfl)).1.2.not_goOn

/-- **Opened collections have the lines of the tree.**  No depth appears in the tree; any depth from
the left height on suffices. -/
theorem partsWithin_eq_lines {depth : Nat} (h : Located options ds base R (some l) (some r))
    (hdepth : l.height ≤ depth) :
    partsWithin ds depth l r =
      if SameCollection l r then some (partsLines (listing ds l r)) else none := by
  induction depth generalizing l r base R with
  | zero => exact absurd (Nat.lt_of_lt_of_le l.height_pos hdepth) (Nat.lt_irrefl 0)
  | succ depth ih =>
      rw [partsWithin_succ]
      by_cases hcoll : SameCollection l r
      · rw [if_pos hcoll, if_pos hcoll, partsLines_listing]
        obtain ⟨R', rfl, hR'⟩ := h.exists_inside hcoll
        refine congrArg some (List.flatMap_congr fun s hs => ?_)
        have hchild := hR' s hs
        refine merged_eq_lines s (fun x y hx hy => ?_) fun x y hx hy => ?_
        · rw [hx, hy] at hchild
          exact hchild.sameCollection
        · have hlt := Node.height_child?_lt hx
          rw [hx, hy] at hchild
          exact ih hchild (by omega)
      · rw [if_neg hcoll, if_neg hcoll]

/-- **The merged document has the lines of the tree.** -/
theorem document_eq_lines (h : Located options ds [] R (some l) (some r)) :
    document ds (some l) (some r) = (documentListing ds l r).flatMap (·.lines none) := by
  have hparts : parts? ds l r = _ := partsWithin_eq_lines h (Nat.le_refl _)
  rw [document, nodes, hparts, documentListing, shown, changed?]
  cases differenceAt? ds r.path with
  | some d => cases d <;> simp [changed, Listing.lines, writer]
  | none => by_cases hcoll : SameCollection l r <;> simp [hcoll, Listing.lines, writer, framed]

/-- The documents at an index are merged by the differences between them, in reporting order. -/
theorem documentAt_eq {left right : Stream} {i : Nat} (hl : left.document i = some l)
    (hr : right.document i = some r) :
    documentAt left right (StreamDiff.ofStreams options left right) i =
      document (Difference.sort (Compare.nodes options l r)) (some l) (some r) := by
  have hlen : i < max left.length right.length := by
    by_contra hle
    rw [Stream.document_eq_none_of_length_le (by omega)] at hl
    cases hl
  have hdoc : (StreamDiff.ofStreams options left right).document? i =
      some (.ofDifferences (optional options (left.document i) (right.document i))) := by
    simp [StreamDiff.document?, StreamDiff.ofStreams, List.getElem?_range hlen]
  rw [documentAt, hdoc, hl, hr]
  rfl

/-- The differences of two documents, in reporting order, are found by the locations of a report. -/
theorem exists_located (options : CompareOptions) (hl : l.Placed "") (hr : r.Placed "") :
    ∃ R : Report, R.map Prod.snd = Compare.nodes options l r ∧
      (∀ x ∈ R, x.2.path = Path.render x.1) ∧
      Located options (Difference.sort (Compare.nodes options l r)) [] R (some l) (some r) := by
  obtain ⟨R, hR, h⟩ := exists_reports options l r
  have hplaced : PlacedAt "" (some l) (some r) :=
    ⟨fun _ h => Option.some.inj h ▸ hl, fun _ h => Option.some.inj h ▸ hr⟩
  refine ⟨R, hR, fun x hx => h.path_eq hplaced hx, h, indexed_root h hplaced ?_, hplaced⟩
  rw [hR]
  exact Difference.perm_sort _

end Unified

end YamlDelta
