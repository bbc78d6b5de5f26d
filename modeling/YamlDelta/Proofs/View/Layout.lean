/-
Where the lines of the merged document come from.

A piece is a node shown whole: its location, its status and the node.  The merged document
consists of the pieces of its tree and of the keys of opened collections; every line of a
piece is a line of the node written on its own, set into the collections around it one after
the other.  Setting a line into a collection changes nothing but its indentation and keeps
its status, so the lines of one status are those of the pieces of that status, in order, and
all lines of a piece stand together.
-/
import Mathlib.Data.List.Forall2
import Mathlib.Data.List.Infix
import YamlDelta.Proofs.View.Blocks
import YamlDelta.Proofs.View.Listing

namespace YamlDelta.Unified

open Compare (Report)

/-! ### Setting a line into collections -/

/-- How a line of a child is set into the collection in which a step leads to the child: the lines
of an entry are indented, those of an item too, but for the first one, which gets the hyphen. -/
inductive SetIn : Step → Line → Line → Prop
  | entry (k : String) (l : Line) : SetIn (.key k) l { l with content := Lines.pad "  " l.content }
  | first (i : Nat) (l : Line) : SetIn (.index i) l { l with content := "- " ++ l.content }
  | further (i : Nat) (l : Line) :
      SetIn (.index i) l { l with content := Lines.pad "  " l.content }

/-- How a line is set into the collections on the way to a location, from the inside out. -/
def Inset : List Step → Line → Line → Prop
  | [], x, y => x = y
  | s :: p, x, z => ∃ y, Inset p x y ∧ SetIn s y z

theorem SetIn.status_eq {s : Step} {x y : Line} (h : SetIn s x y) : y.status = x.status := by
  cases h <;> rfl

theorem Inset.status_eq {p : List Step} {x y : Line} (h : Inset p x y) : y.status = x.status := by
  induction p generalizing y with
  | nil => exact congrArg Line.status h.symm
  | cons s p ih =>
      obtain ⟨z, hz, hset⟩ := h
      rw [hset.status_eq, ih hz]

theorem SetIn.suffix {s : Step} {x y : Line} (h : SetIn s x y) :
    x.content.toList <:+ y.content.toList := by
  have hpad : x.content.toList <:+ (Lines.pad "  " x.content).toList := by
    unfold Lines.pad
    split
    · exact List.suffix_rfl
    · rw [String.toList_append]
      exact List.suffix_append _ _
  cases h with
  | entry k l => exact hpad
  | first i l =>
      rw [String.toList_append]
      exact List.suffix_append _ _
  | further i l => exact hpad

/-- A line that is set in ends with what it was. -/
theorem Inset.suffix {p : List Step} {x y : Line} (h : Inset p x y) :
    x.content.toList <:+ y.content.toList := by
  induction p generalizing y with
  | nil => exact h ▸ List.suffix_rfl
  | cons s p ih =>
      obtain ⟨z, hz, hset⟩ := h
      exact (ih hz).trans hset.suffix

theorem inset_append {p q : List Step} {x z : Line} :
    Inset (p ++ q) x z ↔ ∃ y, Inset q x y ∧ Inset p y z := by
  induction p generalizing z with
  | nil => exact ⟨fun h => ⟨z, h, rfl⟩, fun ⟨y, hy, hyz⟩ => hyz ▸ hy⟩
  | cons s p ih =>
      constructor
      · rintro ⟨w, hw, hset⟩
        obtain ⟨y, hy, hyw⟩ := ih.mp hw
        exact ⟨y, hy, w, hyw, hset⟩
      · rintro ⟨y, hy, w, hyw, hset⟩
        exact ⟨w, ih.mpr ⟨y, hy, hyw⟩, hset⟩

theorem relayout_indent (lines : List Line) :
    relayout (Lines.indent 2) lines =
      lines.map fun l => { l with content := Lines.pad "  " l.content } := by
  induction lines with
  | nil => rfl
  | cons l lines ih => exact congrArg (_ :: ·) ih

theorem relayout_bullet (l : Line) (lines : List Line) :
    relayout Lines.bullet (l :: lines) =
      { l with content := "- " ++ l.content } :: relayout (Lines.indent 2) lines := rfl

theorem setIn_indent {s : Step}
    (h : ∀ l : Line, SetIn s l { l with content := Lines.pad "  " l.content })
    (lines : List Line) : List.Forall₂ (SetIn s) lines (relayout (Lines.indent 2) lines) := by
  rw [relayout_indent, List.forall₂_map_right_iff]
  exact List.forall₂_same.mpr fun l _ => h l

theorem setIn_bullet (i : Nat) (lines : List Line) :
    List.Forall₂ (SetIn (.index i)) lines (relayout Lines.bullet lines) := by
  cases lines with
  | nil => exact .nil
  | cons l lines => exact .cons (.first i l) (setIn_indent (.further i) lines)

/-! ### Pieces -/

/-- A node shown whole. -/
structure Piece where
  location : List Step
  status : Status
  node : Node

/-- The piece seen from one step further up. -/
def Piece.behind (s : Step) (x : Piece) : Piece :=
  ⟨s :: x.location, x.status, x.node⟩

/-- The lines of a piece as they are written on their own. -/
def Piece.lines (x : Piece) : List Line :=
  annotate x.status (writer x.location.getLast? x.node)

theorem writer_ne_nil (s : Option Step) (n : Node) : writer s n ≠ [] := by
  rcases s with _ | k | i
  · exact Emitter.nodeLines_ne_nil .plain n
  · exact Emitter.entryLines_ne_nil .plain k n
  · exact Emitter.itemLines_ne_nil .plain n

mutual
/-- The nodes that a listing shows whole. -/
def Listing.pieces : Listing → List Piece
  | .whole status n => [⟨[], status, n⟩]
  | .opened ps => partsPieces ps
/-- The nodes that are shown whole inside of two collections. -/
def partsPieces : List (Step × Listing) → List Piece
  | [] => []
  | (s, t) :: ps => t.pieces.map (Piece.behind s) ++ partsPieces ps
end

theorem partsPieces_eq_flatMap (ps : List (Step × Listing)) :
    partsPieces ps = ps.flatMap fun x => x.2.pieces.map (Piece.behind x.1) := by
  induction ps with
  | nil => rfl
  | cons x ps ih => rw [partsPieces, ih, List.flatMap_cons]

theorem partsPieces_listing (ds : List Difference) (l r : Node) :
    partsPieces (listing ds l r) =
      (Compare.steps l r).flatMap fun s =>
        (atStep ds s (l.child? s) (r.child? s)).flatMap fun t => t.pieces.map (Piece.behind s) := by
  simp only [partsPieces_eq_flatMap, listing_eq, List.flatMap_assoc, List.flatMap_map]

/-! ### Lines of pieces -/

/-- The lines of a piece, each with the way to the collection that the piece is set into. -/
def Piece.rows (x : Piece) : List (List Step × Line) :=
  x.lines.map (x.location.dropLast, ·)

/-- The lines are those of the pieces, each set into the collections around its piece. -/
def LaysOut (pieces : List Piece) (lines : List Line) : Prop :=
  List.Forall₂ (fun x => Inset x.1 x.2) (pieces.flatMap Piece.rows) lines

variable {xs ys : List Piece} {ls ms : List Line} {s : Step}

theorem LaysOut.append (h : LaysOut xs ls) (h' : LaysOut ys ms) :
    LaysOut (xs ++ ys) (ls ++ ms) := by
  rw [LaysOut, List.flatMap_append]
  exact List.rel_append h h'

theorem LaysOut.flatMap {α : Type} {as : List α} {f : α → List Piece} {g : α → List Line}
    (h : ∀ a ∈ as, LaysOut (f a) (g a)) : LaysOut (as.flatMap f) (as.flatMap g) := by
  induction as with
  | nil => exact List.Forall₂.nil
  | cons a as ih =>
      rw [List.flatMap_cons, List.flatMap_cons]
      exact (h a (List.mem_cons_self ..)).append (ih fun b hb => h b (List.mem_cons_of_mem _ hb))

theorem laysOut_singleton {x : Piece} (h : x.location.dropLast = []) : LaysOut [x] x.lines := by
  rw [LaysOut, List.flatMap_singleton, Piece.rows, h, List.forall₂_map_left_iff]
  exact List.forall₂_same.mpr fun _ _ => rfl

theorem rows_behind {x : Piece} (h : x.location ≠ []) (s : Step) :
    (x.behind s).rows = x.rows.map fun row => (s :: row.1, row.2) := by
  obtain ⟨location, status, n⟩ := x
  cases location with
  | nil => exact absurd rfl h
  | cons t p =>
      rw [Piece.rows, Piece.rows, List.map_map]
      rfl

theorem forall₂_inset {rows : List (List Step × Line)}
    (h : List.Forall₂ (fun x => Inset x.1 x.2) rows ls) (hset : List.Forall₂ (SetIn s) ls ms) :
    List.Forall₂ (fun x => Inset x.1 x.2) (rows.map fun row => (s :: row.1, row.2)) ms := by
  induction h generalizing ms with
  | nil =>
      cases hset
      exact .nil
  | cons hrow _ ih =>
      cases hset with
      | cons hline hset => exact .cons ⟨_, hrow, hline⟩ (ih hset)

/-- Setting the lines of pieces into one more collection. -/
theorem LaysOut.behind (h : LaysOut xs ls) (hne : ∀ x ∈ xs, x.location ≠ [])
    (hset : List.Forall₂ (SetIn s) ls ms) : LaysOut (xs.map (Piece.behind s)) ms := by
  rw [LaysOut, List.flatMap_map, List.flatMap_congr fun x hx => rows_behind (hne x hx) s,
    ← List.map_flatMap]
  exact forall₂_inset h hset

theorem location_partsPieces_ne_nil {ps : List (Step × Listing)} {x : Piece}
    (h : x ∈ partsPieces ps) : x.location ≠ [] := by
  rw [partsPieces_eq_flatMap, List.mem_flatMap] at h
  obtain ⟨y, -, hx⟩ := h
  obtain ⟨z, -, rfl⟩ := List.mem_map.mp hx
  exact List.cons_ne_nil _ _

/-! ### The lines of one status -/

section Marked

variable {keep : Status → Bool}

theorem LaysOut.flatMap_filter {α : Type} {as : List α} {f : α → List Piece} {g : α → List Line}
    (h : ∀ a ∈ as, LaysOut ((f a).filter (keep ·.status)) ((g a).filter (keep ·.status))) :
    LaysOut ((as.flatMap f).filter (keep ·.status)) ((as.flatMap g).filter (keep ·.status)) := by
  rw [List.filter_flatMap, List.filter_flatMap]
  exact .flatMap h

theorem status_of_mem_lines {x : Piece} {l : Line} (h : l ∈ x.lines) : l.status = x.status := by
  obtain ⟨_, -, rfl⟩ := List.mem_map.mp h
  rfl

theorem laysOut_filter_singleton {x : Piece} (h : x.location.dropLast = []) :
    LaysOut ([x].filter (keep ·.status)) (x.lines.filter (keep ·.status)) := by
  have hlines : x.lines.filter (keep ·.status) = x.lines.filter fun _ => keep x.status :=
    List.filter_congr fun l hl => congrArg keep (status_of_mem_lines hl)
  rw [hlines]
  cases hkeep : keep x.status with
  | true =>
      rw [List.filter_cons_of_pos (by simpa using hkeep), List.filter_true]
      exact laysOut_singleton h
  | false =>
      rw [List.filter_cons_of_neg (by simpa using hkeep), List.filter_false]
      exact List.Forall₂.nil

theorem filter_setIn (h : List.Forall₂ (SetIn s) ls ms) :
    List.Forall₂ (SetIn s) (ls.filter (keep ·.status)) (ms.filter (keep ·.status)) :=
  List.rel_filter (R := SetIn s) (fun x y hxy => by
    show keep x.status = true ↔ keep y.status = true
    rw [hxy.status_eq]) h

/-- The lines that an opened collection adds by itself are context. -/
theorem filter_framed (hcontext : keep .context = false) (s : Step) (ls : List Line) :
    List.Forall₂ (SetIn s) (ls.filter (keep ·.status))
      ((framed (some s) ls).filter (keep ·.status)) := by
  cases s with
  | key k =>
      rw [framed, List.filter_cons_of_neg (by simp [hcontext])]
      exact filter_setIn (setIn_indent (.entry k) ls)
  | index i => exact filter_setIn (setIn_bullet i ls)

theorem laysOut_filter_parts {ps : List (Step × Listing)}
    (h : ∀ x ∈ ps, LaysOut ((x.2.pieces.map (Piece.behind x.1)).filter (keep ·.status))
      ((x.2.lines (some x.1)).filter (keep ·.status))) :
    LaysOut ((partsPieces ps).filter (keep ·.status)) ((partsLines ps).filter (keep ·.status)) := by
  rw [partsPieces_eq_flatMap, partsLines_eq_flatMap]
  exact .flatMap_filter h

theorem Listing.laysOut_filter (hcontext : keep .context = false) (t : Listing) (s : Step) :
    LaysOut ((t.pieces.map (Piece.behind s)).filter (keep ·.status))
      ((t.lines (some s)).filter (keep ·.status)) := by
  induction t using Listing.induct generalizing s with
  | whole status n => exact laysOut_filter_singleton (x := ⟨[s], status, n⟩) rfl
  | opened ps ih =>
      have hparts := laysOut_filter_parts fun x hx => ih x hx x.1
      rw [Listing.lines, Listing.pieces, List.filter_map]
      refine hparts.behind (fun x hx => ?_) (filter_framed hcontext s _)
      exact location_partsPieces_ne_nil (List.mem_filter.mp hx).1

/-- **The marked lines of what is shown are those of the marked pieces**, in order. -/
theorem laysOut_filter_listing (keep : Status → Bool) (hcontext : keep .context = false)
    (ts : List Listing) :
    LaysOut ((ts.flatMap Listing.pieces).filter (keep ·.status))
      ((ts.flatMap (·.lines none)).filter (keep ·.status)) := by
  refine .flatMap_filter fun t _ => ?_
  cases t with
  | whole status n => exact laysOut_filter_singleton (x := ⟨[], status, n⟩) rfl
  | opened ps => exact laysOut_filter_parts fun x _ => x.2.laysOut_filter hcontext x.1

end Marked

/-! ### All lines of one piece -/

/-- All lines of the piece stand together among the lines, set into the collections around it. -/
def Shows (lines : List Line) (x : Piece) : Prop :=
  ∃ block, block <:+: lines ∧ List.Forall₂ (Inset x.location.dropLast) x.lines block

theorem Shows.mono {x : Piece} (h : Shows ls x) (htogether : ls <:+: ms) : Shows ms x := by
  obtain ⟨block, hblock, hrows⟩ := h
  exact ⟨block, hblock.trans htogether, hrows⟩

theorem infix_flatMap {α β : Type} {as : List α} {a : α} (h : a ∈ as) (f : α → List β) :
    f a <:+: as.flatMap f :=
  List.infix_of_mem_flatten (List.mem_map_of_mem h)

/-- What stands together on one side of a pointwise relation does so on the other. -/
theorem forall₂_infix {α β : Type} {R : α → β → Prop} {as block : List α} {bs : List β}
    (h : List.Forall₂ R as bs) (hblock : block <:+: as) :
    ∃ block', block' <:+: bs ∧ List.Forall₂ R block block' := by
  obtain ⟨before, after, rfl⟩ := hblock
  refine ⟨(bs.drop before.length).take block.length, ?_, ?_⟩
  · exact (List.take_prefix _ _).isInfix.trans (List.drop_suffix _ _).isInfix
  · have hrest := List.forall₂_take block.length (List.forall₂_drop before.length h)
    rwa [List.append_assoc, List.drop_left, List.take_left] at hrest

theorem forall₂_comp {α β γ : Type} {R : α → β → Prop} {S : β → γ → Prop} {T : α → γ → Prop}
    {as : List α} {bs : List β} {cs : List γ} (hcomp : ∀ a b c, R a b → S b c → T a c)
    (h : List.Forall₂ R as bs) (h' : List.Forall₂ S bs cs) : List.Forall₂ T as cs := by
  induction h generalizing cs with
  | nil =>
      cases h'
      exact .nil
  | cons hab _ ih =>
      cases h' with
      | cons hbc h' => exact .cons (hcomp _ _ _ hab hbc) (ih h')

/-- The lines of the parts are set into opened collections. -/
theorem exists_setIn_framed (s : Step) (ls : List Line) :
    ∃ ms, ms <:+: framed (some s) ls ∧ List.Forall₂ (SetIn s) ls ms := by
  cases s with
  | key k => exact ⟨_, (List.suffix_cons _ _).isInfix, setIn_indent (.entry k) ls⟩
  | index i => exact ⟨_, List.infix_rfl, setIn_bullet i ls⟩

theorem Shows.framed {x : Piece} (h : Shows ls x) (hne : x.location ≠ []) (s : Step) :
    Shows (framed (some s) ls) (x.behind s) := by
  obtain ⟨block, hblock, hrows⟩ := h
  obtain ⟨ms, hms, hset⟩ := exists_setIn_framed s ls
  obtain ⟨block', hblock', hset'⟩ := forall₂_infix hset hblock
  refine ⟨block', hblock'.trans hms, ?_⟩
  obtain ⟨location, status, n⟩ := x
  cases location with
  | nil => exact absurd rfl hne
  | cons t p => exact forall₂_comp (fun _ b _ hab hbc => ⟨b, hab, hbc⟩) hrows hset'

theorem shows_partsLines {ps : List (Step × Listing)}
    (h : ∀ y ∈ ps, ∀ z ∈ y.2.pieces, Shows (y.2.lines (some y.1)) (z.behind y.1)) {x : Piece}
    (hx : x ∈ partsPieces ps) : Shows (partsLines ps) x := by
  rw [partsPieces_eq_flatMap, List.mem_flatMap] at hx
  obtain ⟨y, hy, hx⟩ := hx
  obtain ⟨z, hz, rfl⟩ := List.mem_map.mp hx
  rw [partsLines_eq_flatMap]
  exact (h y hy z hz).mono (infix_flatMap hy fun y => y.2.lines (some y.1))

theorem Listing.shows (t : Listing) (s : Step) {x : Piece} (hx : x ∈ t.pieces) :
    Shows (t.lines (some s)) (x.behind s) := by
  induction t using Listing.induct generalizing s x with
  | whole status n =>
      rw [List.mem_singleton.mp hx]
      exact ⟨_, List.infix_rfl, List.forall₂_same.mpr fun _ _ => rfl⟩
  | opened ps ih =>
      have hparts := shows_partsLines (fun y hy z hz => ih y hy y.1 hz) hx
      exact hparts.framed (location_partsPieces_ne_nil hx) s

/-- All lines of a piece stand together where it is shown. -/
theorem shows_of_mem_pieces {ts : List Listing} {x : Piece} (hx : x ∈ ts.flatMap Listing.pieces) :
    Shows (ts.flatMap (·.lines none)) x := by
  obtain ⟨t, ht, hx⟩ := List.mem_flatMap.mp hx
  refine Shows.mono ?_ (infix_flatMap ht fun t => t.lines none)
  cases t with
  | whole status n =>
      rw [List.mem_singleton.mp hx]
      exact ⟨_, List.infix_rfl, List.forall₂_same.mpr fun _ _ => rfl⟩
  | opened ps => exact shows_partsLines (fun y _ z hz => y.2.shows y.1 hz) hx

/-! ### Lines of a node below a piece -/

/-- A child is written among the lines of its parent. -/
theorem writer_infix_nodeLines {n c : Node} {s : Step} (h : n.child? s = some c) :
    writer (some s) c <:+: Emitter.nodeLines .plain n := by
  rcases Node.child?_cases h with ⟨es, p, k, rfl, rfl, hmem⟩ | ⟨is, p, i, rfl, rfl, hmem⟩
  · rw [Emitter.nodeLines, if_neg (by cases es <;> simp_all), Emitter.entriesLines_eq_flatMap]
    exact infix_flatMap hmem fun e => Emitter.entryLines .plain e.1 e.2
  · rw [Emitter.nodeLines, if_neg (by cases is <;> simp_all), Emitter.itemsLines_eq_flatMap]
    exact infix_flatMap hmem (Emitter.itemLines .plain)

theorem zip_annotate (status : Status) {as bs : List String} (h : as.length = bs.length) :
    ((annotate status as).zip bs).map (fun x => { x.1 with content := x.2 }) =
      annotate status bs := by
  induction as generalizing bs with
  | nil =>
      cases bs with
      | nil => rfl
      | cons b bs => cases h
  | cons a as ih =>
      cases bs with
      | nil => cases h
      | cons b bs => exact congrArg (_ :: ·) (ih (Nat.succ.inj h))

/-- Lines of one status are laid out as if they had none. -/
theorem relayout_annotate {layout : List String → List String} (status : Status)
    {lines : List String} (h : (layout lines).length = lines.length) :
    relayout layout (annotate status lines) = annotate status (layout lines) := by
  have hcontent : (annotate status lines).map (·.content) = lines := by
    rw [annotate, List.map_map]
    exact List.map_id lines
  rw [relayout, hcontent]
  exact zip_annotate status h.symm

theorem exists_setIn_writer {n : Node} (h : Emitter.isBlock n = true) (status : Status)
    (s : Step) :
    ∃ ms, ms <:+: annotate status (writer (some s) n) ∧
      List.Forall₂ (SetIn s) (annotate status (Emitter.nodeLines .plain n)) ms := by
  cases s with
  | key k =>
      have hset := setIn_indent (.entry k) (annotate status (Emitter.nodeLines .plain n))
      rw [relayout_annotate status (Lines.length_indent ..)] at hset
      rw [writer, Emitter.entryLines, Emitter.entry, if_pos h]
      exact ⟨_, (List.suffix_cons _ _).isInfix, hset⟩
  | index i =>
      have hset := setIn_bullet i (annotate status (Emitter.nodeLines .plain n))
      rw [relayout_annotate status (Lines.length_bullet _)] at hset
      rw [writer, Emitter.itemLines, Emitter.item, if_pos h]
      exact ⟨_, List.infix_rfl, hset⟩

/-- A piece shows what is below its node. -/
theorem Shows.child {x : Piece} {c : Node} {s : Step} (h : Shows ls x)
    (hc : x.node.child? s = some c) : Shows ls ⟨x.location ++ [s], x.status, c⟩ := by
  obtain ⟨location, status, n⟩ := x
  obtain ⟨block, hblock, hrows⟩ := h
  have htogether : annotate status (writer (some s) c) <:+:
      annotate status (Emitter.nodeLines .plain n) := (writer_infix_nodeLines hc).map _
  have hlines : ∀ p, (Piece.mk (p ++ [s]) status c).lines =
      annotate status (writer (some s) c) := by
    intro p
    rw [Piece.lines, List.getLast?_concat]
  rcases List.eq_nil_or_concat location with rfl | ⟨p, u, rfl⟩
  · obtain ⟨block', hblock', hset⟩ := forall₂_infix hrows htogether
    exact ⟨block', hblock'.trans hblock, hset⟩
  · rw [Piece.lines, List.concat_eq_append, List.getLast?_concat, List.dropLast_concat] at hrows
    obtain ⟨rest, hrest, hset⟩ := exists_setIn_writer (Emitter.isBlock_of_child hc) status u
    obtain ⟨inner, hinner, hset'⟩ := forall₂_infix hset htogether
    obtain ⟨block', hblock', hrows'⟩ := forall₂_infix hrows (hinner.trans hrest)
    refine ⟨block', hblock'.trans hblock, ?_⟩
    rw [hlines, List.dropLast_concat, List.concat_eq_append]
    exact forall₂_comp (fun a b d hab hbd => inset_append.mpr ⟨b, ⟨a, rfl, hab⟩, hbd⟩) hset' hrows'

/-- A piece shows what is at a location below its node. -/
theorem Shows.at? {x : Piece} {p : List Step} {m : Node} (h : Shows ls x)
    (hm : Node.at? (some x.node) p = some m) : Shows ls ⟨x.location ++ p, x.status, m⟩ := by
  induction p generalizing x with
  | nil =>
      cases hm
      rwa [List.append_nil]
  | cons s p ih =>
      rw [Node.at?_cons, Option.bind_some] at hm
      cases hc : x.node.child? s with
      | none => simp [hc] at hm
      | some c =>
          rw [hc] at hm
          have hrest := ih (h.child hc) hm
          rwa [List.append_assoc, List.singleton_append] at hrest

end YamlDelta.Unified
