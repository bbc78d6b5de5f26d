/-
Which lines of the merged document stay on one line.

A line of the view is meant to be one line on the page, with the sign of its status before
it.  Whether it is depends on every text that gets into it.  Keys cannot break it, since
those with a line break in them are quoted, and a block of text is cut at its breaks.  Any
other scalar is written with the text it has in the document; where that text goes over
several lines, the lines after the first have no sign.

So the lines of the view are the lines on the page exactly if no scalar that is shown,
blocks of text apart, has a text that goes over several lines.
-/
import YamlDelta.Proofs.Text.Quoted
import YamlDelta.Proofs.View.Layout
import YamlDelta.Proofs.View.Sides

namespace YamlDelta

/-! ### Blocks of lines -/

namespace Lines

/-- No line of the block holds a line break. -/
def Unbroken (lines : List String) : Prop :=
  ∀ l ∈ lines, '\n' ∉ l.toList

/-- The lines that a text takes on a page. -/
def onPage (s : String) : List String :=
  if s.isEmpty then [] else ofText s

variable {ls ms : List String} {l before : String}

theorem unbroken_nil : Unbroken [] := fun _ h => nomatch h

theorem unbroken_cons : Unbroken (l :: ls) ↔ '\n' ∉ l.toList ∧ Unbroken ls :=
  List.forall_mem_cons

theorem unbroken_append : Unbroken (ls ++ ms) ↔ Unbroken ls ∧ Unbroken ms :=
  List.forall_mem_append

theorem unbroken_flatMap {α : Type} {as : List α} {f : α → List String} :
    Unbroken (as.flatMap f) ↔ ∀ a ∈ as, Unbroken (f a) := by
  simp only [Unbroken, List.mem_flatMap]
  exact ⟨fun h a ha l hl => h l ⟨a, ha, hl⟩, fun h l ⟨a, ha, hl⟩ => h a ha l hl⟩

theorem newline_notMem_append (h : '\n' ∉ before.toList) :
    '\n' ∉ (before ++ l).toList ↔ '\n' ∉ l.toList := by
  rw [String.toList_append, List.mem_append, not_or]
  exact and_iff_right h

/-- What is said of a line does not depend on what stands before it, unless that holds a line
break. -/
structure Blind (P : String → Prop) : Prop where
  empty : P ""
  append : ∀ {before l : String}, '\n' ∉ before.toList → (P (before ++ l) ↔ P l)

theorem blind_unbroken : Blind fun l => '\n' ∉ l.toList where
  empty := by decide
  append := newline_notMem_append

namespace Blind

variable {P : String → Prop} (hP : Blind P)
include hP

theorem of_unbroken (h : '\n' ∉ l.toList) : P l := by
  have hl := (hP.append h).mpr hP.empty
  rwa [String.append_empty] at hl

theorem pad_iff (h : '\n' ∉ before.toList) : P (pad before l) ↔ P l := by
  unfold pad
  split
  · exact Iff.rfl
  · exact hP.append h

theorem forall_map_pad (h : '\n' ∉ before.toList) :
    (∀ l ∈ ls.map (pad before), P l) ↔ ∀ l ∈ ls, P l := by
  rw [List.forall_mem_map]
  exact forall_congr' fun l => imp_congr_right fun _ => hP.pad_iff h

theorem forall_indent (width : Nat) : (∀ l ∈ indent width ls, P l) ↔ ∀ l ∈ ls, P l := by
  refine hP.forall_map_pad ?_
  rw [String.toList_ofList]
  intro h
  exact absurd (List.eq_of_mem_replicate h) (by decide)

theorem forall_bullet : (∀ l ∈ bullet ls, P l) ↔ ∀ l ∈ ls, P l := by
  cases ls with
  | nil => exact Iff.rfl
  | cons l ls =>
      rw [bullet, List.forall_mem_cons, List.forall_mem_cons, hP.append (by decide),
        hP.forall_map_pad (by decide)]

theorem forall_lead (h : '\n' ∉ before.toList) : (∀ l ∈ lead before ls, P l) ↔ ∀ l ∈ ls, P l := by
  cases ls with
  | nil => exact Iff.rfl
  | cons l ls => rw [lead, List.forall_mem_cons, List.forall_mem_cons, hP.append h]

end Blind

theorem unbroken_indent (width : Nat) : Unbroken (indent width ls) ↔ Unbroken ls :=
  blind_unbroken.forall_indent width

theorem unbroken_bullet : Unbroken (bullet ls) ↔ Unbroken ls :=
  blind_unbroken.forall_bullet

/-- The characters between the breaks of a text are those that are no breaks. -/
theorem forall_mem_splitOn {P : Char → Prop} {cs : List Char} (h : ∀ c ∈ cs, c ≠ '\n' → P c) :
    ∀ w ∈ cs.splitOn '\n', ∀ c ∈ w, P c := by
  induction cs with
  | nil => simp
  | cons c cs ih =>
      have ih := ih fun d hd => h d (List.mem_cons_of_mem c hd)
      rw [List.splitOn_cons_eq_if_modifyHead]
      split
      · simpa using ih
      · rename_i hc
        have hc' : c ≠ '\n' := fun heq => hc (by rw [heq]; exact beq_self_eq_true '\n')
        obtain ⟨w, ws, hws⟩ := List.exists_cons_of_ne_nil (List.splitOn_ne_nil '\n' cs)
        rw [hws, List.forall_mem_cons] at ih
        rw [hws, List.modifyHead_cons, List.forall_mem_cons, List.forall_mem_cons]
        exact ⟨⟨h c (List.mem_cons_self ..) hc', ih.1⟩, ih.2⟩

theorem newline_notMem_splitOn (cs : List Char) : ∀ w ∈ cs.splitOn '\n', '\n' ∉ w :=
  fun w hw hbreak => forall_mem_splitOn (P := (· ≠ '\n')) (fun _ _ h => h) w hw '\n' hbreak rfl

/-- Cutting a text at its line breaks leaves none. -/
theorem unbroken_ofText (s : String) : Unbroken (ofText s) := by
  rw [Unbroken, ofText, List.forall_mem_map]
  intro w hw
  rw [String.toList_ofList]
  exact newline_notMem_splitOn _ w hw

theorem ofText_intercalate (hne : ls ≠ []) :
    ofText ("\n".intercalate ls) = ls ↔ Unbroken ls := by
  constructor
  · intro h
    rw [← h]
    exact unbroken_ofText _
  · intro h
    rw [ofText, String.toList_intercalate, show "\n".toList = ['\n'] from rfl,
      List.splitOn_intercalate]
    · simp
    · rwa [List.forall_mem_map]
    · simpa using hne

/-- Lines that are not empty make a text that is not. -/
theorem intercalate_ne_empty {sep : String} (hne : ls ≠ []) (h : ∀ l ∈ ls, l ≠ "") :
    sep.intercalate ls ≠ "" := by
  obtain ⟨l, ls, rfl⟩ := List.exists_cons_of_ne_nil hne
  have hl := h l (List.mem_cons_self ..)
  cases ls with
  | nil => rwa [String.intercalate_singleton]
  | cons m ls => simp [hl]

/-- Joined lines are the lines on the page exactly if none of them holds a line break. -/
theorem onPage_intercalate (h : ∀ l ∈ ls, l ≠ "") :
    onPage ("\n".intercalate ls) = ls ↔ Unbroken ls := by
  cases ls with
  | nil => simp [onPage, unbroken_nil]
  | cons l ls =>
      have hne : ¬("\n".intercalate (l :: ls)).isEmpty = true := by
        simpa using intercalate_ne_empty (List.cons_ne_nil l ls) h
      rw [onPage, if_neg hne, ofText_intercalate (List.cons_ne_nil _ _)]

end Lines

/-! ### Nodes -/

namespace Node

/-- A scalar in the tree, other than a block of text, has a text that goes over several lines. -/
inductive SpansLines : Node → Prop
  | entry {k : String} {n : Node} {es : List (String × Node)} {p : Place} (he : (k, n) ∈ es)
      (h : n.SpansLines) : SpansLines (.mapping es p)
  | item {n : Node} {is : List Node} {p : Place} (hi : n ∈ is) (h : n.SpansLines) :
      SpansLines (.sequence is p)
  | scalar {v : Scalar} {p : Place} (hv : ∀ s, v ≠ .literal s) (h : '\n' ∈ p.text.toList) :
      SpansLines (.scalar v p)

variable {v : Scalar} {p : Place}

theorem not_spansLines_mapping {es : List (String × Node)} :
    ¬SpansLines (.mapping es p) ↔ ∀ e ∈ es, ¬e.2.SpansLines := by
  constructor
  · exact fun h e he hspans => h (.entry he hspans)
  · intro h hspans
    cases hspans with
    | entry he hn => exact h _ he hn

theorem not_spansLines_sequence {is : List Node} :
    ¬SpansLines (.sequence is p) ↔ ∀ n ∈ is, ¬n.SpansLines := by
  constructor
  · exact fun h n hn hspans => h (.item hn hspans)
  · intro h hspans
    cases hspans with
    | item hi hn => exact h _ hi hn

theorem not_spansLines_literal (s : String) : ¬SpansLines (.scalar (.literal s) p) := by
  intro h
  cases h with
  | scalar hv _ => exact hv s rfl

theorem not_spansLines_scalar (hv : ∀ s, v ≠ .literal s) :
    ¬SpansLines (.scalar v p) ↔ '\n' ∉ p.text.toList := by
  constructor
  · exact fun h hbreak => h (.scalar hv hbreak)
  · intro h hspans
    cases hspans with
    | scalar _ hbreak => exact h hbreak

/-- The texts of all scalars in the tree, blocks of text apart, have a property. -/
inductive EachText (P : String → Prop) : Node → Prop
  | mapping {es : List (String × Node)} {p : Place} (h : ∀ e ∈ es, EachText P e.2) :
      EachText P (.mapping es p)
  | sequence {is : List Node} {p : Place} (h : ∀ n ∈ is, EachText P n) :
      EachText P (.sequence is p)
  | literal (s : String) (p : Place) : EachText P (.scalar (.literal s) p)
  | scalar {v : Scalar} {p : Place} (hv : ∀ s, v ≠ .literal s) (h : P p.text) :
      EachText P (.scalar v p)

variable {P : String → Prop}

theorem eachText_mapping {es : List (String × Node)} :
    EachText P (.mapping es p) ↔ ∀ e ∈ es, EachText P e.2 := by
  constructor
  · rintro (h | _)
    exact h
  · exact .mapping

theorem eachText_sequence {is : List Node} :
    EachText P (.sequence is p) ↔ ∀ n ∈ is, EachText P n := by
  constructor
  · rintro (_ | h)
    exact h
  · exact .sequence

theorem eachText_scalar (hv : ∀ s, v ≠ .literal s) : EachText P (.scalar v p) ↔ P p.text := by
  constructor
  · intro h
    cases h with
    | literal s p => exact absurd rfl (hv s)
    | scalar _ h => exact h
  · exact .scalar hv

/-- No scalar spans lines if no text has a line break. -/
theorem eachText_unbroken (n : Node) :
    EachText (fun t => '\n' ∉ t.toList) n ↔ ¬n.SpansLines := by
  induction n using Node.induct with
  | mapping es p ih =>
      rw [not_spansLines_mapping, eachText_mapping]
      exact forall_congr' fun e => imp_congr_right (ih e)
  | sequence is p ih =>
      rw [not_spansLines_sequence, eachText_sequence]
      exact forall_congr' fun n => imp_congr_right (ih n)
  | scalar v p =>
      by_cases hv : ∃ s, v = .literal s
      · obtain ⟨s, rfl⟩ := hv
        exact iff_of_true (.literal s p) (not_spansLines_literal s)
      · have hv' : ∀ s, v ≠ .literal s := fun s hs => hv ⟨s, hs⟩
        rw [eachText_scalar hv', not_spansLines_scalar hv']

theorem SpansLines.of_child {n c : Node} {s : Step} (hc : n.child? s = some c)
    (h : c.SpansLines) : n.SpansLines := by
  rcases child?_cases hc with ⟨es, p, k, rfl, -, hmem⟩ | ⟨is, p, i, rfl, -, hmem⟩
  · exact .entry hmem h
  · exact .item hmem h

end Node

namespace Emitter

open Lines (Blind Unbroken unbroken_cons unbroken_indent)

theorem newline_notMem_keyText (key : String) : '\n' ∉ (keyText key).toList := by
  unfold keyText
  split
  · exact Text.newline_notMem_quoted key
  · rename_i h
    simp only [needsQuotes, Bool.not_eq_true, Bool.or_eq_false_iff] at h
    simpa using h.2

theorem newline_notMem_keyLine (key : String) : '\n' ∉ (keyLine .plain key).toList := by
  rw [keyLine, Palette.key, Palette.paint_plain, String.toList_append, List.mem_append]
  rintro (h | h)
  · exact newline_notMem_keyText key h
  · exact absurd h (by decide)

theorem unbroken_blockLines (s : String) : Unbroken (blockLines .plain s) := by
  have hheader : '\n' ∉ (blockParts s).1.toList := by
    unfold blockParts
    split
    all_goals
      dsimp only
      decide
  rw [blockLines, unbroken_cons, unbroken_indent]
  refine ⟨hheader, ?_⟩
  rw [Unbroken, List.forall_mem_map]
  intro l hl
  rw [Palette.value_plain]
  exact Lines.unbroken_ofText _ l hl

variable {P : String → Prop}

theorem forall_entry (hP : Blind P) (key : String) (n : Node) (ls : List String) :
    (∀ l ∈ entry .plain key n ls, P l) ↔ ∀ l ∈ ls, P l := by
  have hkey := newline_notMem_keyLine key
  unfold entry
  split
  · rw [List.forall_mem_cons, hP.forall_indent]
    exact and_iff_right (hP.of_unbroken hkey)
  · refine hP.forall_lead ?_
    rw [String.toList_append, List.mem_append]
    rintro (h | h)
    · exact hkey h
    · exact absurd h (by decide)

theorem forall_item (hP : Blind P) (n : Node) (ls : List String) :
    (∀ l ∈ item n ls, P l) ↔ ∀ l ∈ ls, P l := by
  unfold item
  split
  · exact hP.forall_bullet
  · exact hP.forall_lead (by decide)

/-- **Of the lines of a node holds what holds of the texts of its scalars**, as far as it does not
depend on what stands before them. -/
theorem forall_nodeLines (hP : Blind P) (n : Node) :
    (∀ l ∈ nodeLines .plain n, P l) ↔ n.EachText P := by
  have hsingle : ∀ {s : String}, '\n' ∉ s.toList → ∀ l ∈ [s], P l := fun h =>
    List.forall_mem_singleton.mpr (hP.of_unbroken h)
  induction n using Node.induct with
  | mapping es p ih =>
      rw [Node.eachText_mapping, nodeLines]
      by_cases hes : es = []
      · subst hes
        exact iff_of_true (hsingle (by decide)) (by simp)
      · rw [if_neg (by simpa using hes), entriesLines_eq_flatMap, List.forall_mem_flatMap]
        exact forall_congr' fun e => imp_congr_right fun he =>
          (forall_entry hP e.1 e.2 _).trans (ih e he)
  | sequence is p ih =>
      rw [Node.eachText_sequence, nodeLines]
      by_cases his : is = []
      · subst his
        exact iff_of_true (hsingle (by decide)) (by simp)
      · rw [if_neg (by simpa using his), itemsLines_eq_flatMap, List.forall_mem_flatMap]
        exact forall_congr' fun n => imp_congr_right fun hn =>
          (forall_item hP n _).trans (ih n hn)
  | scalar v p =>
      by_cases hv : ∃ s, v = .literal s
      · obtain ⟨s, rfl⟩ := hv
        exact iff_of_true (fun l hl => hP.of_unbroken (unbroken_blockLines s l hl)) (.literal s p)
      · have hv' : ∀ s, v ≠ .literal s := fun s hs => hv ⟨s, hs⟩
        rw [nodeLines_scalar hv', Palette.value_plain, List.forall_mem_singleton,
          Node.eachText_scalar hv']

/-- **A node is written on lines of their own** exactly if none of its scalars spans lines. -/
theorem unbroken_nodeLines (n : Node) : Unbroken (nodeLines .plain n) ↔ ¬n.SpansLines :=
  (forall_nodeLines Lines.blind_unbroken n).trans n.eachText_unbroken

end Emitter

namespace Unified

open Lines (Unbroken)

variable {left right : Stream} {options : CompareOptions}

/-- The contents of lines. -/
abbrev contents (ls : List Line) : List String :=
  ls.map (·.content)

theorem contents_annotate (status : Status) (ls : List String) :
    contents (annotate status ls) = ls := by
  rw [contents, annotate, List.map_map]
  exact List.map_id ls

theorem contents_relayout {layout : List String → List String} {ls : List Line}
    (h : (layout (contents ls)).length = ls.length) :
    contents (relayout layout ls) = layout (contents ls) := by
  rw [contents, relayout, List.map_map]
  have hsnd : (ls.zip (layout (contents ls))).map Prod.snd = layout (contents ls) :=
    List.map_snd_zip (Nat.le_of_eq h)
  exact (List.map_congr_left fun _ _ => rfl).trans hsnd

theorem unbroken_writer (s : Option Step) (n : Node) :
    Unbroken (writer s n) ↔ ¬n.SpansLines := by
  rcases s with _ | k | i
  · exact Emitter.unbroken_nodeLines n
  · exact (Emitter.forall_entry Lines.blind_unbroken k n _).trans (Emitter.unbroken_nodeLines n)
  · exact (Emitter.forall_item Lines.blind_unbroken n _).trans (Emitter.unbroken_nodeLines n)

theorem unbroken_framed (s : Option Step) (ls : List Line) :
    Unbroken (contents (framed s ls)) ↔ Unbroken (contents ls) := by
  rcases s with _ | k | i
  · exact Iff.rfl
  · have hlines : contents (framed (some (.key k)) ls) =
        Emitter.keyLine .plain k :: contents (relayout (Lines.indent 2) ls) := rfl
    rw [hlines, Lines.unbroken_cons, contents_relayout (by simp), Lines.unbroken_indent]
    exact and_iff_right (Emitter.newline_notMem_keyLine k)
  · rw [framed, contents_relayout (by simp), Lines.unbroken_bullet]

/-! ### The merged document -/

theorem unbroken_partsLines {ps : List (Step × Listing)}
    (h : ∀ x ∈ ps, ∀ s, Unbroken (contents (x.2.lines s)) ↔
      ∀ y ∈ x.2.pieces, ¬y.node.SpansLines) :
    Unbroken (contents (partsLines ps)) ↔ ∀ y ∈ partsPieces ps, ¬y.node.SpansLines := by
  rw [partsLines_eq_flatMap, partsPieces_eq_flatMap, contents, List.map_flatMap,
    Lines.unbroken_flatMap, List.forall_mem_flatMap]
  refine forall_congr' fun x => imp_congr_right fun hx => (h x hx _).trans ?_
  rw [List.forall_mem_map]
  rfl

/-- What is shown stays on its lines exactly if the nodes that are shown whole do. -/
theorem Listing.unbroken_lines (t : Listing) (s : Option Step) :
    Unbroken (contents (t.lines s)) ↔ ∀ x ∈ t.pieces, ¬x.node.SpansLines := by
  induction t using Listing.induct generalizing s with
  | whole status n =>
      rw [Listing.lines, Listing.pieces, contents_annotate, unbroken_writer,
        List.forall_mem_singleton]
  | opened ps ih =>
      rw [Listing.lines, Listing.pieces, unbroken_framed]
      exact unbroken_partsLines ih

/-- The nodes that the merged document shows whole. -/
def documentPieces (ds : List Difference) : Option Node → Option Node → List Piece
  | some l, some r => (documentListing ds l r).flatMap Listing.pieces
  | some l, none => [⟨[], .removed, l⟩]
  | none, some r => [⟨[], .added, r⟩]
  | none, none => []

/-- The nodes that the view shows whole at an index. -/
def piecesAt (options : CompareOptions) (left right : Stream) (i : Nat) : List Piece :=
  documentPieces (Difference.sort (Compare.optional options (left.document i) (right.document i)))
    (left.document i) (right.document i)

/-- The lines of the documents at an index stay on one line each exactly if the nodes that are
shown whole do. -/
theorem unbroken_documentAt {leftText rightText : String} (options : CompareOptions)
    (hleft : Stream.ofText leftText = .ok left) (hright : Stream.ofText rightText = .ok right)
    (i : Nat) :
    Unbroken (contents (documentAt left right (.ofStreams options left right) i)) ↔
      ∀ x ∈ piecesAt options left right i, ¬x.node.SpansLines := by
  cases hl : left.document i with
  | none =>
      cases hr : right.document i with
      | none => simp [piecesAt, documentPieces, documentAt, document, hl, hr, Lines.unbroken_nil]
      | some r =>
          rw [piecesAt, documentAt, hl, hr, document, documentPieces, contents_annotate,
            List.forall_mem_singleton]
          exact Emitter.unbroken_nodeLines r
  | some l =>
      cases hr : right.document i with
      | none =>
          rw [piecesAt, documentAt, hl, hr, document, documentPieces, contents_annotate,
            List.forall_mem_singleton]
          exact Emitter.unbroken_nodeLines l
      | some r =>
          obtain ⟨R, -, -, h⟩ := exists_located options (Stream.placed_of_ofText hleft hl)
            (Stream.placed_of_ofText hright hr)
          rw [piecesAt, documentAt_eq hl hr, document_eq_lines h, hl, hr, documentPieces,
            contents, List.map_flatMap, Lines.unbroken_flatMap, List.forall_mem_flatMap]
          exact forall_congr' fun t => imp_congr_right fun _ => t.unbroken_lines none

/-! ### What is shown is part of the documents -/

variable {ds : List Difference} {l r : Node}

theorem oneLine_shown {s : Option Step} {parts : List (Step × Listing)} (hl : ¬l.SpansLines)
    (hr : ¬r.SpansLines) (hparts : ∀ x ∈ partsPieces parts, ¬x.node.SpansLines) :
    ∀ t ∈ shown ds s l r parts, ∀ x ∈ t.pieces, ¬x.node.SpansLines := by
  unfold shown
  split
  · rename_i d _
    cases d with
    | added n => simpa [changed, Listing.pieces] using hr
    | deleted n => rcases s with _ | k | i <;> simp [changed, Listing.pieces, hl, hr]
    | modified n m => simp [changed, Listing.pieces, hl, hr]
  · split
    · simpa [Listing.pieces] using hparts
    · simpa [Listing.pieces] using hr

theorem oneLine_listing (hl : ¬l.SpansLines) (hr : ¬r.SpansLines) :
    ∀ x ∈ partsPieces (listing ds l r), ¬x.node.SpansLines := by
  induction l using Node.child_induct generalizing r with
  | h l ih =>
      intro x hx
      rw [partsPieces_listing] at hx
      obtain ⟨s, -, hx⟩ := List.mem_flatMap.mp hx
      obtain ⟨t, ht, hx⟩ := List.mem_flatMap.mp hx
      obtain ⟨y, hy, rfl⟩ := List.mem_map.mp hx
      show ¬y.node.SpansLines
      cases hc : l.child? s with
      | none =>
          cases hd : r.child? s with
          | none => simp [hc, hd, atStep] at ht
          | some d =>
              have hy' : y.node = d := by simp_all [atStep, Listing.pieces]
              exact hy' ▸ fun h => hr (h.of_child hd)
      | some c =>
          have hc' : ¬c.SpansLines := fun h => hl (h.of_child hc)
          cases hd : r.child? s with
          | none =>
              have hy' : y.node = c := by simp_all [atStep, Listing.pieces]
              exact hy' ▸ hc'
          | some d =>
              have hd' : ¬d.SpansLines := fun h => hr (h.of_child hd)
              rw [hc, hd] at ht
              exact oneLine_shown hc' hd' (ih s c hc hc' hd') t ht y hy

/-- Where no document spans lines, nothing that is shown does. -/
theorem oneLine_piecesAt {i : Nat}
    (h : ∀ n, left.document i = some n ∨ right.document i = some n → ¬n.SpansLines) :
    ∀ x ∈ piecesAt options left right i, ¬x.node.SpansLines := by
  unfold piecesAt
  cases hl : left.document i with
  | none =>
      cases hr : right.document i with
      | none => simp [documentPieces]
      | some r => simpa [documentPieces] using h r (.inr hr)
  | some l =>
      cases hr : right.document i with
      | none => simpa [documentPieces] using h l (.inl hl)
      | some r =>
          have hl' := h l (.inl hl)
          have hr' := h r (.inr hr)
          rw [documentPieces, List.forall_mem_flatMap]
          exact oneLine_shown hl' hr' (oneLine_listing hl' hr')

/-! ### The view -/

theorem render_line_ne_empty (p : Palette) (l : Line) : l.render p ≠ "" := by
  unfold Line.render
  cases l.status with
  | context => simp
  | added => exact mt Palette.paint_eq_empty.mp (by simp)
  | removed => exact mt Palette.paint_eq_empty.mp (by simp)

theorem ne_empty_of_mem_lines {p : Palette} {d : StreamDiff} {line : String}
    (h : line ∈ lines p left right d) : line ≠ "" := by
  obtain ⟨i, -, h⟩ := List.mem_flatMap.mp h
  rcases List.mem_append.mp h with h | h
  · split at h
    · cases h
    · rw [List.mem_singleton.mp h]
      decide
  · obtain ⟨l, -, rfl⟩ := List.mem_map.mp h
    exact render_line_ne_empty p l

/-- The lines of the view: those of the documents, each behind the sign of its status, and a line of
hyphens between documents. -/
def signedLines (options : CompareOptions) (left right : Stream) : List String :=
  (List.range (max left.length right.length)).flatMap fun i =>
    (if i = 0 then [] else ["---"]) ++
      (documentAt left right (.ofStreams options left right) i).map fun l =>
        String.ofList (l.status.sign :: l.content.toList)

theorem lines_eq_signedLines (options : CompareOptions) (left right : Stream) :
    lines .plain left right (.ofStreams options left right) = signedLines options left right := by
  refine List.flatMap_congr fun i _ => congrArg _ (List.map_congr_left fun l _ => ?_)
  rw [← String.toList_inj, toList_render_plain, String.toList_ofList]

theorem ne_empty_of_mem_signedLines {l : String} (h : l ∈ signedLines options left right) :
    l ≠ "" := by
  rw [← lines_eq_signedLines] at h
  exact ne_empty_of_mem_lines h

theorem unbroken_signedLines :
    Unbroken (signedLines options left right) ↔
      ∀ i, Unbroken (contents (documentAt left right (.ofStreams options left right) i)) := by
  have hsign : ∀ ls : List Line, Unbroken (ls.map fun l =>
      String.ofList (l.status.sign :: l.content.toList)) ↔ Unbroken (contents ls) := by
    intro ls
    rw [Unbroken, Unbroken, List.forall_mem_map, List.forall_mem_map]
    refine forall_congr' fun l => imp_congr_right fun _ => ?_
    rw [String.toList_ofList, List.mem_cons, not_or]
    refine and_iff_right ?_
    cases l.status <;> decide
  rw [signedLines, Lines.unbroken_flatMap]
  constructor
  · intro h i
    by_cases hi : i < max left.length right.length
    · exact (hsign _).mp (Lines.unbroken_append.mp (h i (List.mem_range.mpr hi))).2
    · rw [documentAt, Stream.document_eq_none_of_length_le (by omega),
        Stream.document_eq_none_of_length_le (by omega)]
      exact Lines.unbroken_nil
  · intro h i _
    refine Lines.unbroken_append.mpr ⟨?_, (hsign _).mpr (h i)⟩
    split
    · exact Lines.unbroken_nil
    · simp [Unbroken]

/-- **Every line of the view is a line on the page, exactly if no scalar that is shown has a text
that goes over several lines**, blocks of text apart.  It suffices that the documents have no such
scalar. -/
theorem one_line_each_iff {leftText rightText : String} (options : CompareOptions)
    (hleft : Stream.ofText leftText = .ok left) (hright : Stream.ofText rightText = .ok right) :
    (∀ i, (∀ line ∈ documentAt left right (.ofStreams options left right) i,
        '\n' ∉ line.content.toList) ↔ ∀ x ∈ piecesAt options left right i, ¬x.node.SpansLines) ∧
      (Lines.onPage (render .plain left right (.ofStreams options left right)) =
          signedLines options left right ↔
        ∀ i, ∀ x ∈ piecesAt options left right i, ¬x.node.SpansLines) ∧
      ((∀ i n, left.document i = some n ∨ right.document i = some n → ¬n.SpansLines) →
        ∀ i, ∀ x ∈ piecesAt options left right i, ¬x.node.SpansLines) := by
  have hdocument := unbroken_documentAt options hleft hright
  refine ⟨fun i => ?_, ?_, fun h i => oneLine_piecesAt (h i)⟩
  · rw [← hdocument i, Unbroken, contents, List.forall_mem_map]
  · rw [render, lines_eq_signedLines,
      Lines.onPage_intercalate fun l hl => ne_empty_of_mem_signedLines hl, unbroken_signedLines]
    exact forall_congr' hdocument

theorem one_line_each_iff_of_block :
    ∃ left right, Stream.ofText "a: \"x\\ny\\n\"\nb: 1\n" = .ok left ∧
      Stream.ofText "a: |\n  x\n  y\nb: 2\n" = .ok right ∧
      Lines.onPage (render .plain left right (.ofStreams .positional left right)) =
        [" a: |", "   x", "   y", "-b: 1", "+b: 2"] ∧
      ∀ i, ∀ x ∈ piecesAt .positional left right i, ¬x.node.SpansLines := by
  obtain ⟨left, right, -, -, hleft, hright, -, -, htest⟩ :=
    Stream.exists_of_firstDocuments "a: \"x\\ny\\n\"\nb: 1\n" "a: |\n  x\n  y\nb: 2\n"
      (fun left right _ _ =>
        Lines.onPage (render .plain left right (.ofStreams .positional left right)) ==
            [" a: |", "   x", "   y", "-b: 1", "+b: 2"] &&
          signedLines .positional left right == [" a: |", "   x", "   y", "-b: 1", "+b: 2"])
      (by decide +kernel)
  simp only [Bool.and_eq_true, beq_iff_eq] at htest
  obtain ⟨-, hpage, -⟩ := one_line_each_iff .positional hleft hright
  exact ⟨left, right, hleft, hright, htest.1, hpage.mp (htest.1.trans htest.2.symm)⟩

/-- The second line of a plain scalar has no sign. -/
theorem line_without_sign :
    ∃ left right, Stream.ofText "a: x\n\n  y\n" = .ok left ∧
      Stream.ofText "a: x\n\n  y\n" = .ok right ∧
      (¬∀ line ∈ documentAt left right (.ofStreams .positional left right) 0,
        '\n' ∉ line.content.toList) ∧
      Lines.onPage (render .plain left right (.ofStreams .positional left right)) =
        [" a: x", "y"] := by
  obtain ⟨left, right, -, -, hleft, hright, -, -, htest⟩ :=
    Stream.exists_of_firstDocuments "a: x\n\n  y\n" "a: x\n\n  y\n"
      (fun left right _ _ =>
        documentAt left right (.ofStreams .positional left right) 0 == [⟨.context, "a: x\ny"⟩] &&
          Lines.onPage (render .plain left right (.ofStreams .positional left right)) ==
            [" a: x", "y"])
      (by decide +kernel)
  simp only [Bool.and_eq_true, beq_iff_eq] at htest
  refine ⟨left, right, hleft, hright, fun h => ?_, htest.2⟩
  rw [htest.1] at h
  exact h _ (List.mem_singleton.mpr rfl) (by decide)

end Unified

end YamlDelta
