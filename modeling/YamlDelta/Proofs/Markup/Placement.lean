/-
Reading a text puts every node at its path.

A node is given its path when it begins and never again, while the collections around it
are still open.  What carries the argument is that the path of an open collection is the
one that the collections around it hold ready for their next part, and that they hold it
ready as long as the collection is open: a part is only added when it is complete.  A copy
of an anchored node is moved before it is added.

So every document that is read is `Placed` at the root, whatever the events are, as long
as they are read as documents at all.
-/
import YamlDelta.Markup.Read
import YamlDelta.Proofs.Node.Paths

namespace YamlDelta

namespace Node

/-! ### Trees that do not move -/

theorem entriesUnder_eq_self {parent : String} {es : List (String × Node)}
    (h : ∀ e ∈ es, e.2.Placed (Path.key parent e.1)) : entriesUnder parent es = es := by
  induction es with
  | nil => rfl
  | cons e es ih =>
      rw [List.forall_mem_cons] at h
      rw [entriesUnder, ih h.2, h.1]

theorem itemsUnder_eq_self {parent : String} {is : List Node}
    (h : ∀ (i : Nat) (n : Node), is[i]? = some n → n.Placed (Path.index parent i)) :
    itemsUnder parent 0 is = is := by
  refine List.ext_getElem? fun i => ?_
  rw [getElem?_itemsUnder, Nat.zero_add]
  cases hi : is[i]? with
  | none => rfl
  | some n => exact congrArg some (h i n hi)

theorem placed_mapping {es : List (String × Node)} {p : Place}
    (h : ∀ e ∈ es, e.2.Placed (Path.key p.path e.1)) : (mapping es p).Placed p.path := by
  rw [Placed, withPath, entriesUnder_eq_self h]

theorem placed_sequence {is : List Node} {p : Place}
    (h : ∀ (i : Nat) (n : Node), is[i]? = some n → n.Placed (Path.index p.path i)) :
    (sequence is p).Placed p.path := by
  rw [Placed, withPath, itemsUnder_eq_self h]

/-- Moving a tree twice is moving it once. -/
theorem withPath_withPath (n : Node) (path path' : String) :
    (n.withPath path).withPath path' = n.withPath path' := by
  induction n using Node.induct generalizing path path' with
  | mapping es p ih =>
      have hes : entriesUnder path' (entriesUnder path es) = entriesUnder path' es := by
        induction es with
        | nil => rfl
        | cons e es ihes =>
            rw [List.forall_mem_cons] at ih
            simp only [entriesUnder, ih.1, ihes ih.2]
      simp only [withPath, hes]
  | sequence is p ih =>
      have his : itemsUnder path' 0 (itemsUnder path 0 is) = itemsUnder path' 0 is := by
        refine List.ext_getElem? fun i => ?_
        simp only [getElem?_itemsUnder, Option.map_map]
        cases hi : is[i]? with
        | none => rfl
        | some n => exact congrArg some (ih n (List.mem_of_getElem? hi) _ _)
      simp only [withPath, his]
  | scalar v p => rfl

theorem placed_withPath (n : Node) (path : String) : (n.withPath path).Placed path :=
  withPath_withPath n path path

/-- Line, column and text may change. -/
theorem Placed.mapPlace {path : String} {n : Node} {f : Place → Place}
    (hf : ∀ p, (f p).path = p.path) (h : n.Placed path) : (n.mapPlace f).Placed path := by
  have hplace : ∀ p : Place, p.path = path → { f p with path } = f p := by
    rintro p rfl
    rw [← hf p]
  have hpath := h.path_eq
  cases n with
  | mapping es p =>
      have hes := (Node.mapping.inj h).1
      rw [Node.mapPlace, Placed, withPath, hes, hplace p hpath]
  | sequence is p =>
      have his := (Node.sequence.inj h).1
      rw [Node.mapPlace, Placed, withPath, his, hplace p hpath]
  | scalar v p => rw [Node.mapPlace, Placed, withPath, hplace p hpath]

end Node

namespace Markup

/-! ### What is built so far -/

/-- The complete parts of an open collection are placed under its path. -/
def Parts.Placed (path : String) : Parts → Prop
  | .items is => ∀ (i : Nat) (n : Node), is.toList[i]? = some n → n.Placed (Path.index path i)
  | .entries es _ => ∀ e ∈ es.toList, e.2.Placed (Path.key path e.1)

/-- Every open collection has the path that those around it hold ready, and its parts lie under
that path. -/
def FramesPlaced : List Frame → Prop
  | [] => True
  | f :: fs =>
    f.path = Builder.nextPath { Builder.empty with frames := fs } ∧ f.parts.Placed f.path ∧
      FramesPlaced fs

namespace Builder

/-- Everything that is complete is placed. -/
structure Placed (b : Builder) : Prop where
  frames : FramesPlaced b.frames
  root : ∀ n, b.root = some n → n.Placed ""
  documents : ∀ d ∈ b.documents.toList, ∀ n, d = some n → n.Placed ""

theorem placed_empty : empty.Placed :=
  ⟨trivial, nofun, nofun⟩

variable {b b' : Builder} {n : Node}

theorem Placed.setKey (h : b.Placed) (key : String) : (b.setKey key).Placed := by
  obtain ⟨documents, root, frames, anchors⟩ := b
  cases frames with
  | nil => exact h
  | cons f fs =>
      obtain ⟨anchor, position, path, parts⟩ := f
      cases parts with
      | items is => exact h
      | entries es waiting =>
          obtain ⟨hpath, hparts, hframes⟩ := h.frames
          exact ⟨⟨hpath, hparts, hframes⟩, h.root, h.documents⟩

/-- A part at the path that was held ready for it keeps everything placed. -/
theorem Placed.attach (h : b.Placed) (hn : n.Placed b.nextPath) : (b.attach n).Placed := by
  obtain ⟨documents, root, frames, anchors⟩ := b
  cases frames with
  | nil =>
      refine ⟨trivial, ?_, h.documents⟩
      rintro m ⟨⟩
      exact hn
  | cons f fs =>
      obtain ⟨anchor, position, path, parts⟩ := f
      obtain ⟨hpath, hparts, hframes⟩ := h.frames
      cases parts with
      | items is =>
          refine ⟨⟨hpath, fun i m hm => ?_, hframes⟩, h.root, h.documents⟩
          rw [Array.toList_push, List.getElem?_append] at hm
          split at hm
          · exact hparts i m hm
          · rename_i hi
            obtain ⟨hlt, rfl⟩ := List.getElem?_eq_some_iff.mp hm
            have hsize : i = is.size := by
              simp only [Array.length_toList, List.length_singleton] at hi hlt
              omega
            subst hsize
            rw [List.getElem_singleton]
            exact hn
      | entries es waiting =>
          cases waiting with
          | none => exact h.setKey n.keyText
          | some key =>
              refine ⟨⟨hpath, fun e he => ?_, hframes⟩, h.root, h.documents⟩
              rw [Array.toList_push, List.mem_append, List.mem_singleton] at he
              rcases he with he | rfl
              · exact hparts e he
              · exact hn

theorem Placed.remember (h : b.Placed) (anchor : Option Nat) (n : Node) :
    (b.remember anchor n).Placed := by
  cases anchor with
  | none => exact h
  | some id => exact ⟨h.frames, h.root, h.documents⟩

theorem nextPath_remember (anchor : Option Nat) (n : Node) (b : Builder) :
    (b.remember anchor n).nextPath = b.nextPath := by
  cases anchor <;> rfl

theorem Placed.complete (h : b.Placed) (anchor : Option Nat) (hn : n.Placed b.nextPath) :
    (b.complete anchor n).Placed :=
  (h.remember anchor n).attach (by rwa [nextPath_remember])

/-- Closing the innermost collection leaves its path ready. -/
theorem Placed.close {f : Frame} {fs : List Frame} (h : b.Placed) (hb : b.frames = f :: fs)
    (hn : n.Placed f.path) : ({ b with frames := fs }.complete f.anchor n).Placed := by
  have hframes := h.frames
  rw [hb] at hframes
  obtain ⟨hpath, -, hrest⟩ := hframes
  have hclosed : Placed { b with frames := fs } := ⟨hrest, h.root, h.documents⟩
  rw [hpath] at hn
  exact hclosed.complete f.anchor hn

theorem Placed.parts {f : Frame} {fs : List Frame} (h : b.Placed) (hb : b.frames = f :: fs) :
    f.parts.Placed f.path := by
  have hframes := h.frames
  rw [hb] at hframes
  exact hframes.2.1

/-- **An event keeps everything placed.** -/
theorem Placed.step {source : Source} {e : Event} (h : b.Placed)
    (hstep : step source b e = .ok b') : b'.Placed := by
  cases e with
  | documentStart =>
      cases hstep
      exact ⟨h.frames, nofun, h.documents⟩
  | documentEnd =>
      cases hstep
      refine ⟨h.frames, nofun, fun d hd n hn => ?_⟩
      rw [Array.toList_push, List.mem_append, List.mem_singleton] at hd
      rcases hd with hd | rfl
      · exact h.documents d hd n hn
      · exact h.root n hn
  | «alias» anchor mark =>
      simp only [Builder.step, copyAnchored] at hstep
      cases hlookup : b.anchors.lookup anchor with
      | none => simp [hlookup] at hstep
      | some m =>
          simp only [hlookup] at hstep
          cases hstep
          exact h.complete none ((Node.placed_withPath m b.nextPath).mapPlace fun _ => rfl)
  | scalar text style anchor isText mark =>
      simp only [Builder.step] at hstep
      split at hstep
      · cases hstep
        exact (h.remember anchor _).setKey text
      · cases hstep
        unfold Builder.scalar
        simp only []
        split
        · exact h
        · exact h.complete anchor rfl
  | sequenceStart anchor mark =>
      cases hstep
      exact ⟨⟨rfl, nofun, h.frames⟩, h.root, h.documents⟩
  | sequenceEnd =>
      simp only [Builder.step, endSequence] at hstep
      split at hstep
      · cases hstep
      · rename_i f fs hb
        have hparts := h.parts hb
        split at hstep
        · rename_i is hf
          cases hstep
          rw [hf] at hparts
          exact h.close hb (Node.placed_sequence (p := f.place) hparts)
        · cases hstep
  | mappingStart anchor mark =>
      cases hstep
      exact ⟨⟨rfl, nofun, h.frames⟩, h.root, h.documents⟩
  | mappingEnd =>
      simp only [Builder.step, endMapping] at hstep
      split at hstep
      · cases hstep
      · rename_i f fs hb
        have hparts := h.parts hb
        split at hstep
        · rename_i es key hf
          cases hstep
          rw [hf] at hparts
          exact h.close hb (Node.placed_mapping (p := f.place) hparts)
        · cases hstep

theorem Placed.run {source : Source} {events : List Event} (h : b.Placed)
    (hrun : events.foldlM (Builder.step source) b = .ok b') : b'.Placed := by
  induction events generalizing b with
  | nil =>
      cases hrun
      exact h
  | cons e events ih =>
      rw [List.foldlM_cons] at hrun
      cases hstep : Builder.step source b e with
      | error reason =>
          rw [hstep] at hrun
          cases hrun
      | ok b₁ =>
          rw [hstep] at hrun
          exact ih (h.step hstep) hrun

end Builder

/-! ### Documents -/

theorem placed_of_ofEvents {source : Source} {events : List Event} {st : Stream}
    (h : ofEvents source events = .ok st) :
    ∀ d ∈ st.documents, ∀ n, d = some n → n.Placed "" := by
  unfold ofEvents at h
  cases hrun : events.foldlM (Builder.step source) Builder.empty with
  | error reason =>
      rw [hrun] at h
      cases h
  | ok b =>
      rw [hrun] at h
      have hstream : b.stream = .ok st := h
      unfold Builder.stream at hstream
      split at hstream
      · cases hstream
      · split at hstream
        · cases hstream
          rintro d hd n rfl
          cases List.mem_singleton.mp hd
        · cases hstream
          exact (Builder.placed_empty.run hrun).documents

end Markup

namespace Stream

/-- **Every document that is read has its nodes at the paths of their locations.** -/
theorem placed_of_ofText {s : String} {st : Stream} (h : ofText s = .ok st) {i : Nat} {n : Node}
    (hn : st.document i = some n) : n.Placed "" := by
  unfold ofText ofChars at h
  simp only [] at h
  split at h
  · cases h
  · rename_i events hevents
    cases hdocs : Markup.ofEvents (Markup.Source.ofText s.toList) events with
    | error reason =>
        rw [hdocs] at h
        cases h
    | ok st' =>
        rw [hdocs] at h
        cases h
        have hmem := List.mem_of_getElem? (Option.join_eq_some_iff.mp hn)
        exact Markup.placed_of_ofEvents hdocs _ hmem n rfl

/-- Both texts are read and have first documents, and these pass a test. -/
def firstDocuments (a b : String) (test : Stream → Stream → Node → Node → Bool) : Bool :=
  match ofText a, ofText b with
  | .ok left, .ok right =>
    match left.document 0, right.document 0 with
    | some l, some r => test left right l r
    | _, _ => false
  | _, _ => false

/-- Testing two texts is enough to have what is read from them. -/
theorem exists_of_firstDocuments (a b : String) (test : Stream → Stream → Node → Node → Bool)
    (h : firstDocuments a b test = true) :
    ∃ left right l r, ofText a = .ok left ∧ ofText b = .ok right ∧
      left.document 0 = some l ∧ right.document 0 = some r ∧ test left right l r = true := by
  unfold firstDocuments at h
  split at h
  · rename_i left right hleft hright
    split at h
    · rename_i l r hl hr
      exact ⟨left, right, l, r, hleft, hright, hl, hr, h⟩
    · cases h
  · cases h

end Stream

end YamlDelta
