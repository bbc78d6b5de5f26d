/-
What is built is what was written.

A document that is built follows the tree that its events describe: every node is there,
with its parts in the order in which they were written, and every key is the text of the
tree in its place.  It stands at the root, and each of its nodes has the path that the
key or the index leading to it adds to the path of its parent, copies of anchored nodes
included.

That holds of every stream of well-nested events, unless one of its aliases names an
anchor that no complete node has.  Then that is the error, and there is no other.
-/
import YamlDelta.Proofs.Markup.Anchors
import YamlDelta.Proofs.Markup.Placement

namespace YamlDelta

namespace Node

/-- Every node below has the path that its key or its index adds to the path of its parent. -/
inductive PathsBelow : Node → Prop
  | mapping {es : List (String × Node)} {p : Place}
      (paths : ∀ e ∈ es, e.2.path = Path.key p.path e.1)
      (below : ∀ e ∈ es, PathsBelow e.2) : PathsBelow (.mapping es p)
  | sequence {is : List Node} {p : Place}
      (paths : ∀ (i : Nat) (n : Node), is[i]? = some n → n.path = Path.index p.path i)
      (below : ∀ n ∈ is, PathsBelow n) : PathsBelow (.sequence is p)
  | scalar {v : Scalar} {p : Place} : PathsBelow (.scalar v p)

theorem placed_of_entriesUnder {parent : String} {es : List (String × Node)}
    (h : entriesUnder parent es = es) : ∀ e ∈ es, e.2.Placed (Path.key parent e.1) := by
  induction es with
  | nil => simp
  | cons e es ih =>
      rw [entriesUnder, List.cons.injEq] at h
      rw [List.forall_mem_cons]
      exact ⟨congrArg Prod.snd h.1, ih h.2⟩

theorem placed_of_itemsUnder {parent : String} {is : List Node}
    (h : itemsUnder parent 0 is = is) :
    ∀ (i : Nat) (n : Node), is[i]? = some n → n.Placed (Path.index parent i) := by
  intro i n hn
  have hmoved := getElem?_itemsUnder parent 0 i is
  rw [h, hn, Nat.zero_add] at hmoved
  exact (Option.some.inj hmoved).symm

/-- Moving a tree to where it stands changes nothing exactly if all paths below follow from it. -/
theorem placed_iff (n : Node) (path : String) : n.Placed path ↔ n.path = path ∧ n.PathsBelow := by
  induction n using Node.induct generalizing path with
  | mapping es p ih =>
      constructor
      · intro h
        obtain rfl : p.path = path := h.path_eq
        have hes := placed_of_entriesUnder (Node.mapping.inj h).1
        exact ⟨rfl, .mapping (fun e he => ((ih e he _).mp (hes e he)).1)
          (fun e he => ((ih e he _).mp (hes e he)).2)⟩
      · rintro ⟨rfl, h⟩
        cases h with
        | mapping paths below =>
            exact placed_mapping fun e he => (ih e he _).mpr ⟨paths e he, below e he⟩
  | sequence is p ih =>
      constructor
      · intro h
        obtain rfl : p.path = path := h.path_eq
        have his := placed_of_itemsUnder (Node.sequence.inj h).1
        refine ⟨rfl, .sequence (fun i n hn => (his i n hn).path_eq) (fun n hn => ?_)⟩
        obtain ⟨i, hi⟩ := List.mem_iff_getElem?.mp hn
        exact ((ih n hn _).mp (his i n hi)).2
      · rintro ⟨rfl, h⟩
        cases h with
        | sequence paths below =>
            refine placed_sequence fun i n hn => ?_
            have hmem := List.mem_of_getElem? hn
            exact (ih n hmem _).mpr ⟨paths i n hn, below n hmem⟩
  | scalar v p =>
      constructor
      · intro h
        exact ⟨h.path_eq, .scalar⟩
      · rintro ⟨rfl, -⟩
        rfl

end Node

namespace Markup

open Written

/-! ### Documents that follow what is written -/

mutual
/-- The node has the parts that were written, in the order in which they were written.  An alias
has the position of its own mark, whatever it is a copy of. -/
inductive Follows (source : Source) : Written → Node → Prop
  | reference {id : Nat} {mark : Mark} {n : Node} (line : n.line = (source.position mark).line)
      (column : n.column = (source.position mark).column) :
      Follows source (.reference id mark) n
  | scalar {text : String} {style : Style} {anchor : Option Nat} {isText : Bool} {mark : Mark}
      {path : String} :
      Follows source (.scalar text style anchor isText mark)
        (scalarNode source text style isText mark path)
  | sequence {anchor : Option Nat} {mark : Mark} {ws : List Written} {is : List Node}
      {path : String} (items : List.Forall₂ (Follows source) ws is) :
      Follows source (.sequence anchor mark ws) (.sequence is (placeAt source mark "" path))
  | mapping {anchor : Option Nat} {mark : Mark} {es : List (Written × Written)}
      {fs : List (String × Node)} {path : String}
      (keys : List.Forall₂ (IsKey source) (es.map Prod.fst) (fs.map Prod.fst))
      (values : List.Forall₂ (Follows source) (es.map Prod.snd) (fs.map Prod.snd)) :
      Follows source (.mapping anchor mark es) (.mapping fs (placeAt source mark "" path))
/-- The text is the key that was written. -/
inductive IsKey (source : Source) : Written → String → Prop
  | scalar {text : String} {style : Style} {anchor : Option Nat} {isText : Bool} {mark : Mark} :
      IsKey source (.scalar text style anchor isText mark) text
  | node {k : Written} {n : Node} (complex : k.isScalar = false) (follows : Follows source k n) :
      IsKey source k n.keyText
end

/-- The document that was written: none for nothing at all, and otherwise a tree at the root. -/
inductive IsDocument (source : Source) : Written → Option Node → Prop
  | absent {w : Written} (absent : w.isAbsent source = true) : IsDocument source w none
  | present {w : Written} {n : Node} (present : w.isAbsent source = false)
      (follows : Follows source w n) (root : n.path = "") (below : n.PathsBelow)
      (unmoved : n.withPath "" = n) : IsDocument source w (some n)

/-- The documents are those of the events, and whatever an alias names was there. -/
structure Faithful (source : Source) (ds : List Written) (st : Stream) : Prop where
  /-- No document is one absent document. -/
  empty : ds = [] → st.documents = [none]
  documents : ds ≠ [] → List.Forall₂ (IsDocument source) ds st.documents
  /-- No collection is open at the end of a document. -/
  closed : ∀ pre post, streamEvents ds = pre ++ .documentEnd :: post →
    ∃ b, run source .empty pre = .ok b ∧ b.frames = []
  resolved : ∀ pre id mark post, streamEvents ds = pre ++ .alias id mark :: post →
    Completed source id pre

/-! ### The recursion follows what is written -/

section

variable {source : Source}

/-- Whatever is read of this tree follows it. -/
def Followed (source : Source) (w : Written) : Prop :=
  ∀ (path : String) (known : Anchors) (r : Node × Anchors),
    w.node source path known = .ok r → Follows source w r.1

theorem isKey_of_key {k : Written} {path : String} {known : Anchors} {r : String × Anchors}
    (hk : Followed source k) (h : k.key source path known = .ok r) : IsKey source k r.1 := by
  rcases key_cases h with ⟨text, style, anchor, isText, mark, rfl, rfl⟩ | ⟨hscalar, n, hn, hr⟩
  · exact .scalar
  · rw [hr]
    exact .node hscalar (hk path known _ hn)

theorem follows_of_items {ws : List Written} (hws : ∀ w ∈ ws, Followed source w) :
    ∀ (path : String) (i : Nat) (known : Anchors) (r : List Node × Anchors),
      items source path i known ws = .ok r → List.Forall₂ (Follows source) ws r.1 := by
  induction ws with
  | nil =>
      intro path i known r h
      cases h
      exact .nil
  | cons w ws ih =>
      intro path i known r h
      rw [List.forall_mem_cons] at hws
      obtain ⟨n, known', ns, hn, hns, hr⟩ := exists_of_items_ok h
      rw [hr]
      exact .cons (hws.1 _ _ _ hn) (ih hws.2 _ _ _ _ hns)

theorem follows_of_entries {es : List (Written × Written)}
    (hes : ∀ e ∈ es, Followed source e.1 ∧ Followed source e.2) :
    ∀ (path : String) (known : Anchors) (r : List (String × Node) × Anchors),
      entries source path known es = .ok r →
        List.Forall₂ (IsKey source) (es.map Prod.fst) (r.1.map Prod.fst) ∧
          List.Forall₂ (Follows source) (es.map Prod.snd) (r.1.map Prod.snd) := by
  induction es with
  | nil =>
      intro path known r h
      cases h
      exact ⟨.nil, .nil⟩
  | cons e es ih =>
      intro path known r h
      rw [List.forall_mem_cons] at hes
      obtain ⟨key, known₁, n, known₂, fs, hkey, hn, hfs, hr⟩ := exists_of_entries_ok h
      obtain ⟨hkeys, hvalues⟩ := ih hes.2 _ _ _ hfs
      rw [hr]
      exact ⟨.cons (isKey_of_key hes.1.1 hkey) hkeys, .cons (hes.1.2 _ _ _ hn) hvalues⟩

theorem follows_of_node : ∀ w : Written, Followed source w := by
  intro w
  induction w using Written.induct with
  | reference id mark =>
      intro path known r h
      obtain ⟨n, -, rfl⟩ := exists_of_reference_ok h
      cases n <;> exact .reference rfl rfl
  | scalar text style anchor isText mark =>
      intro path known r h
      cases h
      exact .scalar
  | sequence anchor mark ws ih =>
      intro path known r h
      obtain ⟨is, known', his, hr, -⟩ := exists_of_sequence_ok h
      rw [hr]
      exact .sequence (follows_of_items ih _ _ _ _ his)
  | mapping anchor mark es ih =>
      intro path known r h
      obtain ⟨fs, known', hfs, hr, -⟩ := exists_of_mapping_ok h
      obtain ⟨hkeys, hvalues⟩ := follows_of_entries ih _ _ _ hfs
      rw [hr]
      exact .mapping hkeys hvalues

theorem isDocument_of_document {w : Written} {known : Anchors} {r : Option Node × Anchors}
    (h : w.document source known = .ok r) (hplaced : ∀ n, r.1 = some n → n.Placed "") :
    IsDocument source w r.1 := by
  unfold document at h
  split at h
  · rename_i habsent
    cases h
    exact .absent habsent
  · rename_i hpresent
    cases hn : w.node source "" known with
    | error id =>
        rw [hn] at h
        cases h
    | ok x =>
        rw [hn] at h
        cases h
        have hroot := hplaced x.1 rfl
        obtain ⟨hpath, hbelow⟩ := (Node.placed_iff x.1 "").mp hroot
        exact .present (by simpa using hpresent) (follows_of_node w "" known x hn) hpath hbelow
          hroot

theorem isDocument_of_documents {ds : List Written} :
    ∀ (known : Anchors) (r : List (Option Node) × Anchors),
      Written.documents source known ds = .ok r →
        (∀ d ∈ r.1, ∀ n, d = some n → n.Placed "") →
          List.Forall₂ (IsDocument source) ds r.1 := by
  induction ds with
  | nil =>
      intro known r h _
      cases h
      exact .nil
  | cons w ds ih =>
      intro known r h hplaced
      obtain ⟨d, known', rest, hd, hrest, hr⟩ := exists_of_documents_ok h
      rw [hr, List.forall_mem_cons] at hplaced
      rw [hr]
      exact .cons (isDocument_of_document hd hplaced.1) (ih _ _ hrest hplaced.2)

/-! ### Aliases -/

theorem lookup_of_step_alias {b b' : Builder} {id : Nat} {mark : Mark}
    (h : b.step source (.alias id mark) = .ok b') : ∃ n, b.anchors.lookup id = some n := by
  simp only [Builder.step, Builder.copyAnchored] at h
  split at h
  · cases h
  · rename_i n hn
    exact ⟨n, hn⟩

/-- Only an alias can name an anchor in vain. -/
theorem alias_of_step_error {b : Builder} {e : Event} {id : Nat}
    (h : b.step source e = .error (.unknownAnchor id)) :
    (∃ mark, e = .alias id mark) ∧ b.anchors.lookup id = none := by
  cases e with
  | documentStart | documentEnd | sequenceStart | mappingStart => cases h
  | «alias» id' mark =>
      simp only [Builder.step, Builder.copyAnchored] at h
      split at h
      · rename_i hn
        cases h
        exact ⟨⟨mark, rfl⟩, hn⟩
      · cases h
  | scalar text style anchor isText mark =>
      simp only [Builder.step] at h
      split at h <;> cases h
  | sequenceEnd =>
      simp only [Builder.step, Builder.endSequence] at h
      split at h
      · cases h
      · split at h <;> cases h
  | mappingEnd =>
      simp only [Builder.step, Builder.endMapping] at h
      split at h
      · cases h
      · split at h <;> cases h

end

/-- **Well-nested events become the documents that they describe, unless an alias names an anchor
that no complete node has.** -/
theorem ofEvents_faithful (source : Source) (ds : List Written) :
    (∃ pre id mark post, streamEvents ds = pre ++ .alias id mark :: post ∧
      ¬ Completed source id pre ∧
        ofEvents source (streamEvents ds) = .error (.unknownAnchor id)) ∨
    ∃ st, ofEvents source (streamEvents ds) = .ok st ∧ Faithful source ds st := by
  have hbuilt := ofEvents_streamEvents source ds
  have hrun := run_documents source ds #[] []
  cases hr : Written.documents source [] ds with
  | error id =>
      rw [hr] at hbuilt hrun
      obtain ⟨pre, e, post, b, hds, hpre, he⟩ := exists_of_run_error hrun
      obtain ⟨⟨mark, rfl⟩, hlookup⟩ := alias_of_step_error he
      refine .inl ⟨pre, id, mark, post, hds, fun hcompleted => ?_, hbuilt⟩
      obtain ⟨n, hn⟩ := (exists_lookup_iff hds hpre).mpr hcompleted
      rw [hlookup] at hn
      cases hn
  | ok r =>
      rw [hr] at hbuilt hrun
      refine .inr ⟨_, hbuilt, ?_, fun hds => ?_, fun pre post hds => ?_,
        fun pre id mark post hds => ?_⟩
      · intro hds
        simp [hds]
      · have hplaced := placed_of_ofEvents hbuilt
        simp only [if_neg hds] at hplaced ⊢
        exact isDocument_of_documents [] r hr hplaced
      · rw [hds] at hrun
        obtain ⟨b, hpre, -⟩ := exists_of_run_append hrun
        exact ⟨b, hpre, frames_of_balanced hpre (balanced_of_documentEnd hds)⟩
      · rw [hds, ← List.singleton_append] at hrun
        obtain ⟨b, hpre, hrest⟩ := exists_of_run_append hrun
        obtain ⟨b', halias, -⟩ := exists_of_run_append hrest
        rw [run_singleton] at halias
        exact (exists_lookup_iff hds hpre).mp (lookup_of_step_alias halias)

end Markup

end YamlDelta
