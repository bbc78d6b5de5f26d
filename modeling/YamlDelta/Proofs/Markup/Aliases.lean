/-
What an alias stands for.

An alias is a copy of the node that its anchor was set on, at another place.  Reading the
events of that node again, where a value is expected, gives the same tree as well, for a
tree does not depend on the path at which it is read, and of the anchors only on what
those mean that were known before (`node_moved`).  So the two agree, kind and data.

There is one exception.  A scalar that is a key is not read as a value: what its anchor
remembers is its text, as a string.  The copy agrees with the scalar read as a value
exactly if that is a string too (`alias_agrees_iff`).  So an anchor on the key `42` stands
for the text `42`, and its alias differs from the number (`number_key_differs`).
-/
import YamlDelta.Proofs.Compare.Equality
import YamlDelta.Proofs.Markup.Fidelity
import YamlDelta.Proofs.Node.Resolution

namespace YamlDelta

/-! ### Scalars that are strings -/

namespace Scalar

/-- A plain scalar that is a string is its own text. -/
theorem ofPlain_of_kind {s : String} (h : (ofPlain s).kind = .string) : ofPlain s = .string s := by
  rcases ofPlain_cases s with hstring | hnone
  · exact hstring
  · cases hv : ofPlain s with
    | string t =>
        rw [hv] at hnone
        cases hnone
    | _ =>
        rw [hv] at h
        cases h

end Scalar

/-! ### One tree at two places -/

namespace Node

/-- The two nodes are the same tree, up to the paths. -/
def Moved (n m : Node) : Prop :=
  n.withPath "" = m.withPath ""

variable {n m : Node}

theorem Moved.withPath_eq (h : n.Moved m) (path : String) : n.withPath path = m.withPath path := by
  calc n.withPath path = (n.withPath "").withPath path := (withPath_withPath n "" path).symm
    _ = (m.withPath "").withPath path := by rw [h]
    _ = m.withPath path := withPath_withPath m "" path

theorem Moved.kind_eq (h : n.Moved m) : n.kind = m.kind := by
  rw [← kind_withPath n "", h, kind_withPath]

theorem flow_withPath (n : Node) (path : String) : (n.withPath path).flow = n.flow := by
  induction n using Node.induct generalizing path with
  | mapping es p ih =>
      have hes : flowEntries (entriesUnder path es) = flowEntries es := by
        induction es with
        | nil => rfl
        | cons e es ihes =>
            rw [List.forall_mem_cons] at ih
            simp only [entriesUnder, flowEntries, ih.1, ihes ih.2]
      simp only [withPath, flow, hes]
  | sequence is p ih =>
      have his : ∀ i, flowItems (itemsUnder path i is) = flowItems is := by
        induction is with
        | nil =>
            intro i
            rfl
        | cons n is ihis =>
            intro i
            rw [List.forall_mem_cons] at ih
            simp only [itemsUnder, flowItems, ih.1, ihis ih.2]
      simp only [withPath, flow, his]
  | scalar v p => rfl

theorem keyText_withPath (n : Node) (path : String) : (n.withPath path).keyText = n.keyText := by
  cases n with
  | mapping es p => exact flow_withPath (.mapping es p) path
  | sequence is p => exact flow_withPath (.sequence is p) path
  | scalar v p => cases v <;> rfl

theorem Moved.keyText_eq (h : n.Moved m) : n.keyText = m.keyText := by
  rw [← keyText_withPath n "", h, keyText_withPath]

/-- A tree holds the same data wherever it is. -/
theorem sameData_withPath (n : Node) (path : String) : SameData (n.withPath path) n := by
  induction n using Node.induct generalizing path with
  | mapping es p ih =>
      refine agree_mapping_iff.mpr fun k => ?_
      rw [withPath_lookup]
      cases hk : lookup k es with
      | none => exact .none
      | some v => exact .some (ih (k, v) (mem_of_lookup hk) _)
  | sequence is p ih =>
      refine sameData_sequence_iff.mpr fun i => ?_
      rw [getElem?_itemsUnder]
      cases hi : is[i]? with
      | none => exact .none
      | some n => exact .some (ih n (List.mem_of_getElem? hi) _)
  | scalar v p => exact .scalar (Scalar.sameContent_iff.mp v.sameContent_refl)

theorem Moved.sameData (h : n.Moved m) : SameData n m := by
  have hroot : SameData (n.withPath "") m := h ▸ sameData_withPath m ""
  exact Compare.sameData_trans (sameData_withPath n "").symm hroot

theorem sameData_mapPlace (f : Place → Place) (n : Node) : SameData (n.mapPlace f) n := by
  have hrefl : SameData n n := Agree.refl (fun _ => rfl) n
  cases n with
  | mapping es p => exact agree_mapping_iff.mpr (agree_mapping_iff.mp hrefl)
  | sequence is p => exact sameData_sequence_iff.mpr (sameData_sequence_iff.mp hrefl)
  | scalar v p => exact .scalar (Scalar.sameContent_iff.mp v.sameContent_refl)

end Node

namespace Markup

open Node (Moved SameData)
open Written

/-- Whatever an anchor meant, it means still, up to the path of the tree. -/
def Extends (known known' : Anchors) : Prop :=
  ∀ id n, known.lookup id = some n → ∃ m, known'.lookup id = some m ∧ n.Moved m

theorem Extends.note {known known' : Anchors} (h : Extends known known') {n m : Node}
    (hnm : n.Moved m) (anchor : Option Nat) :
    Extends (Markup.note anchor n known) (Markup.note anchor m known') := by
  cases anchor with
  | none => exact h
  | some id =>
      intro k x hx
      show ∃ y, List.lookup k ((id, m) :: known') = some y ∧ x.Moved y
      rw [Markup.note, List.lookup_cons] at hx
      rw [List.lookup_cons]
      cases hk : k == id with
      | true =>
          simp only [hk, Option.some.injEq] at hx
          subst hx
          exact ⟨m, rfl, hnm⟩
      | false =>
          simp only [hk] at hx
          exact h k x hx

section Reading

variable {source : Source}

theorem moved_copy {n m : Node} (h : n.Moved m) (mark : Mark) (path path' : String) :
    (copy source mark path n).Moved (copy source mark path' m) := by
  have hcopy : ∀ (n : Node) (path : String),
      (copy source mark path n).withPath "" = copy source mark "" n := by
    intro n path
    have hmoved := Node.withPath_withPath n path ""
    cases n with
    | mapping es p =>
        have hes := (Node.mapping.inj hmoved).1
        show Node.mapping (Node.entriesUnder "" (Node.entriesUnder path es)) _ = _
        rw [hes]
        rfl
    | sequence is p =>
        have his := (Node.sequence.inj hmoved).1
        show Node.sequence (Node.itemsUnder "" 0 (Node.itemsUnder path 0 is)) _ = _
        rw [his]
        rfl
    | scalar v p => rfl
  show (copy source mark path n).withPath "" = (copy source mark path' m).withPath ""
  rw [hcopy, hcopy]
  unfold copy
  rw [h]

theorem sameData_copy (mark : Mark) (path : String) (n : Node) :
    SameData (copy source mark path n) n :=
  Compare.sameData_trans (Node.sameData_mapPlace _ _) (Node.sameData_withPath n path)

theorem kind_copy (mark : Mark) (path : String) (n : Node) :
    (copy source mark path n).kind = n.kind := by
  cases n <;> rfl

/-- What is read of this tree is the same tree everywhere, as long as the anchors mean the same. -/
def Movable (source : Source) (w : Written) : Prop :=
  ∀ (path path' : String) (known known' : Anchors) (r : Node × Anchors),
    Extends known known' → w.node source path known = .ok r →
      ∃ r', w.node source path' known' = .ok r' ∧ r.1.Moved r'.1 ∧ Extends r.2 r'.2

theorem movable_key {k : Written} (hk : Movable source k) {path : String} (path' : String)
    {known known' : Anchors} {r : String × Anchors} (hknown : Extends known known')
    (h : k.key source path known = .ok r) :
    ∃ known₁, k.key source path' known' = .ok (r.1, known₁) ∧ Extends r.2 known₁ := by
  rcases key_cases h with ⟨text, style, anchor, isText, mark, rfl, rfl⟩ | ⟨hscalar, n, hn, hr⟩
  · exact ⟨_, rfl, hknown.note rfl anchor⟩
  · obtain ⟨r', hr', hmoved, hextends⟩ := hk path path' known known' _ hknown hn
    refine ⟨r'.2, ?_, hextends⟩
    rw [key_of_not_scalar hscalar, hr', hr, hmoved.keyText_eq]
    rfl

theorem movable_items {ws : List Written} (hws : ∀ w ∈ ws, Movable source w) :
    ∀ (path path' : String) (i j : Nat) (known known' : Anchors) (r : List Node × Anchors),
      Extends known known' → items source path i known ws = .ok r →
        ∃ r', items source path' j known' ws = .ok r' ∧
          (∀ k, Node.itemsUnder "" k r.1 = Node.itemsUnder "" k r'.1) ∧ Extends r.2 r'.2 := by
  induction ws with
  | nil =>
      intro path path' i j known known' r hknown h
      cases h
      exact ⟨_, rfl, fun _ => rfl, hknown⟩
  | cons w ws ih =>
      intro path path' i j known known' r hknown h
      rw [List.forall_mem_cons] at hws
      obtain ⟨n, known₁, ns, hn, hns, hr⟩ := exists_of_items_ok h
      obtain ⟨x, hx, hmoved, hextends⟩ := hws.1 _ (Path.index path' j) _ _ _ hknown hn
      obtain ⟨xs, hxs, hsame, hlast⟩ := ih hws.2 _ path' _ (j + 1) _ _ _ hextends hns
      refine ⟨(x.1 :: xs.1, xs.2), ?_, fun k => ?_, hlast⟩
      · rw [items, hx]
        show (items source path' (j + 1) x.2 ws).bind _ = _
        rw [hxs]
        rfl
      · rw [hr, Node.itemsUnder, Node.itemsUnder, hsame, hmoved.withPath_eq]

theorem movable_entries {es : List (Written × Written)}
    (hes : ∀ e ∈ es, Movable source e.1 ∧ Movable source e.2) :
    ∀ (path path' : String) (known known' : Anchors) (r : List (String × Node) × Anchors),
      Extends known known' → entries source path known es = .ok r →
        ∃ r', entries source path' known' es = .ok r' ∧
          Node.entriesUnder "" r.1 = Node.entriesUnder "" r'.1 ∧ Extends r.2 r'.2 := by
  induction es with
  | nil =>
      intro path path' known known' r hknown h
      cases h
      exact ⟨_, rfl, rfl, hknown⟩
  | cons e es ih =>
      intro path path' known known' r hknown h
      rw [List.forall_mem_cons] at hes
      obtain ⟨key, known₁, n, known₂, fs, hkey, hn, hfs, hr⟩ := exists_of_entries_ok h
      obtain ⟨known₁', hkey', hextends₁⟩ := movable_key hes.1.1 path' hknown hkey
      obtain ⟨x, hx, hmoved, hextends₂⟩ := hes.1.2 _ (Path.key path' key) _ _ _ hextends₁ hn
      obtain ⟨xs, hxs, hsame, hlast⟩ := ih hes.2 _ path' _ _ _ hextends₂ hfs
      refine ⟨((key, x.1) :: xs.1, xs.2), ?_, ?_, hlast⟩
      · rw [entries]
        show (e.1.key source path' known').bind _ = _
        rw [hkey']
        show (e.2.node source (Path.key path' key) known₁').bind _ = _
        rw [hx]
        show (entries source path' x.2 es).bind _ = _
        rw [hxs]
        rfl
      · rw [hr, Node.entriesUnder, Node.entriesUnder, hsame, hmoved.withPath_eq]

/-- **A tree is read the same way everywhere.**  It moves with the path, and the anchors need only
mean what they meant. -/
theorem node_moved : ∀ w : Written, Movable source w := by
  intro w
  induction w using Written.induct with
  | reference id mark =>
      intro path path' known known' r hknown h
      obtain ⟨n, hn, rfl⟩ := exists_of_reference_ok h
      obtain ⟨m, hm, hmoved⟩ := hknown id n hn
      refine ⟨(copy source mark path' m, known'), ?_, moved_copy hmoved mark path path', hknown⟩
      rw [node, hm]
  | scalar text style anchor isText mark =>
      intro path path' known known' r hknown h
      cases h
      have hmoved : (scalarNode source text style isText mark path).Moved
          (scalarNode source text style isText mark path') := rfl
      exact ⟨_, rfl, hmoved, hknown.note hmoved anchor⟩
  | sequence anchor mark ws ih =>
      intro path path' known known' r hknown h
      obtain ⟨is, known₁, his, hr, hknown₁⟩ := exists_of_sequence_ok h
      obtain ⟨js, hjs, hsame, hextends⟩ := movable_items ih _ path' _ 0 _ _ _ hknown his
      have hmoved : r.1.Moved (.sequence js.1 (placeAt source mark "" path')) := by
        rw [hr]
        show Node.sequence (Node.itemsUnder "" 0 is) _ = Node.sequence (Node.itemsUnder "" 0 js.1) _
        rw [hsame]
        rfl
      refine ⟨_, node_sequence hjs, hmoved, ?_⟩
      rw [hknown₁]
      exact hextends.note hmoved anchor
  | mapping anchor mark es ih =>
      intro path path' known known' r hknown h
      obtain ⟨fs, known₁, hfs, hr, hknown₁⟩ := exists_of_mapping_ok h
      obtain ⟨gs, hgs, hsame, hextends⟩ := movable_entries ih _ path' _ _ _ hknown hfs
      have hmoved : r.1.Moved (.mapping gs.1 (placeAt source mark "" path')) := by
        rw [hr]
        show Node.mapping (Node.entriesUnder "" fs) _ = Node.mapping (Node.entriesUnder "" gs.1) _
        rw [hsame]
        rfl
      refine ⟨_, node_mapping hgs, hmoved, ?_⟩
      rw [hknown₁]
      exact hextends.note hmoved anchor

end Reading

/-! ### Aliases -/

section

variable {source : Source}

/-- A scalar that is a string is its own text. -/
theorem scalarNode_of_kind {text : String} {style : Style} {isText : Bool} {mark : Mark}
    {path : String} (h : (scalarNode source text style isText mark path).kind = .string) :
    ∃ p, scalarNode source text style isText mark path = .scalar (.string text) p := by
  have hvalue : ∀ absent, (Builder.scalarValue text style isText absent).1.kind = .string →
      (Builder.scalarValue text style isText absent).1 = .string text := by
    intro absent hkind
    unfold Builder.scalarValue at hkind ⊢
    cases style with
    | literal | folded => cases hkind
    | singleQuoted | doubleQuoted => rfl
    | plain =>
        cases isText with
        | true => rfl
        | false =>
            cases absent with
            | true => cases hkind
            | false => exact Scalar.ofPlain_of_kind hkind
  unfold scalarNode
  dsimp only
  rw [hvalue _ h]
  exact ⟨_, rfl⟩

/-- A copy of a tree has the kind and the data of the tree at any other place. -/
theorem copy_agrees {x n : Node} (h : x.Moved n) (mark : Mark) (path : String) :
    (copy source mark path x).kind = n.kind ∧
      Compare.nodes .positional (copy source mark path x) n = [] := by
  constructor
  · rw [kind_copy, h.kind_eq]
  · rw [Compare.positional_eq_nil_iff]
    exact Compare.sameData_trans (sameData_copy mark path x) h.sameData

/-- A copy of a key has the kind and the data of the scalar exactly if that is a string. -/
theorem copy_key_agrees_iff (text : String) (style : Style) (isText : Bool) (mark mark' : Mark)
    (path path' : String) :
    ((copy source mark path (.ofScalar (.string text) 0 "")).kind =
        (scalarNode source text style isText mark' path').kind ∧
      Compare.nodes .positional (copy source mark path (.ofScalar (.string text) 0 ""))
        (scalarNode source text style isText mark' path') = []) ↔
      (scalarNode source text style isText mark' path').kind = .string := by
  constructor
  · rintro ⟨hkind, -⟩
    rw [← hkind]
    rfl
  · intro hstring
    obtain ⟨p, hp⟩ := scalarNode_of_kind hstring
    rw [hp]
    exact ⟨rfl, Compare.nodes_of_sameScalar (Scalar.sameContent_refl (.string text))⟩

/-- **An alias agrees with the node that its anchor was set on, unless that is a key.**  Whatever
is read of the events of that node has the kind and the data of the alias, wherever a value is
expected and the anchors still mean what they meant.  Only if the anchor was set on a scalar that
is a key, the scalar has to be a string for that. -/
theorem alias_agrees_iff {ds : List Written} {st : Stream} {pre post : List Event} {id : Nat}
    {mark : Mark} (hds : streamEvents ds = pre ++ .alias id mark :: post)
    (hst : ofEvents source (streamEvents ds) = .ok st) :
    (∃ a w c, LastCompleted source id pre a w c) ∧
      ∀ a w c, LastCompleted source id pre a w c →
        ∃ b₀ b m, run source .empty a = .ok b₀ ∧ run source .empty pre = .ok b ∧
          b.step source (.alias id mark) = .ok (b.attach m) ∧
          ∀ v, Fits source v w → Extends b₀.anchors v.anchors →
            ∃ n known, run source v w.events = .ok ({ v with anchors := known }.attach n) ∧
              ((m.kind = n.kind ∧ Compare.nodes .positional m n = []) ↔
                (b₀.atKey = true → w.isScalar = true → n.kind = .string)) := by
  obtain ⟨last, hrun, -⟩ := exists_of_bind_ok hst
  have hall : run source .empty (streamEvents ds) = .ok last := hrun
  rw [hds] at hall
  obtain ⟨b, hpre, halias⟩ := exists_of_run_append hall
  rw [← List.singleton_append] at halias
  obtain ⟨b', halias, -⟩ := exists_of_run_append halias
  rw [run_singleton] at halias
  refine ⟨exists_lastCompleted ((exists_lookup_iff hds hpre).mp (lookup_of_step_alias halias)), ?_⟩
  rintro a w c ⟨rfl, hw, hpresent, hlast⟩
  obtain ⟨b₁, htree, hc⟩ := exists_of_run_append hpre
  obtain ⟨b₀, ha, hevents⟩ := exists_of_run_append htree
  obtain ⟨x, hx, hcases⟩ := lookup_of_run_events hw (present_of_run ha hpresent) hevents
  have hlookup : b.anchors.lookup id = some x := by
    rw [lookup_of_run htree hds hc hlast, hx]
  refine ⟨b₀, b, copy source mark b.nextPath x, ha, hpre, ?_, fun v hv hknown => ?_⟩
  · simp only [Builder.step, Builder.copyAnchored, hlookup]
    rfl
  · rw [run_events source w v hv]
    rcases hcases with ⟨hfits, known, hnode⟩ | ⟨hkey, text, style, isText, mark', rfl, rfl⟩
    · -- the node is read as a value, there as here
      obtain ⟨r, hr, hmoved, -⟩ := node_moved w _ v.nextPath _ _ _ hknown hnode
      refine ⟨r.1, r.2, by rw [hr]; rfl, fun _ hkey hscalar => ?_, fun _ => ?_⟩
      · rw [hfits.value hkey] at hscalar
        cases hscalar
      · exact copy_agrees hmoved mark b.nextPath
    · -- the anchor remembers a key, which is a string whatever the scalar is
      refine ⟨scalarNode source text style isText mark' v.nextPath, _, rfl, ?_⟩
      rw [copy_key_agrees_iff]
      exact ⟨fun hstring _ _ => hstring, fun hstring => hstring hkey rfl⟩

end

/-- The key of `{&1 42: *1}`. -/
def Written.numberKey : Written :=
  .scalar "42" .plain (some 1) false .start

theorem alias_agrees_iff_of_number_key :
    ∃ b₀ b m n known, run ⟨#[], [0]⟩ .empty [.documentStart, .mappingStart none .start] = .ok b₀ ∧
      run ⟨#[], [0]⟩ .empty
        ([.documentStart, .mappingStart none .start] ++ Written.numberKey.events) = .ok b ∧
      b.step ⟨#[], [0]⟩ (.alias 1 .start) = .ok (b.attach m) ∧
      run ⟨#[], [0]⟩ (Builder.empty.start ⟨#[], [0]⟩ none .start (.items #[]))
        Written.numberKey.events =
          .ok ({ Builder.empty.start ⟨#[], [0]⟩ none .start (.items #[]) with
            anchors := known }.attach n) ∧
      ((m.kind = n.kind ∧ Compare.nodes .positional m n = []) ↔
        (b₀.atKey = true → Written.numberKey.isScalar = true → n.kind = .string)) := by
  have hds : streamEvents [.mapping none .start [(.numberKey, .reference 1 .start)]] =
      ([.documentStart, .mappingStart none .start] ++ Written.numberKey.events) ++
        .alias 1 .start :: [.mappingEnd, .documentEnd] := rfl
  obtain ⟨st, hst⟩ : ∃ st, ofEvents ⟨#[], [0]⟩
    (streamEvents [.mapping none .start [(.numberKey, .reference 1 .start)]]) = .ok st := ⟨_, rfl⟩
  obtain ⟨-, hlast⟩ := alias_agrees_iff hds hst
  obtain ⟨b₀, b, m, ha, hb, hm, hv⟩ := hlast _ _ [] ⟨(List.append_nil _).symm, rfl,
    (fun h => by cases h), fun q hq _ => List.prefix_nil.mp hq⟩
  cases ha
  obtain ⟨n, known, hn, hiff⟩ := hv (Builder.empty.start ⟨#[], [0]⟩ none .start (.items #[]))
    (.part rfl rfl) fun _ _ h => by cases h
  exact ⟨_, b, m, n, known, rfl, hb, hm, hn, hiff⟩

end Markup

/-- The alias to the key `42` is no number. -/
theorem number_key_differs :
    ∃ left right l r, Stream.ofText "&a 42: x\nb: *a\n" = .ok left ∧
      Stream.ofText "42: x\nb: 42\n" = .ok right ∧
      left.document 0 = some l ∧ right.document 0 = some r ∧
      (l.get? "b").map Node.kind = some .string ∧ (r.get? "b").map Node.kind = some .integer ∧
      Compare.nodes .positional l r ≠ [] := by
  obtain ⟨left, right, l, r, hleft, hright, hl, hr, htest⟩ :=
    Stream.exists_of_firstDocuments "&a 42: x\nb: *a\n" "42: x\nb: 42\n"
      (fun _ _ l r => decide ((l.get? "b").map Node.kind = some .string) &&
        decide ((r.get? "b").map Node.kind = some .integer) &&
        !(Compare.nodes .positional l r).isEmpty)
      (by decide +kernel)
  simp only [Bool.and_eq_true, decide_eq_true_eq, Bool.not_eq_true', List.isEmpty_eq_false_iff]
    at htest
  exact ⟨left, right, l, r, hleft, hright, hl, hr, htest.1.1, htest.1.2, htest.2⟩

end YamlDelta
