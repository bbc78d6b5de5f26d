/-
What the reader makes are the events of trees.

The reader keeps a stack of expectations, and every step replaces the topmost by others.  Each
expectation stands for events that are still to come: a node for those of a tree, a key for those
of the remaining entries and the end of their mapping, the end of a document for that and the
documents after it.  A step makes the first of these events, and what it expects afterwards stands
for the others (`replaces_step`).  So the events of a text, as far as they are made, are those of
trees (`exists_streamEvents`), whatever the text is.
-/
import YamlDelta.Markup.Read
import YamlDelta.Proofs.Markup.Emission
import YamlDelta.Proofs.Markup.Reading

namespace YamlDelta.Markup

open Written

/-! ### What is still to come -/

/-- The events of a node. -/
def IsNode (es : List Event) : Prop :=
  ∃ w : Written, es = w.events

/-- The events of items and of the end of their sequence. -/
def RestOfItems (es : List Event) : Prop :=
  ∃ ws, es = eventsItems ws ++ [.sequenceEnd]

/-- The events of entries and of the end of their mapping. -/
def RestOfEntries (es : List Event) : Prop :=
  ∃ ps, es = eventsEntries ps ++ [.mappingEnd]

/-- The events of a node, and others after them. -/
def NodeThen (P : List Event → Prop) (es : List Event) : Prop :=
  ∃ (w : Written) (fs : List Event), P fs ∧ es = w.events ++ fs

/-- The end of a mapping of one pair, and the items after it. -/
def RestOfPair (es : List Event) : Prop :=
  ∃ fs, RestOfItems fs ∧ es = .mappingEnd :: fs

/-- The events of whole documents. -/
def RestOfStream (es : List Event) : Prop :=
  ∃ ds, es = streamEvents ds

/-- The events that an expectation stands for. -/
def Expectation.Fulfilled : Expectation → List Event → Prop
  | .implicitDocument | .document => RestOfStream
  | .content | .blockNode => IsNode
  | .documentEnd => fun es => ∃ fs, RestOfStream fs ∧ es = .documentEnd :: fs
  | .blockKey _ | .flowKey _ => RestOfEntries
  | .blockValue | .flowValue | .flowNoValue => NodeThen RestOfEntries
  | .blockEntry _ | .indentlessEntry | .flowEntry _ => RestOfItems
  | .pairKey => NodeThen (NodeThen RestOfPair)
  | .pairValue => NodeThen RestOfPair
  | .pairEnd => RestOfPair

/-- The events that the expectations stand for together, the topmost first. -/
def Remaining : List Expectation → List Event → Prop
  | [], es => es = []
  | x :: E, es => ∃ xs ys, x.Fulfilled xs ∧ Remaining E ys ∧ es = xs ++ ys

/-- What is expected inside a document. -/
def Expectation.inside : Expectation → Bool
  | .implicitDocument | .document | .documentEnd => false
  | _ => true

section Rest

variable {P : List Event → Prop} {es fs : List Event} {E F : List Expectation} {x : Expectation}
  (w : Written)

theorem nodeThen_cons (h : P es) : NodeThen P (w.events ++ es) :=
  ⟨w, es, h, rfl⟩

theorem restOfItems_cons (h : RestOfItems es) : RestOfItems (w.events ++ es) := by
  obtain ⟨ws, rfl⟩ := h
  exact ⟨w :: ws, by rw [eventsItems, List.append_assoc]⟩

theorem restOfEntries_cons (h : NodeThen RestOfEntries es) : RestOfEntries (w.events ++ es) := by
  obtain ⟨v, _, ⟨ps, rfl⟩, rfl⟩ := h
  exact ⟨(w, v) :: ps, by rw [eventsEntries, List.append_assoc, List.append_assoc]⟩

theorem restOfItems_nil : RestOfItems [.sequenceEnd] := ⟨[], rfl⟩

theorem restOfEntries_nil : RestOfEntries [.mappingEnd] := ⟨[], rfl⟩

/-- A mapping of one pair is an item. -/
theorem restOfItems_pair (m : Mark) (h : NodeThen (NodeThen RestOfPair) es) :
    RestOfItems (.mappingStart none m :: es) := by
  obtain ⟨k, _, ⟨v, _, ⟨_, ⟨ws, rfl⟩, rfl⟩, rfl⟩, rfl⟩ := h
  exact ⟨.mapping none m [(k, v)] :: ws, by simp [eventsItems, eventsEntries, Written.events]⟩

theorem isNode_sequence (anchor : Option Nat) (m : Mark) (h : RestOfItems es) :
    IsNode (.sequenceStart anchor m :: es) := by
  obtain ⟨ws, rfl⟩ := h
  exact ⟨.sequence anchor m ws, rfl⟩

theorem isNode_mapping (anchor : Option Nat) (m : Mark) (h : RestOfEntries es) :
    IsNode (.mappingStart anchor m :: es) := by
  obtain ⟨ps, rfl⟩ := h
  exact ⟨.mapping anchor m ps, rfl⟩

theorem exists_of_remaining_append (h : Remaining (E ++ F) es) :
    ∃ xs ys, Remaining E xs ∧ Remaining F ys ∧ es = xs ++ ys := by
  induction E generalizing es with
  | nil => exact ⟨[], es, rfl, h, rfl⟩
  | cons x E ih =>
      obtain ⟨xs, _, hx, hys, rfl⟩ := h
      obtain ⟨us, vs, hus, hvs, rfl⟩ := ih hys
      exact ⟨xs ++ us, vs, ⟨xs, us, hx, hus, rfl⟩, hvs, (List.append_assoc ..).symm⟩

theorem remaining_singleton : Remaining [x] es ↔ x.Fulfilled es := by
  refine ⟨?_, fun h => ⟨es, [], h, rfl, (List.append_nil es).symm⟩⟩
  rintro ⟨xs, ys, hx, rfl, rfl⟩
  rwa [List.append_nil]

/-- Every expectation can be fulfilled. -/
theorem exists_remaining (E : List Expectation) : ∃ es, Remaining E es := by
  have hnode : IsNode [.absent .empty .start] := ⟨.scalar "" .plain none false .start, rfl⟩
  have hvalue {P : List Event → Prop} (h : ∃ es, P es) : ∃ es, NodeThen P es :=
    let ⟨_, hes⟩ := h
    ⟨_, nodeThen_cons (.scalar "" .plain none false .start) hes⟩
  have hpair : ∃ es, RestOfPair es := ⟨_, _, restOfItems_nil, rfl⟩
  have hone (x : Expectation) : ∃ es, x.Fulfilled es := by
    cases x with
    | implicitDocument | document => exact ⟨_, [], rfl⟩
    | documentEnd => exact ⟨_, _, ⟨[], rfl⟩, rfl⟩
    | content | blockNode => exact ⟨_, hnode⟩
    | blockKey | flowKey => exact ⟨_, restOfEntries_nil⟩
    | blockValue | flowValue | flowNoValue => exact hvalue ⟨_, restOfEntries_nil⟩
    | blockEntry | indentlessEntry | flowEntry => exact ⟨_, restOfItems_nil⟩
    | pairKey => exact hvalue (hvalue hpair)
    | pairValue => exact hvalue hpair
    | pairEnd => exact hpair
  induction E with
  | nil => exact ⟨[], rfl⟩
  | cons x E ih =>
      obtain ⟨xs, hxs⟩ := hone x
      obtain ⟨ys, hys⟩ := ih
      exact ⟨xs ++ ys, xs, ys, hxs, hys, rfl⟩

end Rest

namespace Reader

/-! ### Nodes -/

/-- An event is made in place of an expectation inside a document: the first of those that it stands
for, and what is expected instead stands for the others. -/
def Replaces (x : Expectation) (E : List Expectation) (e : Event) (r : Reader) : Prop :=
  ∃ E₁, r.expected = E₁ ++ E ∧ (∀ y ∈ E₁, y.inside = true) ∧
    ∀ es, Remaining E₁ es → x.Fulfilled (e :: es)

/-- A node comes in place of the first expectation, and the second is left. -/
def Precedes (x y : Expectation) : Prop :=
  y.inside = true ∧ ∀ (w : Written) (es : List Event),
    y.Fulfilled es → x.Fulfilled (w.events ++ es)

variable {r s : Reader} {E : List Expectation} {x y : Expectation} {e : Event} {t : Token}
  {block indentless : Bool}

/-- What is expected is complete. -/
theorem replaces_complete (hr : r.expected = x :: E) (hs : s.expected = r.expected.drop 1)
    (he : x.Fulfilled [e]) : Replaces x E e s := by
  refine ⟨[], by rw [hs, hr]; rfl, nofun, ?_⟩
  rintro es rfl
  exact he

/-- Something else is expected afterwards. -/
theorem replaces_expect (hr : r.expected = x :: E) (hs : s.expected = y :: r.expected.drop 1)
    (hy : y.inside = true)
    (he : ∀ es, y.Fulfilled es → x.Fulfilled (e :: es)) : Replaces x E e s := by
  refine ⟨[y], by rw [hs, hr]; rfl, List.forall_mem_singleton.mpr hy, fun es hes => ?_⟩
  exact he es (remaining_singleton.mp hes)

/-- A node is left out. -/
theorem replaces_absent (hr : r.expected = x :: E) (hx : Precedes x y)
    (h : (r.expect y).absent t = .ok (e, s)) : Replaces x E e s := by
  cases h
  exact replaces_expect hr rfl hx.1 fun es hes => hx.2 (.scalar _ .plain none false t.mark) es hes

theorem expected_properties {p : Properties} (h : r.properties = .ok (p, s)) :
    s.expected = r.expected := by
  unfold properties at h
  obtain ⟨t, -, h⟩ := exists_of_bind_ok h
  split at h
  · obtain ⟨u, -, h⟩ := exists_of_bind_ok h
    split at h
    · obtain ⟨isText, -, h⟩ := exists_of_bind_ok h
      cases h
      rfl
    · cases h
      rfl
  · obtain ⟨isText, -, h⟩ := exists_of_bind_ok h
    obtain ⟨u, -, h⟩ := exists_of_bind_ok h
    split at h
    · cases h
      rfl
    · cases h
      rfl
  · cases h
    rfl

/-- A node is a leaf, or a collection that begins. -/
theorem replaces_nodeContent {p : Properties} (hr : r.expected = x :: E)
    (h : r.nodeContent block indentless p = .ok (e, s)) : Replaces .blockNode E e s := by
  have hr' : ({ r with expected := .blockNode :: E } : Reader).expected = .blockNode :: E := rfl
  have hdrop : r.expected.drop 1 = E := by rw [hr]; rfl
  obtain ⟨t, -, h⟩ := exists_of_bind_ok h
  dsimp only at h
  split at h
  all_goals
    repeat' split at h
    all_goals cases h
  all_goals first
    | exact replaces_complete hr' hdrop ⟨.scalar .., rfl⟩
    | exact replaces_expect (y := .indentlessEntry) hr' (congrArg _ hdrop) rfl
        fun es => isNode_sequence _ _
    | exact replaces_expect (y := .blockEntry true) hr' (congrArg _ hdrop) rfl
        fun es => isNode_sequence _ _
    | exact replaces_expect (y := .flowEntry true) hr' (congrArg _ hdrop) rfl
        fun es => isNode_sequence _ _
    | exact replaces_expect (y := .blockKey true) hr' (congrArg _ hdrop) rfl
        fun es => isNode_mapping _ _
    | exact replaces_expect (y := .flowKey true) hr' (congrArg _ hdrop) rfl
        fun es => isNode_mapping _ _

theorem replaces_node (hr : r.expected = x :: E) (h : r.node block indentless = .ok (e, s)) :
    Replaces .blockNode E e s := by
  obtain ⟨t, -, h⟩ := exists_of_bind_ok h
  split at h
  · split at h
    · rename_i id _
      cases h
      exact ⟨[], by show r.expected.drop 1 = _; rw [hr]; rfl, nofun, by
        rintro es rfl
        exact ⟨.reference id t.mark, rfl⟩⟩
    · cases h
  · obtain ⟨⟨p, q⟩, hq, h⟩ := exists_of_bind_ok h
    exact replaces_nodeContent ((expected_properties hq).trans hr) h

/-- A node, and what is expected after it. -/
theorem replaces_nodeThen (hr : r.expected = x :: E) (hx : Precedes x y)
    (h : r.nodeThen y block indentless = .ok (e, s)) : Replaces x E e s := by
  have hE : (r.expect y).expected = y :: E := by
    show y :: r.expected.drop 1 = _
    rw [hr]
    rfl
  obtain ⟨E₁, hs, hinside, hes⟩ := replaces_node
    (r := { r.expect y with expected := .blockNode :: (r.expect y).expected }) rfl h
  refine ⟨E₁ ++ [y], ?_, ?_, fun es h => ?_⟩
  · rw [hs, hE, List.append_assoc]
    rfl
  · exact fun z hz => (List.mem_append.mp hz).elim (hinside z)
      fun hz => by rw [List.mem_singleton.mp hz, hx.1]
  · obtain ⟨xs, ys, hxs, hys, rfl⟩ := exists_of_remaining_append h
    obtain ⟨w, hw⟩ := hes xs hxs
    rw [← List.cons_append, hw]
    exact hx.2 w ys (remaining_singleton.mp hys)

/-! ### Block collections -/

theorem replaces_blockPart (hr : r.expected = x :: E) (hx : Precedes x y)
    (h : r.blockPart y = .ok (e, s)) : Replaces x E e s := by
  obtain ⟨t, -, h⟩ := exists_of_bind_ok h
  split at h
  · exact replaces_absent hr hx h
  · exact replaces_absent hr hx h
  · exact replaces_absent hr hx h
  · exact replaces_nodeThen hr hx h

theorem replaces_blockKey {first : Bool} (hr : r.expected = .blockKey first :: E)
    (h : r.blockKey first = .ok (e, s)) : Replaces (.blockKey first) E e s := by
  have hx : Precedes (.blockKey first) .blockValue := ⟨rfl, fun w _ => restOfEntries_cons w⟩
  unfold blockKey at h
  generalize hq : (if first then r.pass else r) = q at h
  have hr' : q.expected = .blockKey first :: E := by
    rw [← hq]
    cases first <;> exact hr
  obtain ⟨t, -, h⟩ := exists_of_bind_ok h
  split at h
  · exact replaces_blockPart (r := q.pass) hr' hx h
  · exact replaces_absent hr' hx h
  · cases h
    exact replaces_complete hr' rfl restOfEntries_nil
  · cases h

theorem replaces_blockValue (hr : r.expected = .blockValue :: E)
    (h : r.blockValue = .ok (e, s)) : Replaces .blockValue E e s := by
  have hx : Precedes .blockValue (.blockKey false) := ⟨rfl, fun w _ => nodeThen_cons w⟩
  obtain ⟨t, -, h⟩ := exists_of_bind_ok h
  split at h
  · exact replaces_blockPart (r := r.pass) hr hx h
  · exact replaces_absent hr hx h

theorem replaces_blockEntry {first : Bool} (hr : r.expected = .blockEntry first :: E)
    (h : r.blockEntry first = .ok (e, s)) : Replaces (.blockEntry first) E e s := by
  have hx : Precedes (.blockEntry first) (.blockEntry false) := ⟨rfl, fun w _ => restOfItems_cons w⟩
  unfold blockEntry at h
  generalize hq : (if first then r.pass else r) = q at h
  have hr' : q.expected = .blockEntry first :: E := by
    rw [← hq]
    cases first <;> exact hr
  obtain ⟨t, -, h⟩ := exists_of_bind_ok h
  split at h
  · cases h
    exact replaces_complete hr' rfl restOfItems_nil
  · obtain ⟨u, -, h⟩ := exists_of_bind_ok h
    split at h
    · exact replaces_absent (r := q.pass) hr' hx h
    · exact replaces_absent (r := q.pass) hr' hx h
    · exact replaces_nodeThen (r := q.pass) hr' hx h
  · cases h

theorem replaces_indentlessEntry (hr : r.expected = .indentlessEntry :: E)
    (h : r.indentlessEntry = .ok (e, s)) : Replaces .indentlessEntry E e s := by
  have hx : Precedes .indentlessEntry .indentlessEntry := ⟨rfl, fun w _ => restOfItems_cons w⟩
  obtain ⟨t, -, h⟩ := exists_of_bind_ok h
  split at h
  · obtain ⟨u, -, h⟩ := exists_of_bind_ok h
    split at h
    case h_5 => exact replaces_nodeThen (r := r.pass) hr hx h
    all_goals exact replaces_absent (r := r.pass) hr hx h
  · cases h
    exact replaces_complete hr rfl restOfItems_nil

/-! ### Flow collections -/

theorem replaces_flowItem {first : Bool} (hr : r.expected = .flowEntry first :: E)
    (h : r.flowItem = .ok (e, s)) : Replaces (.flowEntry first) E e s := by
  obtain ⟨t, -, h⟩ := exists_of_bind_ok h
  split at h
  · cases h
    exact replaces_complete hr rfl restOfItems_nil
  · cases h
    exact replaces_expect (y := .pairKey) hr rfl rfl fun es => restOfItems_pair _
  · exact replaces_nodeThen (y := .flowEntry false) hr ⟨rfl, fun w _ => restOfItems_cons w⟩ h

theorem replaces_flowEntry {first : Bool} (hr : r.expected = .flowEntry first :: E)
    (h : r.flowEntry first = .ok (e, s)) : Replaces (.flowEntry first) E e s := by
  unfold flowEntry at h
  split at h
  · exact replaces_flowItem (r := r.pass) hr h
  · obtain ⟨t, -, h⟩ := exists_of_bind_ok h
    split at h
    · cases h
      exact replaces_complete hr rfl restOfItems_nil
    · exact replaces_flowItem (r := r.pass) hr h
    · cases h

theorem replaces_pairKey (hr : r.expected = .pairKey :: E) (h : r.pairKey = .ok (e, s)) :
    Replaces .pairKey E e s := by
  have hx : Precedes .pairKey .pairValue := ⟨rfl, fun w _ => nodeThen_cons w⟩
  obtain ⟨t, -, h⟩ := exists_of_bind_ok h
  split at h
  case h_4 => exact replaces_nodeThen hr hx h
  all_goals exact replaces_absent (r := r.pass) hr hx h

theorem replaces_pairValue (hr : r.expected = .pairValue :: E) (h : r.pairValue = .ok (e, s)) :
    Replaces .pairValue E e s := by
  have hx : Precedes .pairValue .pairEnd := ⟨rfl, fun w _ => nodeThen_cons w⟩
  obtain ⟨t, -, h⟩ := exists_of_bind_ok h
  split at h
  · obtain ⟨u, -, h⟩ := exists_of_bind_ok h
    split at h
    case h_3 => exact replaces_nodeThen (r := r.pass) hr hx h
    all_goals exact replaces_absent (r := r.pass) hr hx h
  · exact replaces_absent hr hx h

theorem replaces_pairEnd (hr : r.expected = .pairEnd :: E) (h : r.pairEnd = .ok (e, s)) :
    Replaces .pairEnd E e s := by
  cases h
  exact replaces_expect (y := .flowEntry false) hr rfl rfl fun es hes => ⟨es, hes, rfl⟩

theorem replaces_flowPair {first : Bool} (hr : r.expected = .flowKey first :: E)
    (h : r.flowPair = .ok (e, s)) : Replaces (.flowKey first) E e s := by
  have hx : Precedes (.flowKey first) .flowValue := ⟨rfl, fun w _ => restOfEntries_cons w⟩
  obtain ⟨t, -, h⟩ := exists_of_bind_ok h
  split at h
  · obtain ⟨u, -, h⟩ := exists_of_bind_ok h
    split at h
    case h_4 => exact replaces_nodeThen (r := r.pass) hr hx h
    all_goals exact replaces_absent (r := r.pass) hr hx h
  · exact replaces_absent hr hx h
  · cases h
    exact replaces_complete hr rfl restOfEntries_nil
  · exact replaces_nodeThen (y := .flowNoValue) hr ⟨rfl, fun w _ => restOfEntries_cons w⟩ h

theorem replaces_flowKey {first : Bool} (hr : r.expected = .flowKey first :: E)
    (h : r.flowKey first = .ok (e, s)) : Replaces (.flowKey first) E e s := by
  unfold flowKey at h
  split at h
  · exact replaces_flowPair (r := r.pass) hr h
  · obtain ⟨t, -, h⟩ := exists_of_bind_ok h
    split at h
    · cases h
      exact replaces_complete hr rfl restOfEntries_nil
    · exact replaces_flowPair (r := r.pass) hr h
    · cases h

theorem replaces_flowValue (hr : r.expected = .flowValue :: E) (h : r.flowValue = .ok (e, s)) :
    Replaces .flowValue E e s := by
  have hx : Precedes .flowValue (.flowKey false) := ⟨rfl, fun w _ => nodeThen_cons w⟩
  obtain ⟨t, -, h⟩ := exists_of_bind_ok h
  split at h
  · obtain ⟨u, -, h⟩ := exists_of_bind_ok h
    split at h
    case h_3 => exact replaces_nodeThen (r := r.pass) hr hx h
    all_goals exact replaces_absent (r := r.pass) hr hx h
  · exact replaces_absent hr hx h

theorem replaces_flowNoValue (hr : r.expected = .flowNoValue :: E)
    (h : r.flowNoValue = .ok (e, s)) : Replaces .flowNoValue E e s := by
  obtain ⟨t, -, h⟩ := exists_of_bind_ok h
  exact replaces_absent (y := .flowKey false) hr ⟨rfl, fun w _ => nodeThen_cons w⟩ h

theorem replaces_documentContent (hr : r.expected = .content :: E)
    (h : r.documentContent = .ok (e, s)) : Replaces .content E e s := by
  obtain ⟨t, -, h⟩ := exists_of_bind_ok h
  split at h
  case h_6 => exact replaces_node hr h
  all_goals
    cases h
    exact replaces_complete hr rfl ⟨.scalar _ .plain none false t.mark, rfl⟩

/-! ### Steps -/

theorem exists_of_some' {result : Result} {o : Option Event}
    (h : step.some' result = .ok (o, s)) : ∃ e, o = some e ∧ result = .ok (e, s) := by
  cases result with
  | error f => cases h
  | ok p =>
      cases h
      exact ⟨_, rfl, rfl⟩

/-- **Inside a document every step makes the first of the events to come.** -/
theorem replaces_step {o : Option Event} (hr : r.expected = x :: E) (hx : x.inside = true)
    (h : r.step x = .ok (o, s)) : ∃ e, o = some e ∧ Replaces x E e s := by
  cases x with
  | implicitDocument | document | documentEnd => cases hx
  | content => exact (exists_of_some' h).imp fun e => .imp_right (replaces_documentContent hr)
  | blockNode => exact (exists_of_some' h).imp fun e => .imp_right (replaces_node hr)
  | blockKey => exact (exists_of_some' h).imp fun e => .imp_right (replaces_blockKey hr)
  | blockValue => exact (exists_of_some' h).imp fun e => .imp_right (replaces_blockValue hr)
  | blockEntry => exact (exists_of_some' h).imp fun e => .imp_right (replaces_blockEntry hr)
  | indentlessEntry =>
      exact (exists_of_some' h).imp fun e => .imp_right (replaces_indentlessEntry hr)
  | flowEntry => exact (exists_of_some' h).imp fun e => .imp_right (replaces_flowEntry hr)
  | flowKey => exact (exists_of_some' h).imp fun e => .imp_right (replaces_flowKey hr)
  | flowValue => exact (exists_of_some' h).imp fun e => .imp_right (replaces_flowValue hr)
  | flowNoValue => exact (exists_of_some' h).imp fun e => .imp_right (replaces_flowNoValue hr)
  | pairKey => exact (exists_of_some' h).imp fun e => .imp_right (replaces_pairKey hr)
  | pairValue => exact (exists_of_some' h).imp fun e => .imp_right (replaces_pairValue hr)
  | pairEnd => exact (exists_of_some' h).imp fun e => .imp_right (replaces_pairEnd hr)

/-! ### Documents -/

/-- Expectations inside a document lie above its end, and a stream goes on below. -/
inductive Stacked : List Expectation → Prop
  | ended : Stacked []
  | stream {x : Expectation} (hx : x = .implicitDocument ∨ x = .document) : Stacked [x]
  | document {E : List Expectation} (hE : ∀ x ∈ E, x.inside = true) :
      Stacked (E ++ [.documentEnd])

theorem expected_directives {ts : List Token} {versioned : Bool}
    (h : r.directives ts versioned = .ok s) : s.expected = r.expected := by
  induction ts generalizing r versioned with
  | nil => cases h
  | cons t ts ih =>
      rw [directives] at h
      split at h
      · split at h
        · cases h
        · exact (ih h :)
      · exact (ih h :)
      · cases h
        rfl

/-- A document begins, whose content is expected. -/
theorem expected_explicitDocument (hr : r.expected = [x]) (h : r.explicitDocument = .ok (e, s)) :
    e = .documentStart ∧ s.expected = [.content, .documentEnd] := by
  obtain ⟨q, hq, h⟩ := exists_of_bind_ok h
  have hq' : q.expected = [x] := (expected_directives hq).trans hr
  obtain ⟨t, -, h⟩ := exists_of_bind_ok h
  split at h
  · cases h
    refine ⟨rfl, ?_⟩
    show .content :: .documentEnd :: q.expected.drop 1 = _
    rw [hq']
    rfl
  · cases h

/-- The stream ends, or a document begins. -/
theorem nextDocument_cases {implicit : Bool} {o : Option Event} (hr : r.expected = [x])
    (h : r.nextDocument implicit = .ok (o, s)) :
    (o = none ∧ s.expected = []) ∨
      o = some .documentStart ∧ ∃ y, y.Fulfilled = IsNode ∧ y.inside = true ∧
        s.expected = [y, .documentEnd] := by
  have hexplicit : ∀ {o}, r.passDocumentEnds.explicitDocument.bind
      (fun p => Except.ok (some p.1, p.2)) = .ok (o, s) → o = some .documentStart ∧ ∃ y,
        y.Fulfilled = IsNode ∧ y.inside = true ∧ s.expected = [y, .documentEnd] := by
    intro o h
    obtain ⟨⟨e, q⟩, hq, h⟩ := exists_of_bind_ok h
    obtain ⟨rfl, hexpected⟩ := expected_explicitDocument (r := r.passDocumentEnds) hr hq
    cases h
    exact ⟨rfl, .content, rfl, rfl, hexpected⟩
  obtain ⟨t, -, h⟩ := exists_of_bind_ok h
  split at h
  · cases h
    exact .inl ⟨rfl, rfl⟩
  · exact .inr (hexplicit h)
  · exact .inr (hexplicit h)
  · exact .inr (hexplicit h)
  · split at h
    · cases h
      refine .inr ⟨rfl, .blockNode, rfl, rfl, ?_⟩
      show .blockNode :: .documentEnd :: r.expected.drop 1 = _
      rw [hr]
      rfl
    · exact .inr (hexplicit h)

theorem expected_documentEnd (hr : r.expected = [.documentEnd])
    (h : r.documentEnd = .ok (e, s)) :
    e = .documentEnd ∧ ∃ x, (x = .implicitDocument ∨ x = .document) ∧ s.expected = [x] := by
  have hdrop : r.expected.drop 1 = [] := by rw [hr]; rfl
  obtain ⟨t, -, h⟩ := exists_of_bind_ok h
  dsimp only at h
  split at h
  · cases h
    exact ⟨rfl, _, .inl rfl, congrArg _ hdrop⟩
  · cases h
  · cases h
  · cases h
    exact ⟨rfl, _, .inr rfl, congrArg _ hdrop⟩

theorem remaining_stream {es : List Event} (hx : x = .implicitDocument ∨ x = .document)
    (h : RestOfStream es) : Remaining [x] es := by
  rcases hx with rfl | rfl
  all_goals exact remaining_singleton.mpr h

/-- Between documents a step begins one or ends the stream. -/
theorem remaining_step_stream {o : Option Event} (hr : r.expected = [x])
    (hx : x = .implicitDocument ∨ x = .document) (h : r.step x = .ok (o, s)) :
    Stacked s.expected ∧ ∀ es, Remaining s.expected es → Remaining [x] (o.toList ++ es) := by
  have hnext : ∃ implicit, r.nextDocument implicit = .ok (o, s) := by
    rcases hx with rfl | rfl
    · exact ⟨true, h⟩
    · exact ⟨false, h⟩
  obtain ⟨implicit, hnext⟩ := hnext
  rcases nextDocument_cases hr hnext with ⟨rfl, hs⟩ | ⟨rfl, z, hz, hinside, hs⟩
  · rw [hs]
    refine ⟨.ended, ?_⟩
    rintro es rfl
    exact remaining_stream hx ⟨[], rfl⟩
  · rw [hs]
    refine ⟨.document (E := [z]) (List.forall_mem_singleton.mpr hinside), ?_⟩
    rintro _ ⟨xs, _, hxs, ⟨_, _, ⟨_, ⟨ds, rfl⟩, rfl⟩, rfl, rfl⟩, rfl⟩
    rw [hz] at hxs
    obtain ⟨w, rfl⟩ := hxs
    refine remaining_stream hx ⟨w :: ds, ?_⟩
    rw [streamEvents_cons, List.append_nil]
    rfl

/-- Every step makes the first of the events to come, if it makes one. -/
theorem remaining_step {o : Option Event} (hr : r.expected = x :: E) (hE : Stacked (x :: E))
    (h : r.step x = .ok (o, s)) :
    Stacked s.expected ∧ ∀ es, Remaining s.expected es → Remaining (x :: E) (o.toList ++ es) := by
  generalize hS : x :: E = S at hE
  cases hE with
  | ended => cases hS
  | stream hy =>
      obtain ⟨rfl, rfl⟩ := List.cons.inj hS
      exact remaining_step_stream hr hy h
  | @document E' hE' =>
      cases E' with
      | nil =>
          obtain ⟨rfl, rfl⟩ := List.cons.inj hS
          obtain ⟨e, rfl, hend⟩ := exists_of_some' h
          obtain ⟨rfl, y, hy, hs⟩ := expected_documentEnd hr hend
          rw [hs]
          refine ⟨.stream hy, fun es hes => remaining_singleton.mpr ⟨es, ?_, rfl⟩⟩
          have hes' : y.Fulfilled es := remaining_singleton.mp hes
          rcases hy with rfl | rfl
          all_goals exact hes'
      | cons y E' =>
          obtain ⟨rfl, rfl⟩ := List.cons.inj hS
          rw [List.forall_mem_cons] at hE'
          obtain ⟨e, rfl, E₁, hs, hinside, hes⟩ := replaces_step hr hE'.1 h
          have hs' : s.expected = (E₁ ++ E') ++ [.documentEnd] :=
            hs.trans (List.append_assoc ..).symm
          rw [hs']
          refine ⟨.document fun z hz => (List.mem_append.mp hz).elim (hinside z) (hE'.2 z), ?_⟩
          intro es hrest
          rw [List.append_assoc] at hrest
          obtain ⟨xs, ys, hxs, hys, rfl⟩ := exists_of_remaining_append hrest
          exact ⟨e :: xs, ys, hes xs hxs, hys, rfl⟩

/-- The events that are made are the first of those to come. -/
theorem exists_remaining_of_events {fuel : Nat} {es : List Event} (hr : Stacked r.expected)
    (h : r.events fuel = .ok es) : ∃ fs, Remaining r.expected (es ++ fs) := by
  induction fuel generalizing r es with
  | zero =>
      cases h
      exact exists_remaining _
  | succ fuel ih =>
      rw [events] at h
      cases hE : r.expected with
      | nil =>
          rw [hE] at h
          cases h
          exact ⟨[], rfl⟩
      | cons x E =>
          rw [hE] at h hr
          obtain ⟨⟨o, s⟩, hs, h⟩ := exists_of_bind_ok h
          obtain ⟨rest, hrest, h⟩ := exists_of_bind_ok h
          cases h
          obtain ⟨hs', hstep⟩ := remaining_step hE hr hs
          obtain ⟨fs, hfs⟩ := ih hs' hrest
          exact ⟨fs, by rw [List.append_assoc]; exact hstep _ hfs⟩

end Reader

/-- **The events of a scan are those of trees**, whatever its tokens are. -/
theorem exists_streamEvents {scan : Scan} {omitted : Omitted} {es : List Event}
    (h : Event.ofScan scan omitted = .ok es) : ∃ ds, es <+: streamEvents ds := by
  obtain ⟨fs, hfs⟩ := Reader.exists_remaining_of_events (.stream (.inl rfl)) h
  obtain ⟨ds, hds⟩ := remaining_singleton.mp hfs
  exact ⟨ds, fs, hds⟩

end YamlDelta.Markup
