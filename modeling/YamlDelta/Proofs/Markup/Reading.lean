/-
The builder is a recursion over what is written.

The builder takes one event at a time and keeps what is unfinished on a stack.  `node`
reads the same tree by plain recursion instead: it is told the path and what the anchors
mean so far, and hands back the node and what they mean afterwards.  `run_events` says
that the builder, run over the events of a tree, does to its state what the recursion
says: the anchors are replaced, and the node is attached.  The same holds for items,
entries and keys over an open collection (`run_items`, `run_entries`, `run_key`), and the
induction goes through all of them at once.

Two things happen to a scalar that happen to no other node.  As a key it is no node at
all, only text; and as a whole document it may be missing.  That is why the statement
about a single tree has a condition, and keys have a statement of their own.

The recursion stops where an alias names an anchor that means nothing.  This is also the
only way in which the builder can fail on well-nested events.
-/
import YamlDelta.Proofs.Markup.Nesting

namespace YamlDelta.Markup

/-- What succeeds in two steps succeeds in each. -/
theorem exists_of_bind_ok {ε α β : Type} {x : Except ε α} {f : α → Except ε β} {r : β}
    (h : x.bind f = .ok r) : ∃ a, x = .ok a ∧ f a = .ok r := by
  cases x with
  | error reason => cases h
  | ok a => exact ⟨a, rfl, h⟩

/-- What the anchors mean, the latest first. -/
abbrev Anchors := List (Nat × Node)

/-- Set an anchor, if there is one. -/
def note (anchor : Option Nat) (n : Node) (known : Anchors) : Anchors :=
  match anchor with
  | none => known
  | some id => (id, n) :: known

namespace Written

/-- The place of a node that begins at a mark. -/
def placeAt (source : Source) (mark : Mark) (text path : String) : Place :=
  ⟨text, (source.position mark).line, (source.position mark).column, path⟩

/-- The node of a scalar that is not a key. -/
def scalarNode (source : Source) (text : String) (style : Style) (isText : Bool) (mark : Mark)
    (path : String) : Node :=
  let absent := !isText && Builder.isAbsent source text style mark
  let v := Builder.scalarValue text style isText absent
  .scalar v.1 (placeAt source mark v.2 path)

/-- A copy of a node, for an alias. -/
def copy (source : Source) (mark : Mark) (path : String) (n : Node) : Node :=
  (n.withPath path).mapPlace fun p =>
    { p with line := (source.position mark).line, column := (source.position mark).column }

/-- A key as text: that of a scalar, or the one that stands for the node. -/
def keyOf (k : Written) (known : Anchors) (read : Except Nat (Node × Anchors)) :
    Except Nat (String × Anchors) :=
  match k with
  | scalar text _ anchor _ _ => .ok (text, note anchor (.ofScalar (.string text) 0 "") known)
  | _ => read.map fun r => (r.1.keyText, r.2)

mutual
/-- The node at a path, or the anchor of an alias that means nothing. -/
def node (source : Source) (path : String) (known : Anchors) :
    Written → Except Nat (Node × Anchors)
  | reference id mark =>
    match known.lookup id with
    | none => .error id
    | some n => .ok (copy source mark path n, known)
  | scalar text style anchor isText mark =>
    let n := scalarNode source text style isText mark path
    .ok (n, note anchor n known)
  | sequence anchor mark ws => do
    let r ← items source path 0 known ws
    let n := Node.sequence r.1 (placeAt source mark "" path)
    .ok (n, note anchor n r.2)
  | mapping anchor mark es => do
    let r ← entries source path known es
    let n := Node.mapping r.1 (placeAt source mark "" path)
    .ok (n, note anchor n r.2)
def items (source : Source) (path : String) (i : Nat) (known : Anchors) :
    List Written → Except Nat (List Node × Anchors)
  | [] => .ok ([], known)
  | w :: ws => do
    let r ← w.node source (Path.index path i) known
    let rs ← items source path (i + 1) r.2 ws
    .ok (r.1 :: rs.1, rs.2)
def entries (source : Source) (path : String) (known : Anchors) :
    List (Written × Written) → Except Nat (List (String × Node) × Anchors)
  | [] => .ok ([], known)
  | (k, v) :: es => do
    let key ← keyOf k known (k.node source path known)
    let r ← v.node source (Path.key path key.1) key.2
    let rs ← entries source path r.2 es
    .ok ((key.1, r.1) :: rs.1, rs.2)
end

/-- The key of an entry of the mapping at a path. -/
def key (source : Source) (path : String) (known : Anchors) (k : Written) :
    Except Nat (String × Anchors) :=
  keyOf k known (k.node source path known)

/-- The root of a document.  A document of nothing at all has none. -/
def document (source : Source) (known : Anchors) (w : Written) :
    Except Nat (Option Node × Anchors) :=
  if w.isAbsent source then .ok (none, known)
  else (w.node source "" known).map fun r => (some r.1, r.2)

/-- The documents of a stream. -/
def documents (source : Source) (known : Anchors) :
    List Written → Except Nat (List (Option Node) × Anchors)
  | [] => .ok ([], known)
  | w :: ds => do
    let r ← w.document source known
    let rs ← documents source r.2 ds
    .ok (r.1 :: rs.1, rs.2)

/-! ### Results of the recursion -/

section Results

variable {source : Source} {path : String} {known : Anchors}

theorem exists_of_reference_ok {id : Nat} {mark : Mark} {r : Node × Anchors}
    (h : (reference id mark).node source path known = .ok r) :
    ∃ n, known.lookup id = some n ∧ r = (copy source mark path n, known) := by
  rw [node] at h
  cases hlookup : known.lookup id with
  | none =>
      rw [hlookup] at h
      cases h
  | some n =>
      rw [hlookup] at h
      cases h
      exact ⟨n, rfl, rfl⟩

theorem node_sequence {anchor : Option Nat} {mark : Mark} {ws : List Written}
    {r : List Node × Anchors} (h : items source path 0 known ws = .ok r) :
    (sequence anchor mark ws).node source path known =
      .ok (.sequence r.1 (placeAt source mark "" path),
        note anchor (.sequence r.1 (placeAt source mark "" path)) r.2) := by
  rw [node, h]
  rfl

theorem node_mapping {anchor : Option Nat} {mark : Mark} {es : List (Written × Written)}
    {r : List (String × Node) × Anchors} (h : entries source path known es = .ok r) :
    (mapping anchor mark es).node source path known =
      .ok (.mapping r.1 (placeAt source mark "" path),
        note anchor (.mapping r.1 (placeAt source mark "" path)) r.2) := by
  rw [node, h]
  rfl

theorem exists_of_sequence_ok {anchor : Option Nat} {mark : Mark} {ws : List Written}
    {r : Node × Anchors} (h : (sequence anchor mark ws).node source path known = .ok r) :
    ∃ is known', items source path 0 known ws = .ok (is, known') ∧
      r.1 = .sequence is (placeAt source mark "" path) ∧ r.2 = note anchor r.1 known' := by
  rw [node] at h
  obtain ⟨rs, hrs, hr⟩ := exists_of_bind_ok h
  cases hr
  exact ⟨rs.1, rs.2, hrs, rfl, rfl⟩

theorem exists_of_mapping_ok {anchor : Option Nat} {mark : Mark} {es : List (Written × Written)}
    {r : Node × Anchors} (h : (mapping anchor mark es).node source path known = .ok r) :
    ∃ fs known', entries source path known es = .ok (fs, known') ∧
      r.1 = .mapping fs (placeAt source mark "" path) ∧ r.2 = note anchor r.1 known' := by
  rw [node] at h
  obtain ⟨rs, hrs, hr⟩ := exists_of_bind_ok h
  cases hr
  exact ⟨rs.1, rs.2, hrs, rfl, rfl⟩

theorem exists_of_items_ok {i : Nat} {w : Written} {ws : List Written} {r : List Node × Anchors}
    (h : items source path i known (w :: ws) = .ok r) :
    ∃ n known' ns, w.node source (Path.index path i) known = .ok (n, known') ∧
      items source path (i + 1) known' ws = .ok (ns, r.2) ∧ r.1 = n :: ns := by
  rw [items] at h
  obtain ⟨x, hx, h⟩ := exists_of_bind_ok h
  obtain ⟨rs, hrs, hr⟩ := exists_of_bind_ok h
  cases hr
  exact ⟨x.1, x.2, rs.1, hx, hrs, rfl⟩

theorem exists_of_entries_ok {k v : Written} {es : List (Written × Written)}
    {r : List (String × Node) × Anchors} (h : entries source path known ((k, v) :: es) = .ok r) :
    ∃ key known₁ n known₂ fs, k.key source path known = .ok (key, known₁) ∧
      v.node source (Path.key path key) known₁ = .ok (n, known₂) ∧
      entries source path known₂ es = .ok (fs, r.2) ∧ r.1 = (key, n) :: fs := by
  rw [entries] at h
  obtain ⟨x, hx, h⟩ := exists_of_bind_ok h
  obtain ⟨y, hy, h⟩ := exists_of_bind_ok h
  obtain ⟨rs, hrs, hr⟩ := exists_of_bind_ok h
  cases hr
  exact ⟨x.1, x.2, y.1, y.2, rs.1, hx, hy, hrs, rfl⟩

theorem exists_of_documents_ok {w : Written} {ds : List Written}
    {r : List (Option Node) × Anchors} (h : documents source known (w :: ds) = .ok r) :
    ∃ d known' rest, w.document source known = .ok (d, known') ∧
      documents source known' ds = .ok (rest, r.2) ∧ r.1 = d :: rest := by
  rw [documents] at h
  obtain ⟨x, hx, h⟩ := exists_of_bind_ok h
  obtain ⟨rs, hrs, hr⟩ := exists_of_bind_ok h
  cases hr
  exact ⟨x.1, x.2, rs.1, hx, hrs, rfl⟩

/-- Reading a node sets its anchor last. -/
theorem exists_of_node_ok {w : Written} {r : Node × Anchors}
    (h : w.node source path known = .ok r) : ∃ known', r.2 = note w.anchor? r.1 known' := by
  cases w with
  | reference id mark =>
      obtain ⟨n, -, rfl⟩ := exists_of_reference_ok h
      exact ⟨known, rfl⟩
  | scalar text style anchor isText mark =>
      cases h
      exact ⟨known, rfl⟩
  | sequence anchor mark ws =>
      obtain ⟨is, known', -, -, hr⟩ := exists_of_sequence_ok h
      exact ⟨known', hr⟩
  | mapping anchor mark es =>
      obtain ⟨fs, known', -, -, hr⟩ := exists_of_mapping_ok h
      exact ⟨known', hr⟩

/-! ### Keys -/

def isScalar : Written → Bool
  | scalar .. => true
  | _ => false

theorem exists_of_isScalar {w : Written} (h : w.isScalar = true) :
    ∃ text style anchor isText mark, w = .scalar text style anchor isText mark := by
  cases w with
  | scalar text style anchor isText mark => exact ⟨text, style, anchor, isText, mark, rfl⟩
  | reference | sequence | mapping => cases h

theorem isScalar_of_isAbsent {w : Written} (h : w.isAbsent source = true) : w.isScalar = true := by
  cases w with
  | scalar => rfl
  | reference | sequence | mapping => cases h

/-- The key of a node that is no scalar is the text that stands for it. -/
theorem key_of_not_scalar {k : Written} (h : k.isScalar = false) :
    k.key source path known = (k.node source path known).map fun r => (r.1.keyText, r.2) := by
  cases k with
  | scalar => cases h
  | reference | sequence | mapping => rfl

theorem key_cases {k : Written} {r : String × Anchors} (h : k.key source path known = .ok r) :
    (∃ text style anchor isText mark, k = .scalar text style anchor isText mark ∧
      r = (text, note anchor (.ofScalar (.string text) 0 "") known)) ∨
    (k.isScalar = false ∧ ∃ n, k.node source path known = .ok (n, r.2) ∧ r.1 = n.keyText) := by
  cases hscalar : k.isScalar with
  | true =>
      obtain ⟨text, style, anchor, isText, mark, rfl⟩ := exists_of_isScalar hscalar
      cases h
      exact .inl ⟨text, style, anchor, isText, mark, rfl, rfl⟩
  | false =>
      rw [key_of_not_scalar hscalar] at h
      cases hn : k.node source path known with
      | error id =>
          rw [hn] at h
          cases h
      | ok x =>
          rw [hn] at h
          cases h
          exact .inr ⟨rfl, x.1, rfl, rfl⟩

end Results

end Written

/-! ### Runs -/

/-- What events do, one after the other. -/
def run (source : Source) (b : Builder) (es : List Event) : Except Malformed Builder :=
  es.foldlM (Builder.step source) b

section Run

variable {source : Source} {b b' : Builder}

theorem run_nil : run source b [] = .ok b := rfl

theorem run_cons {e : Event} (h : b.step source e = .ok b') (es : List Event) :
    run source b (e :: es) = run source b' es := by
  rw [run, List.foldlM_cons, h]
  rfl

theorem run_append (xs ys : List Event) :
    run source b (xs ++ ys) = (run source b xs).bind fun b' => run source b' ys :=
  List.foldlM_append

theorem run_append_ok {xs : List Event} (h : run source b xs = .ok b') (ys : List Event) :
    run source b (xs ++ ys) = run source b' ys := by
  rw [run_append, h]
  rfl

/-- What was run to the end was run up to every point. -/
theorem exists_of_run_append {xs ys : List Event} (h : run source b (xs ++ ys) = .ok b') :
    ∃ b₁, run source b xs = .ok b₁ ∧ run source b₁ ys = .ok b' := by
  rw [run_append] at h
  exact exists_of_bind_ok h

theorem run_singleton (e : Event) : run source b [e] = b.step source e := by
  rw [run, List.foldlM_cons]
  cases b.step source e <;> rfl

/-- A run that stops stops at some event. -/
theorem exists_of_run_error {reason : Malformed} :
    ∀ {es : List Event} {b : Builder}, run source b es = .error reason →
      ∃ pre e post b₁, es = pre ++ e :: post ∧ run source b pre = .ok b₁ ∧
        b₁.step source e = .error reason := by
  intro es
  induction es with
  | nil => intro b h; cases h
  | cons e es ih =>
      intro b h
      cases hstep : b.step source e with
      | error reason' =>
          rw [run, List.foldlM_cons, hstep] at h
          cases h
          exact ⟨[], e, es, b, rfl, rfl, hstep⟩
      | ok b₁ =>
          rw [run_cons hstep] at h
          obtain ⟨pre, f, post, b₂, rfl, hpre, hf⟩ := ih h
          exact ⟨e :: pre, f, post, b₂, rfl, by rw [run_cons hstep, hpre], hf⟩

end Run

/-! ### Trees -/

/-- What the builder makes of a result of the recursion. -/
def resolved {α β : Type} (r : Except Nat α) (f : α → β) : Except Malformed β :=
  (r.mapError .unknownAnchor).map f

@[simp] theorem resolved_ok {α β : Type} (x : α) (f : α → β) : resolved (.ok x) f = .ok (f x) := rfl

theorem exists_of_resolved_ok {α β : Type} {r : Except Nat α} {f : α → β} {y : β}
    (h : resolved r f = .ok y) : ∃ x, r = .ok x ∧ y = f x := by
  cases r with
  | error id => cases h
  | ok x =>
      cases h
      exact ⟨x, rfl, rfl⟩

/-- The node becomes a part of what is being built: as a scalar it is no key, and as a document
it is there. -/
structure Fits (source : Source) (b : Builder) (w : Written) : Prop where
  value : b.atKey = true → w.isScalar = false
  present : b.frames = [] → w.isAbsent source = false

/-- Every tree fits where a collection waits for a value. -/
theorem Fits.part {source : Source} {b : Builder} {w : Written} {f : Frame} {fs : List Frame}
    (hkey : b.atKey = false) (hframes : b.frames = f :: fs) : Fits source b w :=
  ⟨fun h => by simp [hkey] at h, fun h => by simp [hframes] at h⟩

theorem remember_eq (anchor : Option Nat) (n : Node) (b : Builder) :
    b.remember anchor n = { b with anchors := note anchor n b.anchors } := by
  cases anchor <;> rfl

/-- The builder runs over the events of this tree as the recursion says. -/
def Agrees (source : Source) (w : Written) : Prop :=
  ∀ b, Fits source b w → run source b w.events =
    resolved (w.node source b.nextPath b.anchors) fun r =>
      { b with anchors := r.2 }.attach r.1

section Trees

variable {source : Source} {documents : Array (Option Node)} {root : Option Node}
  {anchor : Option Nat} {position : Text.Position} {path : String} {fs : List Frame}

theorem run_items {ws : List Written} (hws : ∀ w ∈ ws, Agrees source w) :
    ∀ (is : Array Node) (known : Anchors),
      run source ⟨documents, root, ⟨anchor, position, path, .items is⟩ :: fs, known⟩
          (Written.eventsItems ws) =
        resolved (Written.items source path is.size known ws) fun r =>
          ⟨documents, root, ⟨anchor, position, path, .items (is ++ r.1.toArray)⟩ :: fs, r.2⟩ := by
  induction ws with
  | nil =>
      intro is known
      simp [Written.eventsItems, Written.items, run_nil]
  | cons w ws ih =>
      intro is known
      rw [List.forall_mem_cons] at hws
      rw [Written.eventsItems, run_append, hws.1 _ (.part rfl rfl), Written.items]
      show (resolved (w.node source (Path.index path is.size) known) _).bind _ = _
      cases hw : w.node source (Path.index path is.size) known with
      | error id => rfl
      | ok r =>
          show run source ⟨_, _, ⟨_, _, _, .items (is.push r.1)⟩ :: fs, r.2⟩ _ = resolved (do
            let rs ← Written.items source path (is.size + 1) r.2 ws
            Except.ok (r.1 :: rs.1, rs.2)) _
          rw [ih hws.2, Array.size_push]
          cases hrs : Written.items source path (is.size + 1) r.2 ws with
          | error id => rfl
          | ok rs =>
              show Except.ok (_ : Builder) = Except.ok _
              simp

theorem run_key {k : Written} (hk : Agrees source k) (es : Array (String × Node))
    (known : Anchors) :
    run source ⟨documents, root, ⟨anchor, position, path, .entries es none⟩ :: fs, known⟩
        k.events =
      resolved (k.key source path known) fun r =>
        ⟨documents, root, ⟨anchor, position, path, .entries es (some r.1)⟩ :: fs, r.2⟩ := by
  cases hscalar : k.isScalar with
  | true =>
      obtain ⟨text, style, anchor', isText, mark, rfl⟩ := Written.exists_of_isScalar hscalar
      cases anchor' <;> rfl
  | false =>
      rw [hk _ ⟨fun _ => hscalar, fun h => by cases h⟩, Written.key_of_not_scalar hscalar]
      show resolved (k.node source path known) _ = _
      cases k.node source path known <;> rfl

theorem run_entries {ps : List (Written × Written)}
    (hps : ∀ p ∈ ps, Agrees source p.1 ∧ Agrees source p.2) :
    ∀ (es : Array (String × Node)) (known : Anchors),
      run source ⟨documents, root, ⟨anchor, position, path, .entries es none⟩ :: fs, known⟩
          (Written.eventsEntries ps) =
        resolved (Written.entries source path known ps) fun r =>
          ⟨documents, root, ⟨anchor, position, path, .entries (es ++ r.1.toArray) none⟩ :: fs,
            r.2⟩ := by
  induction ps with
  | nil =>
      intro es known
      simp [Written.eventsEntries, Written.entries, run_nil]
  | cons p ps ih =>
      intro es known
      obtain ⟨k, v⟩ := p
      rw [List.forall_mem_cons] at hps
      rw [Written.eventsEntries, run_append, run_key hps.1.1, Written.entries]
      show _ = resolved ((k.key source path known).bind _) _
      cases hk : k.key source path known with
      | error id => rfl
      | ok key =>
          show run source ⟨_, _, ⟨_, _, _, .entries es (some key.1)⟩ :: fs, key.2⟩ _ =
            resolved ((v.node source (Path.key path key.1) key.2).bind _) _
          rw [run_append, hps.1.2 _ (.part rfl rfl)]
          show (resolved (v.node source (Path.key path key.1) key.2) _).bind _ = _
          cases hv : v.node source (Path.key path key.1) key.2 with
          | error id => rfl
          | ok r =>
              show run source ⟨_, _, ⟨_, _, _, .entries (es.push (key.1, r.1)) none⟩ :: fs, r.2⟩ _ =
                resolved ((Written.entries source path r.2 ps).bind _) _
              rw [ih hps.2]
              cases hrs : Written.entries source path r.2 ps with
              | error id => rfl
              | ok rs =>
                  show Except.ok (_ : Builder) = Except.ok _
                  simp

end Trees

/-- **The builder does to its state what the recursion says.** -/
theorem run_events (source : Source) : ∀ w : Written, Agrees source w := by
  intro w
  induction w using Written.induct with
  | reference id mark =>
      intro b _
      rw [Written.events, run_singleton, Written.node]
      show b.copyAnchored source id mark = _
      unfold Builder.copyAnchored
      cases b.anchors.lookup id <;> rfl
  | scalar text style anchor isText mark =>
      intro b hb
      have hkey : b.atKey = false := by
        cases hkey : b.atKey with
        | false => rfl
        | true => cases hb.value hkey
      have hthere : (b.frames.isEmpty && (!isText && Builder.isAbsent source text style mark)) =
          false := by
        cases hframes : b.frames with
        | nil => exact hb.present hframes
        | cons f fs => rfl
      rw [Written.events, run_singleton, Written.node]
      show (if b.atKey = true then _ else _) = _
      rw [if_neg (by simp [hkey])]
      unfold Builder.scalar
      simp only [hthere, Bool.false_eq_true, if_false]
      unfold Builder.complete
      rw [remember_eq]
      rfl
  | sequence anchor mark ws ih =>
      intro b _
      obtain ⟨documents, root, frames, known⟩ := b
      rw [Written.events, run_cons rfl, run_append]
      show (run source ⟨documents, root, ⟨anchor, _, _, .items #[]⟩ :: frames, known⟩ _).bind _ = _
      rw [run_items ih, Written.node]
      show (resolved (Written.items source _ 0 known ws) _).bind _ = _
      cases hr : Written.items source _ 0 known ws with
      | error id => rfl
      | ok r =>
          show run source _ [.sequenceEnd] = _
          rw [run_singleton]
          simp only [Array.empty_append]
          show Except.ok (Builder.complete anchor
            (.sequence r.1 (Written.placeAt source mark "" _)) ⟨documents, root, frames, r.2⟩) = _
          unfold Builder.complete
          rw [remember_eq]
          rfl
  | mapping anchor mark es ih =>
      intro b _
      obtain ⟨documents, root, frames, known⟩ := b
      rw [Written.events, run_cons rfl, run_append]
      show (run source ⟨documents, root, ⟨anchor, _, _, .entries #[] none⟩ :: frames, known⟩
        _).bind _ = _
      rw [run_entries ih, Written.node]
      show (resolved (Written.entries source _ known es) _).bind _ = _
      cases hr : Written.entries source _ known es with
      | error id => rfl
      | ok r =>
          show run source _ [.mappingEnd] = _
          rw [run_singleton]
          simp only [Array.empty_append]
          show Except.ok (Builder.complete anchor
            (.mapping r.1 (Written.placeAt source mark "" _)) ⟨documents, root, frames, r.2⟩) = _
          unfold Builder.complete
          rw [remember_eq]
          rfl

/-! ### Documents -/

section Documents

variable (source : Source)

theorem run_document (w : Written) (built : Array (Option Node)) (known : Anchors) :
    run source ⟨built, none, [], known⟩ (.documentStart :: (w.events ++ [.documentEnd])) =
      resolved (w.document source known) fun r => ⟨built.push r.1, none, [], r.2⟩ := by
  rw [run_cons rfl, run_append, Written.document]
  by_cases habsent : w.isAbsent source = true
  · obtain ⟨text, style, anchor, isText, mark, rfl⟩ :=
      Written.exists_of_isScalar (Written.isScalar_of_isAbsent habsent)
    have hskip : run source ⟨built, none, [], known⟩
        (Written.scalar text style anchor isText mark).events = .ok ⟨built, none, [], known⟩ := by
      rw [Written.events, run_singleton]
      show Except.ok (Builder.scalar ..) = _
      unfold Builder.scalar
      rw [Written.isAbsent] at habsent
      simp [habsent]
    rw [if_pos habsent, hskip]
    rfl
  · have hthere : w.isAbsent source = false := by simpa using habsent
    rw [if_neg habsent, run_events source w _ ⟨fun h => (by cases h), fun _ => hthere⟩]
    show (resolved (w.node source "" known) _).bind _ = _
    cases w.node source "" known <;> rfl

theorem run_documents :
    ∀ (ds : List Written) (built : Array (Option Node)) (known : Anchors),
      run source ⟨built, none, [], known⟩ (streamEvents ds) =
        resolved (Written.documents source known ds) fun r =>
          ⟨built ++ r.1.toArray, none, [], r.2⟩ := by
  intro ds
  induction ds with
  | nil =>
      intro built known
      simp [streamEvents, Written.documents, run_nil]
  | cons w ds ih =>
      intro built known
      show run source _ ((.documentStart :: (w.events ++ [.documentEnd])) ++ streamEvents ds) = _
      rw [run_append, run_document, Written.documents]
      cases hw : w.document source known with
      | error id => rfl
      | ok r =>
          show run source ⟨built.push r.1, none, [], r.2⟩ _ =
            resolved ((Written.documents source r.2 ds).bind _) _
          rw [ih]
          cases hrs : Written.documents source r.2 ds with
          | error id => rfl
          | ok rs =>
              show Except.ok (_ : Builder) = Except.ok _
              simp

/-- **The documents of well-nested events are those of the recursion.** -/
theorem ofEvents_streamEvents (ds : List Written) :
    ofEvents source (streamEvents ds) =
      resolved (Written.documents source [] ds) fun r => ⟨if ds = [] then [none] else r.1⟩ := by
  show (run source ⟨#[], none, [], []⟩ (streamEvents ds)).bind Builder.stream = _
  rw [run_documents]
  cases hr : Written.documents source [] ds with
  | error id => rfl
  | ok r =>
      show Builder.stream ⟨#[] ++ r.1.toArray, none, [], r.2⟩ =
        .ok ⟨if ds = [] then [none] else r.1⟩
      rw [Array.empty_append]
      unfold Builder.stream
      cases ds with
      | nil =>
          cases hr
          rfl
      | cons w ds =>
          obtain ⟨d, known', rest, -, -, hr⟩ := Written.exists_of_documents_ok hr
          simp [hr]

end Documents

end YamlDelta.Markup
