/-
Which anchors mean something.

An anchor is set at one event only: the one that completes the node it stands on, be it
the end of a collection, a scalar, or a scalar that becomes a key.  `step_anchors` says
so for an event of a stream: either what the anchors mean stays as it is, or the events
up to here end with a whole tree, and its anchor is the one that is set.

From this it can be told from the events alone whether an alias can be resolved: exactly
if a node with its anchor has been completed before (`isSome_lookup_iff`).  One direction
needs that nothing is ever forgotten, the other goes back along the events to the one
that has set the anchor.
-/
import Mathlib.Data.List.Induction
import YamlDelta.Proofs.Markup.Reading

namespace YamlDelta.Markup

variable {source : Source} {b b' : Builder}

/-! ### What an event does -/

theorem suffix_note (anchor : Option Nat) (n : Node) (known : Anchors) :
    known <:+ note anchor n known := by
  cases anchor with
  | none => exact List.suffix_refl _
  | some id => exact List.suffix_cons _ _

namespace Builder

theorem anchors_setKey (key : String) (b : Builder) : (b.setKey key).anchors = b.anchors := by
  unfold setKey
  split <;> rfl

theorem length_frames_setKey (key : String) (b : Builder) :
    (b.setKey key).frames.length = b.frames.length := by
  unfold setKey
  split
  · rename_i hframes
    simp [hframes]
  · rfl

theorem anchors_attach (n : Node) (b : Builder) : (b.attach n).anchors = b.anchors := by
  unfold attach
  split
  · rfl
  · rfl
  · rfl
  · exact anchors_setKey n.keyText b

theorem length_frames_attach (n : Node) (b : Builder) :
    (b.attach n).frames.length = b.frames.length := by
  unfold attach
  split
  · rename_i hframes
    simp [hframes]
  · rename_i hframes
    simp [hframes]
  · rename_i hframes
    simp [hframes]
  · exact length_frames_setKey n.keyText b

theorem anchors_complete (anchor : Option Nat) (n : Node) (b : Builder) :
    (b.complete anchor n).anchors = note anchor n b.anchors := by
  unfold complete
  rw [anchors_attach, remember_eq]

theorem length_frames_complete (anchor : Option Nat) (n : Node) (b : Builder) :
    (b.complete anchor n).frames.length = b.frames.length := by
  unfold complete
  rw [length_frames_attach, remember_eq]

theorem anchors_scalarKey (text : String) (anchor : Option Nat) (b : Builder) :
    (b.scalarKey text anchor).anchors = note anchor (.ofScalar (.string text) 0 "") b.anchors := by
  unfold scalarKey
  rw [anchors_setKey, remember_eq]

theorem length_frames_scalarKey (text : String) (anchor : Option Nat) (b : Builder) :
    (b.scalarKey text anchor).frames.length = b.frames.length := by
  unfold scalarKey
  rw [length_frames_setKey, remember_eq]

end Builder

/-- An event opens a collection, or completes the innermost one, or leaves those that are open and
may set an anchor. -/
theorem step_cases {e : Event} (h : b.step source e = .ok b') :
    (e.opens = true ∧ e.closes = false ∧ ∃ f, b' = { b with frames := f :: b.frames }) ∨
    (e.opens = false ∧ e.closes = true ∧
      ∃ f fs n, b.frames = f :: fs ∧ b' = { b with frames := fs }.complete f.anchor n) ∨
    (e.opens = false ∧ e.closes = false ∧ b'.frames.length = b.frames.length ∧
      ∃ anchor n, b'.anchors = note anchor n b.anchors) := by
  cases e with
  | documentStart =>
      cases h
      exact .inr (.inr ⟨rfl, rfl, rfl, none, default, rfl⟩)
  | documentEnd =>
      cases h
      exact .inr (.inr ⟨rfl, rfl, rfl, none, default, rfl⟩)
  | «alias» id mark =>
      simp only [Builder.step, Builder.copyAnchored] at h
      split at h
      · cases h
      · cases h
        exact .inr (.inr ⟨rfl, rfl, b.length_frames_complete none _, none, _,
          b.anchors_complete none _⟩)
  | scalar text style anchor isText mark =>
      simp only [Builder.step] at h
      split at h
      · cases h
        exact .inr (.inr ⟨rfl, rfl, b.length_frames_scalarKey text anchor, anchor, _,
          b.anchors_scalarKey text anchor⟩)
      · cases h
        unfold Builder.scalar
        simp only []
        split
        · exact .inr (.inr ⟨rfl, rfl, rfl, none, default, rfl⟩)
        · exact .inr (.inr ⟨rfl, rfl, b.length_frames_complete anchor _, anchor, _,
            b.anchors_complete anchor _⟩)
  | sequenceStart anchor mark =>
      cases h
      exact .inl ⟨rfl, rfl, _, rfl⟩
  | sequenceEnd =>
      simp only [Builder.step, Builder.endSequence] at h
      split at h
      · cases h
      · rename_i f fs hframes
        split at h
        · cases h
          exact .inr (.inl ⟨rfl, rfl, f, fs, _, hframes, rfl⟩)
        · cases h
  | mappingStart anchor mark =>
      cases h
      exact .inl ⟨rfl, rfl, _, rfl⟩
  | mappingEnd =>
      simp only [Builder.step, Builder.endMapping] at h
      split at h
      · cases h
      · rename_i f fs hframes
        split at h
        · cases h
          exact .inr (.inl ⟨rfl, rfl, f, fs, _, hframes, rfl⟩)
        · cases h

/-! ### Open collections -/

theorem length_frames_step {e : Event} (h : b.step source e = .ok b') :
    b'.frames.length + [e].countP Event.closes = b.frames.length + [e].countP Event.opens := by
  rcases step_cases h with ⟨hopens, hcloses, f, rfl⟩ | ⟨hopens, hcloses, f, fs, n, hframes, rfl⟩ |
    ⟨hopens, hcloses, hlength, -⟩
  · simp [hopens, hcloses]
  · simp [hopens, hcloses, hframes, Builder.length_frames_complete]
  · simp [hopens, hcloses, hlength]

/-- Every open collection has begun and has not ended. -/
theorem length_frames_run : ∀ {es : List Event} {b : Builder}, run source b es = .ok b' →
    b'.frames.length + es.countP Event.closes = b.frames.length + es.countP Event.opens := by
  intro es
  induction es with
  | nil =>
      intro b h
      cases h
      rfl
  | cons e es ih =>
      intro b h
      rw [← List.singleton_append] at h ⊢
      obtain ⟨b₁, he, hes⟩ := exists_of_run_append h
      rw [run_singleton] at he
      have hstep := length_frames_step he
      have hrest := ih hes
      rw [List.countP_append, List.countP_append]
      omega

theorem insideCollection_iff {es : List Event} (h : run source .empty es = .ok b) :
    InsideCollection es ↔ b.frames ≠ [] := by
  have hlength := length_frames_run h
  unfold InsideCollection
  rw [← List.length_pos_iff]
  simp only [Builder.empty, List.length_nil] at hlength
  omega

theorem frames_of_balanced {es : List Event} (h : run source .empty es = .ok b)
    (hes : Balanced es) : b.frames = [] := by
  have hlength := length_frames_run h
  unfold Balanced at hes
  rw [← List.length_eq_zero_iff]
  simp only [Builder.empty, List.length_nil] at hlength
  omega

/-! ### Setting anchors -/

theorem suffix_anchors_step {e : Event} (h : b.step source e = .ok b') :
    b.anchors <:+ b'.anchors := by
  rcases step_cases h with ⟨-, -, f, rfl⟩ | ⟨-, -, f, fs, n, -, rfl⟩ | ⟨-, -, -, anchor, n, hb'⟩
  · exact List.suffix_refl _
  · rw [Builder.anchors_complete]
    exact suffix_note f.anchor n b.anchors
  · rw [hb']
    exact suffix_note anchor n b.anchors

/-- No anchor is forgotten. -/
theorem suffix_anchors_run : ∀ {es : List Event} {b : Builder}, run source b es = .ok b' →
    b.anchors <:+ b'.anchors := by
  intro es
  induction es with
  | nil =>
      intro b h
      cases h
      exact List.suffix_refl _
  | cons e es ih =>
      intro b h
      rw [← List.singleton_append] at h
      obtain ⟨b₁, he, hes⟩ := exists_of_run_append h
      rw [run_singleton] at he
      exact (suffix_anchors_step he).trans (ih hes)

/-- The sequence that is open when its items have been read. -/
theorem frames_of_run_items {anchor : Option Nat} {mark : Mark} {ws : List Written}
    (h : run source b (.sequenceStart anchor mark :: Written.eventsItems ws) = .ok b') :
    ∃ f, b'.frames = f :: b.frames ∧ f.anchor = anchor := by
  rw [run_cons rfl] at h
  obtain ⟨r, -, rfl⟩ := exists_of_resolved_ok
    ((run_items (fun w _ => run_events source w) #[] b.anchors).symm.trans h)
  exact ⟨_, rfl, rfl⟩

theorem frames_of_run_entries {anchor : Option Nat} {mark : Mark} {es : List (Written × Written)}
    (h : run source b (.mappingStart anchor mark :: Written.eventsEntries es) = .ok b') :
    ∃ f, b'.frames = f :: b.frames ∧ f.anchor = anchor := by
  rw [run_cons rfl] at h
  have hagrees : ∀ e ∈ es, Agrees source e.1 ∧ Agrees source e.2 := by
    intro e _
    exact ⟨run_events source e.1, run_events source e.2⟩
  obtain ⟨r, -, rfl⟩ := exists_of_resolved_ok
    ((run_entries hagrees #[] b.anchors).symm.trans h)
  exact ⟨_, rfl, rfl⟩

/-- The end of an open collection sets its anchor. -/
theorem anchors_of_close {e : Event} {f : Frame} {fs : List Frame} (hframes : b.frames = f :: fs)
    (he : e.closes = true) (h : b.step source e = .ok b') :
    ∃ n, b'.anchors = note f.anchor n b.anchors := by
  rcases step_cases h with ⟨-, hcloses, -⟩ | ⟨-, -, f', fs', n, hframes', rfl⟩ | ⟨-, hcloses, -⟩
  · rw [he] at hcloses
    cases hcloses
  · rw [hframes] at hframes'
    cases hframes'
    exact ⟨n, Builder.anchors_complete f.anchor n _⟩
  · rw [he] at hcloses
    cases hcloses

/-- The event that completes a tree sets its anchor, or completes nothing. -/
theorem anchors_of_completes {a p : List Event} {w : Written} {e : Event}
    (hw : p ++ [e] = a ++ w.events) (hp : run source .empty p = .ok b)
    (h : b.step source e = .ok b') :
    b'.anchors = b.anchors ∨
      (∃ n, b'.anchors = note w.anchor? n b.anchors) ∧
        (w.isAbsent source = true → InsideCollection a) := by
  cases w with
  | reference id mark =>
      obtain ⟨rfl, he⟩ := List.append_inj' hw rfl
      cases he
      simp only [Builder.step, Builder.copyAnchored] at h
      split at h
      · cases h
      · cases h
        exact .inl (b.anchors_complete none _)
  | scalar text style anchor isText mark =>
      obtain ⟨rfl, he⟩ := List.append_inj' hw rfl
      cases he
      rw [insideCollection_iff hp]
      simp only [Builder.step] at h
      split at h
      · rename_i hkey
        cases h
        refine .inr ⟨⟨_, b.anchors_scalarKey text anchor⟩, fun _ hframes => ?_⟩
        simp [Builder.atKey, hframes] at hkey
      · cases h
        unfold Builder.scalar
        simp only []
        split
        · exact .inl rfl
        · rename_i hthere
          refine .inr ⟨⟨_, b.anchors_complete anchor _⟩, fun habsent hframes => hthere ?_⟩
          rw [hframes]
          exact habsent
  | sequence anchor mark ws =>
      rw [Written.events, ← List.cons_append, ← List.append_assoc] at hw
      obtain ⟨rfl, he⟩ := List.append_inj' hw rfl
      cases he
      obtain ⟨b₀, -, hopen⟩ := exists_of_run_append hp
      obtain ⟨f, hframes, rfl⟩ := frames_of_run_items hopen
      exact .inr ⟨anchors_of_close hframes rfl h, fun habsent => by cases habsent⟩
  | mapping anchor mark es =>
      rw [Written.events, ← List.cons_append, ← List.append_assoc] at hw
      obtain ⟨rfl, he⟩ := List.append_inj' hw rfl
      cases he
      obtain ⟨b₀, -, hopen⟩ := exists_of_run_append hp
      obtain ⟨f, hframes, rfl⟩ := frames_of_run_entries hopen
      exact .inr ⟨anchors_of_close hframes rfl h, fun habsent => by cases habsent⟩

/-- **An event of a stream sets the anchor of the node that it completes, and no other.** -/
theorem step_anchors {ds : List Written} {p post : List Event} {e : Event}
    (hds : streamEvents ds = p ++ e :: post) (hp : run source .empty p = .ok b)
    (h : b.step source e = .ok b') :
    b'.anchors = b.anchors ∨
      ∃ id n, Completes source id (p ++ [e]) ∧ b'.anchors = (id, n) :: b.anchors := by
  cases hcompletes : e.completes with
  | false =>
      refine .inl ?_
      cases e with
      | documentStart | documentEnd | sequenceStart | mappingStart => cases h; rfl
      | «alias» | scalar | sequenceEnd | mappingEnd => cases hcompletes
  | true =>
      obtain ⟨a, w, hw⟩ := exists_of_completes hds hcompletes
      rcases anchors_of_completes hw hp h with hsame | ⟨⟨n, hset⟩, habsent⟩
      · exact .inl hsame
      · cases hanchor : w.anchor? with
        | none =>
            rw [hanchor] at hset
            exact .inl hset
        | some id =>
            rw [hanchor] at hset
            exact .inr ⟨id, n, ⟨a, w, hw, hanchor, habsent⟩, hset⟩

/-! ### What an anchor means -/

theorem lookup_note_self (id : Nat) (n : Node) (known : Anchors) :
    (note (some id) n known).lookup id = some n := by
  simp [note]

/-- The events of a tree set its anchor to the node that is read, and to its text where a scalar is
a key. -/
theorem lookup_of_run_events {id : Nat} {w : Written} (hw : w.anchor? = some id)
    (hpresent : b.frames = [] → w.isAbsent source = false)
    (h : run source b w.events = .ok b') :
    ∃ n, b'.anchors.lookup id = some n ∧
      ((Fits source b w ∧ ∃ known, w.node source b.nextPath b.anchors = .ok (n, known)) ∨
        (b.atKey = true ∧ ∃ text style isText mark,
          w = .scalar text style (some id) isText mark ∧ n = .ofScalar (.string text) 0 "")) := by
  by_cases hkey : b.atKey = true ∧ w.isScalar = true
  · obtain ⟨hkey, hscalar⟩ := hkey
    obtain ⟨text, style, anchor, isText, mark, rfl⟩ := Written.exists_of_isScalar hscalar
    obtain rfl : anchor = some id := hw
    rw [Written.events, run_singleton, Builder.step, if_pos hkey] at h
    cases h
    rw [Builder.anchors_scalarKey]
    exact ⟨_, lookup_note_self id _ b.anchors, .inr ⟨hkey, text, style, isText, mark, rfl, rfl⟩⟩
  · have hfits : Fits source b w := ⟨fun h => by simpa [h] using hkey, hpresent⟩
    rw [run_events source w b hfits] at h
    obtain ⟨r, hr, rfl⟩ := exists_of_resolved_ok h
    obtain ⟨known, hknown⟩ := Written.exists_of_node_ok hr
    rw [Builder.anchors_attach, hknown, hw]
    exact ⟨r.1, lookup_note_self id r.1 known, .inl ⟨hfits, r.2, hr⟩⟩

/-- A tree that completes a node is there, also as a document. -/
theorem present_of_run {a : List Event} {w : Written} (ha : run source .empty a = .ok b)
    (h : w.isAbsent source = true → InsideCollection a) :
    b.frames = [] → w.isAbsent source = false := by
  intro hframes
  cases habsent : w.isAbsent source with
  | false => rfl
  | true => exact absurd hframes ((insideCollection_iff ha).mp (h habsent))

theorem lookup_of_suffix {id : Nat} {n : Node} {known known' : Anchors} (hle : known <:+ known')
    (h : known.lookup id = some n) : ∃ m, known'.lookup id = some m := by
  obtain ⟨new, rfl⟩ := hle
  rw [List.lookup_append, h]
  cases new.lookup id <;> simp

/-- **An alias can be resolved exactly if a node with its anchor has been completed.** -/
theorem exists_lookup_iff {ds : List Written} {p post : List Event} {id : Nat}
    (hds : streamEvents ds = p ++ post) (hp : run source .empty p = .ok b) :
    (∃ n, b.anchors.lookup id = some n) ↔ Completed source id p := by
  constructor
  · -- back along the events, to the one that has set the anchor
    rintro ⟨n, hn⟩
    induction p using List.reverseRecOn generalizing post b n with
    | nil =>
        cases hp
        cases hn
    | append_singleton p e ih =>
        obtain ⟨b₁, hp₁, he⟩ := exists_of_run_append hp
        rw [run_singleton] at he
        rw [List.append_assoc] at hds
        rcases step_anchors hds hp₁ he with hsame | ⟨id', m, hcompletes, hset⟩
        · rw [hsame] at hn
          exact (ih hds hp₁ n hn).append [e]
        · by_cases hid : id = id'
          · subst hid
            exact ⟨p ++ [e], List.prefix_refl _, hcompletes⟩
          · rw [hset, List.lookup_cons] at hn
            simp only [beq_eq_false_iff_ne.mpr hid] at hn
            exact (ih hds hp₁ n hn).append [e]
  · rintro ⟨q, ⟨c, rfl⟩, a, w, rfl, hw, habsent⟩
    obtain ⟨b₁, hq, hc⟩ := exists_of_run_append hp
    obtain ⟨b₀, ha, hevents⟩ := exists_of_run_append hq
    obtain ⟨n, hn, -⟩ := lookup_of_run_events hw (present_of_run ha habsent) hevents
    exact lookup_of_suffix (suffix_anchors_run hc) hn

/-- An anchor means the same until a node with it is completed again. -/
theorem lookup_of_run {ds : List Written} {id : Nat} {p : List Event}
    (hp : run source .empty p = .ok b) :
    ∀ {c post : List Event} {b' : Builder}, streamEvents ds = p ++ c ++ post →
      run source b c = .ok b' → (∀ q, q <+: c → Completes source id (p ++ q) → q = []) →
        b'.anchors.lookup id = b.anchors.lookup id := by
  intro c
  induction c using List.reverseRecOn with
  | nil =>
      intro post b' _ hc _
      cases hc
      rfl
  | append_singleton c e ih =>
      intro post b' hds hc hlast
      obtain ⟨b₁, hc₁, he⟩ := exists_of_run_append hc
      rw [run_singleton] at he
      rw [← List.append_assoc, List.append_assoc (p ++ c)] at hds
      have hsame := ih hds hc₁ fun q hq => hlast q (hq.trans (List.prefix_append c [e]))
      have hpc : run source .empty (p ++ c) = .ok b₁ := by rw [run_append_ok hp, hc₁]
      rcases step_anchors hds hpc he with hanchors | ⟨id', n, hcompletes, hanchors⟩
      · rw [hanchors, hsame]
      · rw [hanchors, List.lookup_cons]
        by_cases hid : id = id'
        · subst hid
          rw [List.append_assoc] at hcompletes
          have hnil := hlast (c ++ [e]) (List.prefix_refl _) hcompletes
          simp at hnil
        · simp only [beq_eq_false_iff_ne.mpr hid]
          exact hsame

/-- The last of these events that complete a node with this anchor are those of the tree, and the
rest follows. -/
structure LastCompleted (source : Source) (id : Nat) (es a : List Event) (w : Written)
    (c : List Event) : Prop where
  events : es = a ++ w.events ++ c
  anchor : w.anchor? = some id
  present : w.isAbsent source = true → InsideCollection a
  last : ∀ q, q <+: c → Completes source id (a ++ w.events ++ q) → q = []

theorem exists_lastCompleted {id : Nat} {es : List Event} (h : Completed source id es) :
    ∃ a w c, LastCompleted source id es a w c := by
  induction es using List.reverseRecOn with
  | nil =>
      obtain ⟨p, hp, a, w, rfl, hw, hpresent⟩ := h
      refine ⟨a, w, [], ⟨?_, hw, hpresent, fun q hq _ => List.prefix_nil.mp hq⟩⟩
      rw [List.append_nil, List.prefix_nil.mp hp]
  | append_singleton es e ih =>
      by_cases hcompletes : Completes source id (es ++ [e])
      · obtain ⟨a, w, hes, hw, hpresent⟩ := hcompletes
        refine ⟨a, w, [], ⟨?_, hw, hpresent, fun q hq _ => List.prefix_nil.mp hq⟩⟩
        rw [List.append_nil, hes]
      · obtain ⟨p, hp, hpc⟩ := h
        rcases List.prefix_concat_iff.mp hp with rfl | hle
        · exact absurd hpc hcompletes
        · obtain ⟨a, w, c, hevents, hw, hpresent, hlast⟩ := ih ⟨p, hle, hpc⟩
          refine ⟨a, w, c ++ [e], ⟨?_, hw, hpresent, fun q hq hqc => ?_⟩⟩
          · rw [hevents, List.append_assoc]
          · rcases List.prefix_concat_iff.mp hq with rfl | hqle
            · rw [← List.append_assoc, ← hevents] at hqc
              exact absurd hqc hcompletes
            · exact hlast q hqle hqc

end YamlDelta.Markup
