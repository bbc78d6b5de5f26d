/-
Well-nested events.

The events of a stream come in a row, but they stand for trees: every document is one
node between its start and its end, a collection has its parts between its own, and the
parts of a mapping are keys and values in turn.  `Written` is such a tree, with aliases
as leaves, and `events` writes it down.  The rows that arise in this way are the
well-nested ones.

Two things are read off a row without its tree.  How many collections are open somewhere
is a matter of counting.  And a node is complete at an event exactly if the events up to
there end with all the events of one tree (`exists_of_completes`): so what has been
completed can be said about rows of events alone, before anything is built from them.
-/
import YamlDelta.Markup.Document

namespace YamlDelta.Markup

/-- A node as it is written, keys and aliases included. -/
inductive Written where
  | reference (anchor : Nat) (mark : Mark)
  | scalar (text : String) (style : Style) (anchor : Option Nat) (isText : Bool) (mark : Mark)
  | sequence (anchor : Option Nat) (mark : Mark) (items : List Written)
  | mapping (anchor : Option Nat) (mark : Mark) (entries : List (Written × Written))

namespace Written

/-- Everything that holds of a written node when it holds of its parts holds of all. -/
theorem induct {P : Written → Prop} (reference : ∀ id mark, P (.reference id mark))
    (scalar : ∀ text style anchor isText mark, P (.scalar text style anchor isText mark))
    (sequence : ∀ anchor mark ws, (∀ w ∈ ws, P w) → P (.sequence anchor mark ws))
    (mapping : ∀ anchor mark es, (∀ e ∈ es, P e.1 ∧ P e.2) → P (.mapping anchor mark es)) :
    ∀ w, P w :=
  fun w => Written.rec (motive_1 := P) (motive_2 := fun ws => ∀ w ∈ ws, P w)
    (motive_3 := fun es => ∀ e ∈ es, P e.1 ∧ P e.2) (motive_4 := fun e => P e.1 ∧ P e.2)
    reference scalar (fun anchor mark ws h => sequence anchor mark ws h)
    (fun anchor mark es h => mapping anchor mark es h)
    (fun _ hw => nomatch hw) (fun _ _ h hs => List.forall_mem_cons.2 ⟨h, hs⟩)
    (fun _ he => nomatch he) (fun _ _ h hs => List.forall_mem_cons.2 ⟨h, hs⟩)
    (fun _ _ hk hv => ⟨hk, hv⟩) w

/-- The anchor that is set on the node.  An alias sets none. -/
def anchor? : Written → Option Nat
  | reference _ _ => none
  | scalar _ _ anchor _ _ | sequence anchor _ _ | mapping anchor _ _ => anchor

/-- A plain scalar that stands for nothing. -/
def isAbsent (source : Source) : Written → Bool
  | scalar text style _ isText mark => !isText && Builder.isAbsent source text style mark
  | _ => false

mutual
/-- The events that describe the node. -/
def events : Written → List Event
  | reference anchor mark => [.alias anchor mark]
  | scalar text style anchor isText mark => [.scalar text style anchor isText mark]
  | sequence anchor mark ws => .sequenceStart anchor mark :: (eventsItems ws ++ [.sequenceEnd])
  | mapping anchor mark es => .mappingStart anchor mark :: (eventsEntries es ++ [.mappingEnd])
def eventsItems : List Written → List Event
  | [] => []
  | w :: ws => w.events ++ eventsItems ws
def eventsEntries : List (Written × Written) → List Event
  | [] => []
  | (k, v) :: es => k.events ++ (v.events ++ eventsEntries es)
end

/-- What holds of no events, and of rows together, holds of the items' events. -/
theorem eventsItems_of {P : List Event → Prop} (nil : P [])
    (append : ∀ {xs ys}, P xs → P ys → P (xs ++ ys)) {ws : List Written}
    (h : ∀ w ∈ ws, P w.events) : P (eventsItems ws) := by
  induction ws with
  | nil => exact nil
  | cons w ws ih =>
      rw [List.forall_mem_cons] at h
      exact append h.1 (ih h.2)

theorem eventsEntries_of {P : List Event → Prop} (nil : P [])
    (append : ∀ {xs ys}, P xs → P ys → P (xs ++ ys)) {es : List (Written × Written)}
    (h : ∀ e ∈ es, P e.1.events ∧ P e.2.events) : P (eventsEntries es) := by
  induction es with
  | nil => exact nil
  | cons e es ih =>
      rw [List.forall_mem_cons] at h
      exact append h.1.1 (append h.1.2 (ih h.2))

end Written

/-- The events of a stream: every document is one node between its start and its end. -/
def streamEvents (ds : List Written) : List Event :=
  ds.flatMap fun w => .documentStart :: (w.events ++ [.documentEnd])

theorem streamEvents_cons (w : Written) (ds : List Written) :
    streamEvents (w :: ds) =
      .documentStart :: (w.events ++ .documentEnd :: streamEvents ds) := by
  simp [streamEvents]

/-! ### Open collections -/

namespace Event

/-- A collection begins. -/
def opens : Event → Bool
  | sequenceStart _ _ | mappingStart _ _ => true
  | _ => false

/-- A collection ends. -/
def closes : Event → Bool
  | sequenceEnd | mappingEnd => true
  | _ => false

/-- A document begins or ends. -/
def separates : Event → Bool
  | documentStart | documentEnd => true
  | _ => false

/-- A node is complete. -/
def completes (e : Event) : Bool :=
  !e.opens && !e.separates

end Event

/-- After these events some collection is open. -/
def InsideCollection (es : List Event) : Prop :=
  es.countP Event.closes < es.countP Event.opens

/-- As many collections have ended as have begun. -/
def Balanced (es : List Event) : Prop :=
  es.countP Event.closes = es.countP Event.opens

namespace Balanced

theorem nil : Balanced [] := rfl

theorem append {xs ys : List Event} (hx : Balanced xs) (hy : Balanced ys) :
    Balanced (xs ++ ys) := by
  unfold Balanced at *
  rw [List.countP_append, List.countP_append, hx, hy]

theorem events : ∀ w : Written, Balanced w.events := by
  intro w
  induction w using Written.induct with
  | reference id mark => rfl
  | scalar text style anchor isText mark => rfl
  | sequence anchor mark ws ih =>
      have hws := Written.eventsItems_of nil append ih
      unfold Balanced at *
      simp [Written.events, List.countP_append, List.countP_cons, Event.opens, Event.closes, hws]
  | mapping anchor mark es ih =>
      have hes := Written.eventsEntries_of nil append ih
      unfold Balanced at *
      simp [Written.events, List.countP_append, List.countP_cons, Event.opens, Event.closes, hes]

theorem cons {e : Event} {es : List Event} (he : e.separates = true) (h : Balanced es) :
    Balanced (e :: es) := by
  have hone : Balanced [e] := by
    cases e with
    | documentStart | documentEnd => rfl
    | _ => cases he
  exact append hone h

end Balanced

/-- No document begins or ends among these events. -/
def Undivided (es : List Event) : Prop :=
  ∀ e ∈ es, e.separates = false

namespace Undivided

theorem nil : Undivided [] := by
  intro e he
  cases he

theorem append {xs ys : List Event} (hx : Undivided xs) (hy : Undivided ys) :
    Undivided (xs ++ ys) := by
  intro e he
  exact (List.mem_append.mp he).elim (hx e) (hy e)

theorem singleton {e : Event} (h : e.separates = false) : Undivided [e] := by
  intro f hf
  rw [List.mem_singleton.mp hf, h]

theorem events : ∀ w : Written, Undivided w.events := by
  intro w
  induction w using Written.induct with
  | reference id mark => exact singleton rfl
  | scalar text style anchor isText mark => exact singleton rfl
  | sequence anchor mark ws ih =>
      exact (singleton rfl).append ((Written.eventsItems_of nil append ih).append (singleton rfl))
  | mapping anchor mark es ih =>
      exact (singleton rfl).append ((Written.eventsEntries_of nil append ih).append (singleton rfl))

end Undivided

/-- At the end of a document every collection has ended. -/
theorem balanced_of_documentEnd :
    ∀ {ds : List Written} {pre post : List Event},
      streamEvents ds = pre ++ .documentEnd :: post → Balanced pre := by
  intro ds
  induction ds with
  | nil => intro pre post h; simp [streamEvents] at h
  | cons w ds ih =>
      intro pre post h
      rw [streamEvents_cons, ← List.cons_append] at h
      rcases List.append_eq_append_iff.mp h with ⟨rest, hpre, hrest⟩ | ⟨rest, hpre, hrest⟩
      · cases rest with
        | nil =>
            rw [hpre, List.append_nil]
            exact .cons rfl (.events w)
        | cons e rest =>
            rw [List.cons_append, List.cons.injEq] at hrest
            obtain ⟨rfl, hrest⟩ := hrest
            rw [hpre]
            exact .append (.cons rfl (.events w)) (.cons rfl (ih hrest))
      · -- the end of the document would have to lie inside its node
        cases rest with
        | nil =>
            rw [List.append_nil] at hpre
            rw [← hpre]
            exact .cons rfl (.events w)
        | cons e rest =>
            rw [List.cons_append, List.cons.injEq] at hrest
            have hmem : e ∈ Event.documentStart :: w.events := by
              rw [hpre]
              simp
            rw [← hrest.1, List.mem_cons] at hmem
            rcases hmem with hmem | hmem
            · cases hmem
            · cases Undivided.events w _ hmem

/-! ### Complete nodes -/

/-- Wherever a node is complete, the events up to there end with the events of one tree. -/
def Closing (es : List Event) : Prop :=
  ∀ p e, p ++ [e] <+: es → e.completes = true → ∃ a w, p ++ [e] = a ++ Written.events w

namespace Closing

theorem nil : Closing [] := by
  intro p e h
  simp at h

theorem append {xs ys : List Event} (hx : Closing xs) (hy : Closing ys) : Closing (xs ++ ys) := by
  intro p e h he
  rcases List.prefix_or_prefix_of_prefix h (List.prefix_append xs ys) with hle | ⟨t, ht⟩
  · exact hx p e hle he
  · rw [← ht, List.prefix_append_right_inj] at h
    rcases List.eq_nil_or_concat t with rfl | ⟨q, f, rfl⟩
    · rw [List.append_nil] at ht
      exact hx p e (ht ▸ List.prefix_refl _) he
    · rw [List.concat_eq_append] at h ht
      rw [← List.append_assoc] at ht
      obtain ⟨hp, hfe⟩ := List.append_inj' ht rfl
      cases hfe
      obtain ⟨a, w, haw⟩ := hy q e h he
      exact ⟨xs ++ a, w, by rw [← hp, List.append_assoc, haw, List.append_assoc]⟩

theorem singleton {e : Event} (h : e.completes = false) : Closing [e] := by
  intro p f hpf hf
  have hmem : f ∈ [e] := hpf.subset (by simp)
  rw [List.mem_singleton.mp hmem, h] at hf
  cases hf

/-- A row that ends with a whole tree. -/
theorem concat (w : Written) {es : List Event} {e : Event} (h : Closing es)
    (hw : es ++ [e] = w.events) : Closing (es ++ [e]) := by
  intro p f hpf hf
  rcases List.prefix_concat_iff.mp hpf with heq | hlt
  · exact ⟨[], w, by rw [heq, hw, List.nil_append]⟩
  · exact h p f hlt hf

theorem events : ∀ w : Written, Closing w.events := by
  intro w
  induction w using Written.induct with
  | reference id mark => exact concat (.reference id mark) nil rfl
  | scalar text style anchor isText mark =>
      exact concat (.scalar text style anchor isText mark) nil rfl
  | sequence anchor mark ws ih =>
      have hopen : Closing (.sequenceStart anchor mark :: Written.eventsItems ws) :=
        (singleton rfl).append (Written.eventsItems_of nil append ih)
      exact concat (.sequence anchor mark ws) hopen rfl
  | mapping anchor mark es ih =>
      have hopen : Closing (.mappingStart anchor mark :: Written.eventsEntries es) :=
        (singleton rfl).append (Written.eventsEntries_of nil append ih)
      exact concat (.mapping anchor mark es) hopen rfl

theorem stream : ∀ ds : List Written, Closing (streamEvents ds) := by
  intro ds
  induction ds with
  | nil => exact nil
  | cons w ds ih =>
      rw [streamEvents_cons]
      exact (singleton rfl).append ((events w).append ((singleton rfl).append ih))

end Closing

/-- **A node that is complete is written in full just before.** -/
theorem exists_of_completes {ds : List Written} {p post : List Event} {e : Event}
    (h : streamEvents ds = p ++ e :: post) (he : e.completes = true) :
    ∃ a w, p ++ [e] = a ++ Written.events w :=
  Closing.stream ds p e ⟨post, by rw [h, List.append_assoc, List.singleton_append]⟩ he

/-- The last event completes a node with this anchor.  A document of nothing at all has no
node. -/
def Completes (source : Source) (id : Nat) (es : List Event) : Prop :=
  ∃ a w, es = a ++ Written.events w ∧ w.anchor? = some id ∧
    (w.isAbsent source = true → InsideCollection a)

/-- A node with this anchor has been completed. -/
def Completed (source : Source) (id : Nat) (es : List Event) : Prop :=
  ∃ p, p <+: es ∧ Completes source id p

theorem Completed.append {source : Source} {id : Nat} {es : List Event}
    (h : Completed source id es) (fs : List Event) : Completed source id (es ++ fs) := by
  obtain ⟨p, hp, hcompletes⟩ := h
  exact ⟨p, hp.trans (List.prefix_append es fs), hcompletes⟩

end YamlDelta.Markup
