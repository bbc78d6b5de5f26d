/-
How the tokens of a node become its events.

The reader keeps its expectations on a stack, and while it reads a node it has no regard to
what is below the topmost one, nor to the tokens after the node.  So it can be said of tokens
alone that a node is read from them, in whatever state the reader is (`Yields`).  This is
shown for a scalar, an empty collection and the blocks of items and entries; these are all
the tokens that block style has.
-/
import YamlDelta.Markup.Event.Reader
import YamlDelta.Proofs.Markup.Nesting

namespace YamlDelta.Markup

/-- A node begins with this token. -/
def Lexeme.beginsNode : Lexeme → Bool
  | .scalar _ _ | .flowSequenceStart | .flowMappingStart | .blockSequenceStart
  | .blockMappingStart => true
  | _ => false

namespace Reader

/-! ### Runs of the reader -/

/-- The reader makes these events, one in each step. -/
inductive Emits : Reader → List Event → Reader → Prop
  | refl (r : Reader) : Emits r [] r
  | step {r s t : Reader} {x : Expectation} {e : Event} {es : List Event}
      (hx : r.expected.head? = some x) (h : r.step x = .ok (some e, s)) (hs : Emits s es t) :
      Emits r (e :: es) t

theorem Emits.trans {r s t : Reader} {es fs : List Event} (h : Emits r es s) (h' : Emits s fs t) :
    Emits r (es ++ fs) t := by
  induction h with
  | refl r => exact h'
  | step hx h hs ih => exact .step hx h (ih h')

/-- Events that are made one in each step are there with enough fuel. -/
theorem Emits.events_eq {r s : Reader} {es : List Event} (h : Emits r es s) (fuel : Nat) :
    r.events (es.length + fuel) = (s.events fuel).map (es ++ ·) := by
  induction h with
  | refl r =>
      rw [List.length_nil, Nat.zero_add]
      cases r.events fuel <;> rfl
  | @step r s t x e es hx h hs ih =>
      obtain ⟨E, hE⟩ := List.head?_eq_some_iff.mp hx
      rw [List.length_cons, Nat.succ_add, events, hE]
      dsimp only
      rw [h]
      show (s.events (es.length + fuel)).bind _ = _
      rw [ih]
      cases t.events fuel <;> rfl

/-- The same reader before other tokens and with other expectations. -/
def before (r : Reader) (ts : List Token) (E : List Expectation) : Reader :=
  { r with tokens := ts, expected := E }

end Reader

open Reader

variable {r : Reader} {ts us rest : List Token} {E : List Expectation} {w : Written}
  {ws : List Written} {ps : List (Written × Written)} {m m' : Mark}

/-- A node is read from these tokens, wherever one is expected. -/
structure Yields (ts : List Token) (w : Written) : Prop where
  begins : ∃ t us, ts = t :: us ∧ t.lexeme.beginsNode = true
  length_le : w.events.length ≤ ts.length
  read : ∀ (r : Reader) (rest : List Token) (x : Expectation) (E : List Expectation)
    (indentless : Bool), ∃ e es s, w.events = e :: es ∧
      (r.before (ts ++ rest) (x :: E)).node true indentless = .ok (e, s) ∧
      Emits s es (r.before rest E)

/-- A node without properties is its content. -/
theorem node_eq_nodeContent {t : Token} (h : t.lexeme.beginsNode = true) (block indentless : Bool) :
    (r.before (t :: ts) E).node block indentless =
      (r.before (t :: ts) E).nodeContent block indentless ⟨none, none⟩ := by
  obtain ⟨m, l⟩ := t
  cases l <;> first | rfl | cases h

/-! ### Leaves -/

theorem yields_scalar (m : Mark) (style : Style) (text : String) :
    Yields [⟨m, .scalar style text⟩] (.scalar text style none false m) where
  begins := ⟨_, _, rfl, rfl⟩
  length_le := Nat.le_refl _
  read r rest x E indentless := by
    refine ⟨_, _, _, rfl, node_eq_nodeContent rfl true indentless, ?_⟩
    exact .refl _

theorem yields_emptySequence (m m' : Mark) :
    Yields [⟨m, .flowSequenceStart⟩, ⟨m', .flowSequenceEnd⟩] (.sequence none m []) where
  begins := ⟨_, _, rfl, rfl⟩
  length_le := Nat.le_refl _
  read r rest x E indentless := by
    refine ⟨_, _, _, rfl, node_eq_nodeContent rfl true indentless, ?_⟩
    exact .step (x := .flowEntry true) rfl rfl (.refl _)

theorem yields_emptyMapping (m m' : Mark) :
    Yields [⟨m, .flowMappingStart⟩, ⟨m', .flowMappingEnd⟩] (.mapping none m []) where
  begins := ⟨_, _, rfl, rfl⟩
  length_le := Nat.le_refl _
  read r rest x E indentless := by
    refine ⟨_, _, _, rfl, node_eq_nodeContent rfl true indentless, ?_⟩
    exact .step (x := .flowKey true) rfl rfl (.refl _)

/-! ### Blocks of items -/

/-- Items are read from these tokens. -/
inductive YieldsItems : List Token → List Written → Prop
  | nil : YieldsItems [] []
  | cons {ts us : List Token} {w : Written} {ws : List Written} {m : Mark} (h : Yields ts w)
      (hs : YieldsItems us ws) : YieldsItems (⟨m, .blockEntry⟩ :: (ts ++ us)) (w :: ws)

theorem YieldsItems.length_le (h : YieldsItems ts ws) :
    (Written.eventsItems ws).length ≤ ts.length := by
  induction h with
  | nil => exact Nat.le_refl _
  | cons h hs ih =>
      have hlength := h.length_le
      rw [Written.eventsItems, List.length_append, List.length_cons, List.length_append]
      omega

/-- After the hyphen of an item a node is expected.  The first item comes after the token that opens
the block. -/
theorem blockEntry_eq {lead : List Token} {first : Bool} (hlead : lead.length = first.toNat)
    (h : Yields ts w) :
    (r.before (lead ++ ⟨m, .blockEntry⟩ :: (ts ++ rest)) (.blockEntry first :: E)).blockEntry
        first =
      (r.before (ts ++ rest) (.blockNode :: .blockEntry false :: E)).node true false := by
  obtain ⟨⟨m', l⟩, us, rfl, hl⟩ := h.begins
  cases first with
  | false =>
      obtain rfl := List.length_eq_zero_iff.mp hlead
      cases l <;> first | rfl | cases hl
  | true =>
      obtain ⟨t, rfl⟩ := List.length_eq_one_iff.mp hlead
      cases l <;> first | rfl | cases hl

theorem emits_items (h : YieldsItems ts ws) (lead : List Token) (first : Bool)
    (hlead : lead.length = first.toNat) :
    Emits (r.before (lead ++ (ts ++ ⟨m, .blockEnd⟩ :: rest)) (.blockEntry first :: E))
      (Written.eventsItems ws ++ [.sequenceEnd]) (r.before rest E) := by
  induction h generalizing lead first with
  | nil =>
      refine .step (x := .blockEntry first) rfl ?_ (.refl _)
      cases first with
      | false =>
          obtain rfl := List.length_eq_zero_iff.mp hlead
          rfl
      | true =>
          obtain ⟨t, rfl⟩ := List.length_eq_one_iff.mp hlead
          rfl
  | @cons ts us w ws m' h hs ih =>
      obtain ⟨e, es, s, hevents, hnode, hemits⟩ :=
        h.read r (us ++ ⟨m, .blockEnd⟩ :: rest) .blockNode (.blockEntry false :: E) false
      have hrest := hemits.trans (ih [] false rfl)
      rw [Written.eventsItems, hevents, List.append_assoc, List.cons_append, List.cons_append,
        List.append_assoc]
      refine .step (x := .blockEntry first) rfl ?_ hrest
      have hstep := (blockEntry_eq (m := m') hlead h).trans hnode
      show Reader.step.some' (Reader.blockEntry first _) = _
      rw [hstep]
      rfl

/-- A block of items. -/
theorem yields_sequence (h : YieldsItems ts ws) (m m' : Mark) :
    Yields (⟨m, .blockSequenceStart⟩ :: (ts ++ [⟨m', .blockEnd⟩])) (.sequence none m ws) where
  begins := ⟨_, _, rfl, rfl⟩
  length_le := by
    have hlength := h.length_le
    rw [Written.events, List.length_cons, List.length_cons, List.length_append, List.length_append]
    exact Nat.succ_le_succ (Nat.add_le_add_right hlength 1)
  read r rest x E indentless := by
    have htokens : ⟨m, .blockSequenceStart⟩ :: (ts ++ [⟨m', .blockEnd⟩]) ++ rest =
        [⟨m, .blockSequenceStart⟩] ++ (ts ++ ⟨m', .blockEnd⟩ :: rest) := by simp
    rw [htokens]
    refine ⟨_, _, _, rfl, node_eq_nodeContent rfl true indentless, ?_⟩
    exact emits_items h [_] true rfl

/-! ### Blocks of entries -/

/-- Entries with scalar keys are read from these tokens. -/
inductive YieldsEntries : List Token → List (Written × Written) → Prop
  | nil : YieldsEntries [] []
  | cons {ts us : List Token} {w : Written} {ps : List (Written × Written)} {style : Style}
      {text : String} {m m' m'' : Mark} (h : Yields ts w) (hs : YieldsEntries us ps) :
      YieldsEntries (⟨m, .key⟩ :: ⟨m', .scalar style text⟩ :: ⟨m'', .value⟩ :: (ts ++ us))
        ((.scalar text style none false m', w) :: ps)

theorem YieldsEntries.length_le (h : YieldsEntries ts ps) :
    (Written.eventsEntries ps).length ≤ ts.length := by
  induction h with
  | nil => exact Nat.le_refl _
  | cons h hs ih =>
      have hlength := h.length_le
      rw [Written.eventsEntries, Written.events, List.length_append, List.length_append,
        List.length_singleton, List.length_cons, List.length_cons, List.length_cons,
        List.length_append]
      omega

/-- The key of an entry.  The first entry comes after the token that opens the block. -/
theorem blockKey_eq {lead : List Token} {first : Bool} (hlead : lead.length = first.toNat)
    (style : Style) (text : String) :
    (r.before (lead ++ ⟨m, .key⟩ :: ⟨m', .scalar style text⟩ :: ts) (.blockKey first :: E)).blockKey
        first =
      .ok (.scalar text style none false m', r.before ts (.blockValue :: E)) := by
  cases first with
  | false =>
      obtain rfl := List.length_eq_zero_iff.mp hlead
      rfl
  | true =>
      obtain ⟨t, rfl⟩ := List.length_eq_one_iff.mp hlead
      rfl

/-- After a key and its colon a node is expected. -/
theorem blockValue_eq (h : Yields ts w) :
    (r.before (⟨m, .value⟩ :: (ts ++ rest)) (.blockValue :: E)).blockValue =
      (r.before (ts ++ rest) (.blockNode :: .blockKey false :: E)).node true true := by
  obtain ⟨⟨m', l⟩, us, rfl, hl⟩ := h.begins
  cases l <;> first | rfl | cases hl

theorem emits_entries (h : YieldsEntries ts ps) (lead : List Token) (first : Bool)
    (hlead : lead.length = first.toNat) :
    Emits (r.before (lead ++ (ts ++ ⟨m, .blockEnd⟩ :: rest)) (.blockKey first :: E))
      (Written.eventsEntries ps ++ [.mappingEnd]) (r.before rest E) := by
  induction h generalizing lead first with
  | nil =>
      refine .step (x := .blockKey first) rfl ?_ (.refl _)
      cases first with
      | false =>
          obtain rfl := List.length_eq_zero_iff.mp hlead
          rfl
      | true =>
          obtain ⟨t, rfl⟩ := List.length_eq_one_iff.mp hlead
          rfl
  | @cons ts us w ps style text m₁ m₂ m₃ h hs ih =>
      obtain ⟨e, es, s, hevents, hnode, hemits⟩ :=
        h.read r (us ++ ⟨m, .blockEnd⟩ :: rest) .blockNode (.blockKey false :: E) true
      have hrest := hemits.trans (ih [] false rfl)
      have hstep : Emits (r.before (⟨m₃, .value⟩ :: (ts ++ (us ++ ⟨m, .blockEnd⟩ :: rest)))
          (.blockValue :: E)) (e :: (es ++ (Written.eventsEntries ps ++ [.mappingEnd])))
          (r.before rest E) := by
        refine .step (x := .blockValue) rfl ?_ hrest
        show Reader.step.some' (Reader.blockValue _) = _
        rw [(blockValue_eq h).trans hnode]
        rfl
      have hall : (Written.eventsEntries ((.scalar text style none false m₂, w) :: ps) ++
          [Event.mappingEnd]) = .scalar text style none false m₂ ::
            e :: (es ++ (Written.eventsEntries ps ++ [.mappingEnd])) := by
        rw [Written.eventsEntries, hevents]
        simp [Written.events]
      rw [hall, List.cons_append, List.cons_append, List.cons_append, List.append_assoc]
      refine .step (x := .blockKey first) rfl ?_ hstep
      show Reader.step.some' (Reader.blockKey first _) = _
      rw [blockKey_eq hlead]
      rfl

/-- A block of entries. -/
theorem yields_mapping (h : YieldsEntries ts ps) (m m' : Mark) :
    Yields (⟨m, .blockMappingStart⟩ :: (ts ++ [⟨m', .blockEnd⟩])) (.mapping none m ps) where
  begins := ⟨_, _, rfl, rfl⟩
  length_le := by
    have hlength := h.length_le
    rw [Written.events, List.length_cons, List.length_cons, List.length_append, List.length_append]
    exact Nat.succ_le_succ (Nat.add_le_add_right hlength 1)
  read r rest x E indentless := by
    have htokens : ⟨m, .blockMappingStart⟩ :: (ts ++ [⟨m', .blockEnd⟩]) ++ rest =
        [⟨m, .blockMappingStart⟩] ++ (ts ++ ⟨m', .blockEnd⟩ :: rest) := by simp
    rw [htokens]
    refine ⟨_, _, _, rfl, node_eq_nodeContent rfl true indentless, ?_⟩
    exact emits_entries h [_] true rfl

/-! ### A document -/

/-- **The tokens of a node make a stream of one document**, however nodes that are left out are
reported. -/
theorem ofScan_eq {scan : Scan} {omitted : Omitted} {t : Token} (h : Yields ts w)
    (hscan : scan.tokens = t :: (ts ++ [⟨m, .streamEnd⟩])) :
    Event.ofScan scan omitted = .ok (streamEvents [w]) := by
  obtain ⟨⟨m', l⟩, us, rfl, hl⟩ := h.begins
  -- the document begins, its node is read, and it ends
  obtain ⟨r, hr, hbegin⟩ : ∃ r : Reader, Reader.ofScan scan omitted = r ∧
      r.expected = [.implicitDocument] ∧ r.step .implicitDocument = .ok (some .documentStart,
        r.before (⟨m', l⟩ :: us ++ [⟨m, .streamEnd⟩]) [.blockNode, .documentEnd]) := by
    refine ⟨_, rfl, rfl, ?_⟩
    unfold Reader.ofScan
    rw [hscan]
    cases l <;> first | rfl | cases hl
  obtain ⟨e, es, s, hevents, hnode, hemits⟩ :=
    h.read r [⟨m, .streamEnd⟩] .blockNode [.documentEnd] false
  have hend : Emits (r.before [⟨m, .streamEnd⟩] [.documentEnd]) [.documentEnd]
      { r.before [⟨m, .streamEnd⟩] [.document] with handle := none } :=
    .step (x := .documentEnd) rfl rfl (.refl _)
  have hall : Emits r (streamEvents [w])
      { r.before [⟨m, .streamEnd⟩] [.document] with handle := none } := by
    have hexpected : r.expected.head? = some .implicitDocument := by rw [hbegin.1]; rfl
    rw [streamEvents_cons, hevents]
    refine .step hexpected hbegin.2 (.step (x := .blockNode) rfl ?_ (hemits.trans hend))
    show Reader.step.some' (Reader.node true false _) = _
    rw [hnode]
    rfl
  have hfuel : ∃ fuel, 8 * scan.tokens.length + 16 = (streamEvents [w]).length + (fuel + 2) := by
    have hlength := h.length_le
    refine ⟨8 * scan.tokens.length + 14 - (streamEvents [w]).length, ?_⟩
    rw [hscan, streamEvents_cons]
    simp [streamEvents] at hlength ⊢
    omega
  obtain ⟨fuel, hfuel⟩ := hfuel
  rw [Event.ofScan, hfuel, hr, hall.events_eq]
  show Except.ok (streamEvents [w] ++ []) = _
  rw [List.append_nil]

end YamlDelta.Markup
