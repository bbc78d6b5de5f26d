/-
The first scalar of a text and the first key of its document.

If a text is read as one document, what its first tokens are decides how that begins: with a scalar
at the very front it is that scalar, and with the tokens of a key in front of the scalar it is a
mapping whose first key has the scalar's text, whatever comes afterwards.
-/
import YamlDelta.Proofs.Markup.Collections
import YamlDelta.Proofs.Markup.Expected
import YamlDelta.Proofs.Markup.Lasting

namespace YamlDelta.Markup

open Written

/-! ### The first document -/

namespace Builder

variable {source : Source} {b b' : Builder} {e : Event} {es : List Event}

theorem documents_complete (anchor : Option Nat) (n : Node) (b : Builder) :
    (b.complete anchor n).documents = b.documents := by
  unfold complete attach setKey
  rw [remember_eq]
  repeat' split
  all_goals rfl

/-- Documents are only added where one ends. -/
theorem documents_step (he : e ≠ .documentEnd) (h : b.step source e = .ok b') :
    b'.documents = b.documents := by
  cases e with
  | documentEnd => exact absurd rfl he
  | documentStart =>
      cases h
      rfl
  | «alias» id mark =>
      simp only [Builder.step, copyAnchored] at h
      split at h
      · cases h
      · cases h
        exact documents_complete _ _ _
  | scalar text style anchor isText mark =>
      simp only [Builder.step] at h
      split at h
      · cases h
        unfold Builder.scalarKey setKey
        rw [remember_eq]
        split <;> rfl
      · cases h
        unfold Builder.scalar
        dsimp only
        split
        · rfl
        · exact documents_complete _ _ _
  | sequenceStart anchor mark | mappingStart anchor mark =>
      cases h
      rfl
  | sequenceEnd =>
      simp only [Builder.step, endSequence] at h
      repeat' split at h
      all_goals cases h
      exact documents_complete _ _ _
  | mappingEnd =>
      simp only [Builder.step, endMapping] at h
      repeat' split at h
      all_goals cases h
      exact documents_complete _ _ _

/-- No document is ever taken back, and none is added before one ends. -/
theorem documents_run (h : run source b es = .ok b') :
    b.documents.toList <+: b'.documents.toList ∧
      (.documentEnd ∉ es → b'.documents = b.documents) := by
  induction es generalizing b with
  | nil =>
      cases h
      exact ⟨List.prefix_rfl, fun _ => rfl⟩
  | cons e es ih =>
      rw [← List.singleton_append] at h
      obtain ⟨b₁, he, hes⟩ := exists_of_run_append h
      rw [run_singleton] at he
      obtain ⟨hle, hsame⟩ := ih hes
      by_cases hend : e = .documentEnd
      · subst hend
        cases he
        refine ⟨List.IsPrefix.trans ?_ hle, fun h => absurd List.mem_cons_self h⟩
        rw [Array.toList_push]
        exact List.prefix_append _ _
      · have hstep := documents_step hend he
        rw [← hstep]
        exact ⟨hle, fun h => hsame fun hmem => h (List.mem_cons_of_mem e hmem)⟩

end Builder

variable {scan : Scan} {source : Source} {es : List Event} {d v : Node} {w : Written}
  {ds : List Written} {anchor anchor' : Option Nat} {m m' : Mark} {style : Style} {isText : Bool}
  {text k : String} {p : Place} {known known' : Anchors}

/-- If a document ends among the first events of a stream, they hold the whole first document. -/
theorem exists_first_of_documentEnd (hes : es <+: streamEvents ds) (hend : .documentEnd ∈ es) :
    ∃ w ds' fs, ds = w :: ds' ∧ es = .documentStart :: (w.events ++ [.documentEnd]) ++ fs := by
  cases ds with
  | nil =>
      rw [List.prefix_nil.mp hes] at hend
      cases hend
  | cons w ds =>
      have hall : .documentStart :: (w.events ++ [.documentEnd]) <+: streamEvents (w :: ds) :=
        ⟨streamEvents ds, by rw [streamEvents_cons]; simp⟩
      rcases List.prefix_or_prefix_of_prefix hall hes with ⟨fs, rfl⟩ | hle
      · exact ⟨w, ds, fs, rfl, rfl⟩
      · rw [← List.cons_append] at hle
        rcases List.prefix_concat_iff.mp hle with rfl | hlt
        · exact ⟨w, ds, [], rfl, (List.append_nil _).symm⟩
        · -- no document ends inside of the first one
          have hmem := hlt.subset hend
          rw [List.mem_cons] at hmem
          exact hmem.elim nofun fun hmem => by cases Undivided.events w _ hmem

theorem documents_of_stream {b : Builder} (h : b.stream = .ok ⟨[some d]⟩) :
    b.documents.toList = [some d] := by
  unfold Builder.stream at h
  split at h
  · cases h
  · split at h
    · cases h
    · exact congrArg Stream.documents (Except.ok.inj h)

theorem node_of_document (h : w.document source [] = .ok (some d, known)) :
    w.node source "" [] = .ok (d, known) := by
  unfold Written.document at h
  split at h
  · cases h
  · cases hnode : w.node source "" [] with
    | error id =>
        rw [hnode] at h
        cases h
    | ok r =>
        rw [hnode] at h
        cases h
        rfl

/-- If the events of a text are built into one document, that is what the first tree describes. -/
theorem exists_node_of_ofEvents (hes : es <+: streamEvents ds)
    (h : ofEvents source es = .ok ⟨[some d]⟩) :
    ∃ w ds' known, ds = w :: ds' ∧ w.node source "" [] = .ok (d, known) := by
  obtain ⟨b, hrun, hb⟩ := exists_of_bind_ok h
  have hdocuments : b.documents.toList = [some d] := documents_of_stream hb
  have hend : .documentEnd ∈ es := Classical.byContradiction fun hnot => by
    rw [(Builder.documents_run hrun).2 hnot] at hdocuments
    cases hdocuments
  obtain ⟨w, ds', fs, rfl, rfl⟩ := exists_first_of_documentEnd hes hend
  obtain ⟨b₁, hdocument, hrest⟩ := exists_of_run_append hrun
  rw [show Builder.empty = ⟨#[], none, [], []⟩ from rfl, run_document] at hdocument
  obtain ⟨⟨o, known⟩, hw, rfl⟩ := exists_of_resolved_ok hdocument
  obtain ⟨rest, hle⟩ := (Builder.documents_run hrest).1
  rw [hdocuments] at hle
  obtain rfl : o = some d := (List.cons.inj hle).1
  exact ⟨w, ds', known, rfl, node_of_document hw⟩

/-- The first event of a tree tells what it is. -/
theorem scalar_of_events {fs gs : List Event}
    (h : w.events ++ fs = .scalar text style anchor isText m :: gs) :
    w = .scalar text style anchor isText m := by
  cases w with
  | scalar =>
      obtain ⟨heq, -⟩ := List.cons.inj h
      cases heq
      rfl
  | reference | sequence | mapping =>
      obtain ⟨heq, -⟩ := List.cons.inj h
      cases heq

/-- A mapping that begins with a scalar has this as its first key. -/
theorem mapping_of_events {fs gs : List Event}
    (h : w.events ++ fs = .mappingStart anchor m :: .scalar text style anchor' isText m' :: gs) :
    ∃ u ps, w = .mapping anchor m ((.scalar text style anchor' isText m', u) :: ps) := by
  cases w with
  | mapping a n ps =>
      obtain ⟨heq, hrest⟩ := List.cons.inj h
      cases heq
      cases ps with
      | nil =>
          obtain ⟨heq, -⟩ := List.cons.inj hrest
          cases heq
      | cons q ps =>
          obtain ⟨k, u⟩ := q
          have hkey : k.events ++ (u.events ++ (eventsEntries ps ++ .mappingEnd :: fs)) =
              .scalar text style anchor' isText m' :: gs := by
            rw [← hrest]
            simp [eventsEntries]
          exact ⟨u, ps, by rw [scalar_of_events hkey]⟩
  | reference | sequence | scalar =>
      obtain ⟨heq, -⟩ := List.cons.inj h
      cases heq

/-- A document that begins with a scalar is that scalar. -/
theorem exists_scalar_of_events
    (hevents : Event.ofScan scan =
      .ok (.documentStart :: .scalar text style anchor isText m :: es))
    (h : ofEvents source (.documentStart :: .scalar text style anchor isText m :: es) =
      .ok ⟨[some d]⟩) : ∃ v p, d = .scalar v p := by
  obtain ⟨ds, hds⟩ := exists_streamEvents hevents
  obtain ⟨w, ds, known, rfl, hw⟩ := exists_node_of_ofEvents hds h
  obtain ⟨fs, hfs⟩ := hds
  rw [streamEvents_cons] at hfs
  obtain rfl := scalar_of_events (List.cons.inj hfs).2.symm
  cases hw
  exact ⟨_, _, rfl⟩

/-- A document that begins with a mapping and a scalar is a mapping that has the scalar as its first
key. -/
theorem exists_firstKey_of_events
    (hevents : Event.ofScan scan = .ok (.documentStart :: .mappingStart anchor m ::
      .scalar text style anchor' isText m' :: es))
    (h : ofEvents source (.documentStart :: .mappingStart anchor m ::
      .scalar text style anchor' isText m' :: es) = .ok ⟨[some d]⟩) :
    ∃ v fs p, d = .mapping ((text, v) :: fs) p := by
  obtain ⟨ds, hds⟩ := exists_streamEvents hevents
  obtain ⟨w, ds, known, rfl, hw⟩ := exists_node_of_ofEvents hds h
  obtain ⟨fs, hfs⟩ := hds
  rw [streamEvents_cons] at hfs
  obtain ⟨u, ps, rfl⟩ := mapping_of_events (List.cons.inj hfs).2.symm
  obtain ⟨fs, known₁, hentries, hd, -⟩ := exists_of_mapping_ok hw
  obtain ⟨key, known₂, n, known₃, gs, hkey, -, -, rfl⟩ := exists_of_entries_ok hentries
  cases hkey
  exact ⟨n, gs, _, hd⟩

/-! ### The first tokens -/

variable {t : Token} {lead : List Token}

/-- What the reader has made comes first. -/
theorem exists_events_of_emits {r : Reader} {before : List Event}
    (hemits : (Reader.ofScan scan).Emits before r) (hbefore : before.length ≤ 16)
    (hevents : Event.ofScan scan = .ok es) : ∃ after, es = before ++ after := by
  obtain ⟨fuel, hfuel⟩ : ∃ fuel, 8 * scan.tokens.length + 16 = before.length + fuel :=
    Nat.exists_eq_add_of_le (by omega)
  rw [Event.ofScan, hfuel, hemits.events_eq] at hevents
  cases hafter : r.events fuel with
  | error e =>
      rw [hafter] at hevents
      cases hevents
  | ok after =>
      rw [hafter] at hevents
      cases hevents
      exact ⟨after, rfl⟩

/-- No text ends with its first scalar. -/
theorem not_ok_of_incomplete (hlead : lead = [] ∨ KeyLead lead)
    (htokens : scan.tokens <+: t :: (lead ++ [⟨m, .scalar style text⟩])) :
    Event.ofScan scan ≠ .ok es := by
  intro hevents
  obtain ⟨T, fault⟩ := scan
  dsimp only at htokens
  rcases hlead with rfl | hlead
  · simp only [List.nil_append, List.prefix_cons_iff, List.prefix_nil] at htokens
    rcases htokens with rfl | ⟨_, rfl, rfl | ⟨_, rfl, rfl⟩⟩
    all_goals cases hevents
  · cases hlead with
    | key =>
        simp only [List.cons_append, List.nil_append, List.prefix_cons_iff, List.prefix_nil]
          at htokens
        rcases htokens with rfl | ⟨_, rfl, rfl | ⟨_, rfl, rfl | ⟨_, rfl, rfl⟩⟩⟩
        all_goals cases hevents
    | flowMapping | blockMapping =>
        simp only [List.cons_append, List.nil_append, List.prefix_cons_iff, List.prefix_nil]
          at htokens
        rcases htokens with rfl | ⟨_, rfl, rfl | ⟨_, rfl, rfl | ⟨_, rfl, rfl | ⟨_, rfl, rfl⟩⟩⟩⟩
        all_goals cases hevents

/-- **A text that begins with a scalar** is that scalar, if it is read as one document. -/
theorem exists_scalar_of_tokens (htokens : [t, ⟨m, .scalar style text⟩] <+: scan.tokens)
    (hevents : Event.ofScan scan = .ok es) (h : ofEvents source es = .ok ⟨[some d]⟩) :
    ∃ v p, d = .scalar v p := by
  obtain ⟨ts, hts⟩ := htokens
  obtain ⟨T, fault⟩ := scan
  obtain rfl : _ = T := hts
  have hemits : (Reader.ofScan ⟨[t, ⟨m, .scalar style text⟩] ++ ts, fault⟩).Emits
      [.documentStart, .scalar text style none false m] _ :=
    .step (x := .implicitDocument) rfl rfl (.step (x := .blockNode) rfl rfl (.refl _))
  obtain ⟨after, rfl⟩ := exists_events_of_emits hemits (by simp) hevents
  exact exists_scalar_of_events hevents h

/-- **A text that begins with a scalar and what makes it a key** is a mapping with this first key,
if it is read as one document. -/
theorem exists_firstKey_of_tokens (hlead : KeyLead lead)
    (htokens : t :: (lead ++ [⟨m, .scalar style text⟩]) <+: scan.tokens)
    (hevents : Event.ofScan scan = .ok es) (h : ofEvents source es = .ok ⟨[some d]⟩) :
    ∃ v fs p, d = .mapping ((text, v) :: fs) p := by
  obtain ⟨ts, hts⟩ := htokens
  obtain ⟨T, fault⟩ := scan
  obtain rfl : _ = T := hts
  cases hlead with
  | key => cases hevents
  | @flowMapping n n' =>
      have hemits : (Reader.ofScan
          ⟨t :: ([⟨n, .flowMappingStart⟩, ⟨n', .key⟩] ++ [⟨m, .scalar style text⟩]) ++ ts,
            fault⟩).Emits
          [.documentStart, .mappingStart none n, .scalar text style none false m] _ :=
        .step (x := .implicitDocument) rfl rfl (.step (x := .blockNode) rfl rfl
          (.step (x := .flowKey true) rfl rfl (.refl _)))
      obtain ⟨after, rfl⟩ := exists_events_of_emits hemits (by simp) hevents
      exact exists_firstKey_of_events hevents h
  | @blockMapping n n' =>
      have hemits : (Reader.ofScan
          ⟨t :: ([⟨n, .blockMappingStart⟩, ⟨n', .key⟩] ++ [⟨m, .scalar style text⟩]) ++ ts,
            fault⟩).Emits
          [.documentStart, .mappingStart none n, .scalar text style none false m] _ :=
        .step (x := .implicitDocument) rfl rfl (.step (x := .blockNode) rfl rfl
          (.step (x := .blockKey true) rfl rfl (.refl _)))
      obtain ⟨after, rfl⟩ := exists_events_of_emits hemits (by simp) hevents
      exact exists_firstKey_of_events hevents h

/-! ### The first token -/

open Scanner

/-- A scalar has been read, which may turn out to be a key. -/
structure MayBeKey (style : Style) (text : String) (s s' : Scanner) : Prop where
  stock : ∃ k, s'.stock = (s.tokens.toList ++ [⟨s.mark, .scalar style text⟩], [k]) ∧
    k.possible = true ∧ k.number = s.tokens.size ∧ k.mark = s.mark
  depth : s'.depth = 0
  delivered : s'.delivered = s.delivered

variable {cs : List Char} {s s' : Scanner} {S : List Nat} {provisional : Bool} {n : Nat}
  {r : List Char} {ls : List Lexeme}

theorem mayBeKey_of_fetchPlain (hs : Standing S provisional true n r ls s)
    (h : s.fetchPlain = .ok s') : ∃ text c, s.cursor.plainScalar false (level S) = .ok (text, c) ∧
      s'.mark = c.mark ∧ MayBeKey .plain text s s' := by
  obtain ⟨k, hsave, hpossible, hk⟩ := saveKey_eq hs
  obtain ⟨hnumber, hmark, -⟩ := hk (hpossible rfl)
  cases hscalar : s.cursor.plainScalar false (level S) with
  | error e =>
      have hclose := closeProvisional_eq (s := { s with keys := [k], keyAllowed := false })
        hs.indent hs.indents
      have hflow : (s.depth != 0) = false := by rw [hs.depth]; rfl
      unfold fetchPlain at h
      rw [hsave] at h
      simp only [disallowKey, hclose, inFlow, hflow, bind, Except.bind, hscalar] at h
      cases h
  | ok result =>
      obtain ⟨text, c⟩ := result
      rw [fetchPlain_eq hs hsave hscalar] at h
      cases h
      refine ⟨text, c, rfl, rfl, ⟨k, ?_, hpossible rfl, ?_, hmark⟩, hs.depth, rfl⟩
      · rw [stock, push, Array.toList_push]
      · rw [hnumber, size_tokens, hs.lexemes]

theorem mayBeKey_of_fetchQuoted {single : Bool} (hs : Standing S provisional true n r ls s)
    (h : s.fetchQuoted single = .ok s') :
    ∃ text c, s.cursor.quotedScalar single false (indentOf S provisional) = .ok (text, c) ∧
      c.mark.notAfter s'.mark ∧
      MayBeKey (if single then .singleQuoted else .doubleQuoted) text s s' := by
  obtain ⟨k, hsave, hpossible, hk⟩ := saveKey_eq hs
  obtain ⟨hnumber, hmark, -⟩ := hk (hpossible rfl)
  unfold fetchQuoted at h
  rw [hsave] at h
  obtain ⟨⟨text, c⟩, hscalar, h⟩ := exists_of_bind_ok h
  obtain ⟨t, ht, h⟩ := exists_of_bind_ok h
  cases h
  obtain ⟨hnotAfter, hframe⟩ := skipGaps_frame ht
  have hflow : s.inFlow = false := inFlow_eq_false hs.depth
  refine ⟨text, c, ?_, hnotAfter, ⟨k, ?_, hpossible rfl, ?_, hmark⟩, ?_, ?_⟩
  · rw [← hs.indent, ← hflow]
    exact hscalar
  · rw [stock, push, Array.toList_push, hframe]
    rfl
  · rw [hnumber, size_tokens, hs.lexemes]
  · rw [hframe]
    exact hs.depth
  · rw [hframe]
    rfl

/-- A text stops with the fault of its first token, or goes on after that. -/
theorem Scan.ofText_cases (hr : Stops cs) : ∃ t, Standing [] false true 0 cs [.streamStart] t ∧
    t.delivered = 1 ∧
    (∀ e, t.dispatch = .error e → (Scan.ofText cs).tokens = [⟨.start, .streamStart⟩]) ∧
    ∀ s, t.dispatch = .ok s → Scan.ofText cs = Scan.run (8 * cs.length + 14) s := by
  obtain ⟨t, hsettle, ht⟩ := settle_ofText hr
  have hsettle' := settle_withDelivered 1 hsettle
  have hfetch : ((Scanner.ofText cs).withDelivered 1).fetch = (t.withDelivered 1).dispatch := by
    rw [fetch_eq, hsettle']
    rfl
  have hdrop : (Scanner.ofText cs).dropStaleKeys = .ok ((Scanner.ofText cs).withKeys [.none] 0) :=
    dropStaleKeys_of_impossible (List.forall_mem_singleton.mpr rfl)
  have hfirst : (Scanner.ofText cs).tokens[(Scanner.ofText cs).delivered]? =
      some ⟨.start, .streamStart⟩ := rfl
  have hdeliver : Scan.ofText cs =
      Scan.run (8 * cs.length + 15) ((Scanner.ofText cs).withDelivered 1) :=
    run_deliver hfirst hdrop rfl _
  refine ⟨t.withDelivered 1, ⟨ht.toReached.withDelivered 1, ht.depth, ht.keyAllowed, ht.keys⟩, rfl,
    fun e he => ?_, fun s hs => ?_⟩
  · rw [hdeliver, run_fetch_error rfl (hfetch.trans he)]
    rfl
  · rw [hdeliver]
    exact run_fetch rfl (hfetch.trans hs) _

/-- If the only candidate has become too old, all tokens so far last. -/
theorem Scan.lasts_run_of_stale {c : KeyCandidate} {front : List Token} (hdepth : s.depth = 0)
    (hkeys : s.keys = [c]) (hstale : isStale s.mark c = true) (hfront : s.tokens.toList = front)
    (hdelivered : s.delivered < front.length) (fuel : Nat) :
    (Scan.run (fuel + 1) s).tokens <+: front ∨ front <+: (Scan.run (fuel + 1) s).tokens := by
  have hsize : s.delivered < s.tokens.size := by
    rwa [← Array.length_toList, hfront]
  have hsome : s.tokens[s.delivered]? = some s.tokens[s.delivered] :=
    Array.getElem?_eq_getElem hsize
  have hdrop := dropStaleKeys_eq s
  rw [inFlow_eq_false hdepth, if_neg Bool.false_ne_true] at hdrop
  cases hmiss : missesKey s.mark s.keys with
  | true =>
      rw [hmiss, if_pos rfl] at hdrop
      refine .inl ?_
      rw [run_missing_key hsome hdrop, stop, Array.toList_extract, hfront]
      exact List.take_prefix _ _
  | false =>
      rw [hmiss, if_neg Bool.false_ne_true] at hdrop
      have hold : keysAt s.mark s.keys = [c.withdraw] := by
        rw [hkeys, keysAt, List.map_singleton, if_pos hstale]
      rw [run_deliver hsome hdrop (by rw [hold]; rfl)]
      have hlasts : Lasts front (s.withKeys (keysAt s.mark s.keys) (s.delivered + 1)).stock := by
        refine ⟨?_, ?_⟩
        · show front <+: s.tokens.toList
          rw [hfront]
        · show ∀ k ∈ keysAt s.mark s.keys, k.possible = true → front.length ≤ k.number
          rw [hold]
          exact List.forall_mem_singleton.mpr fun h => by cases h
      split
      · refine .inl ?_
        rw [stop, Array.toList_extract]
        show (s.tokens.toList.drop 0).take _ <+: front
        rw [hfront]
        exact List.take_prefix _ _
      · exact Scan.lasts_run hlasts fuel

/-- **If a text begins with a scalar that may be a key, and is read as a mapping, that is its first
key**, and it has ended on its line and within 1024 characters. -/
theorem firstKey_of_mayBeKey {fuel : Nat} {fs : List (String × Node)}
    (htokens : s.tokens.toList = [t]) (hdelivered : s.delivered = 1)
    (hread : MayBeKey style text s s') (hevents : Event.ofScan (Scan.run (fuel + 1) s') = .ok es)
    (hstream : ofEvents source es = .ok ⟨[some (.mapping ((k, v) :: fs) p)]⟩) :
    k = text ∧ s'.mark.line ≤ s.mark.line ∧ s'.mark.index ≤ s.mark.index + 1024 := by
  obtain ⟨⟨c, hstock, hpossible, hnumber, hmark⟩, hdepth, hdelivered'⟩ := hread
  rw [htokens] at hstock
  have hfront : s'.tokens.toList = [t, ⟨s.mark, .scalar style text⟩] := congrArg Prod.fst hstock
  have hkeys : s'.keys = [c] := congrArg Prod.snd hstock
  -- a scalar alone is no mapping
  have halone : ¬[t, ⟨s.mark, .scalar style text⟩] <+: (Scan.run (fuel + 1) s').tokens := by
    intro hle
    obtain ⟨v, q, hscalar⟩ := exists_scalar_of_tokens hle hevents hstream
    cases hscalar
  refine ⟨?_, ?_⟩
  · have hundecided : Undecided t ⟨s.mark, .scalar style text⟩ s'.stock := by
      rw [hstock]
      refine ⟨List.prefix_rfl, [], c, rfl, ?_, nofun⟩
      rw [hnumber, ← Array.length_toList, htokens]
      rfl
    obtain ⟨lead, hlead, hincomplete | hle⟩ := Scan.exists_lead_of_run hundecided (fuel + 1)
    · exact absurd hevents (not_ok_of_incomplete hlead hincomplete)
    · rcases hlead with rfl | hlead
      · exact absurd hle halone
      · obtain ⟨v', fs', q, hmapping⟩ := exists_firstKey_of_tokens hlead hle hevents hstream
        cases hmapping
        rfl
  · cases hstale : isStale s'.mark c with
    | true =>
        rcases Scan.lasts_run_of_stale hdepth hkeys hstale hfront
          (by rw [hdelivered', hdelivered]; exact Nat.one_lt_two) fuel with hincomplete | hle
        · exact absurd hevents (not_ok_of_incomplete (.inl rfl) hincomplete)
        · exact absurd hle halone
    | false =>
        rw [isStale, hpossible, hmark, Bool.true_and, Bool.or_eq_false_iff,
          decide_eq_false_iff_not, decide_eq_false_iff_not] at hstale
        omega

/-! ### Texts -/

theorem exists_of_ofChars {omitted : Omitted} {st : Stream}
    (h : Stream.ofChars cs omitted = .ok st) :
    ∃ es, Event.ofText cs omitted = .ok es ∧ ofEvents (Source.ofText cs) es = .ok st := by
  unfold Stream.ofChars at h
  cases hevents : Event.ofText cs omitted with
  | error e =>
      simp only [hevents] at h
      cases h
  | ok es =>
      simp only [hevents] at h
      cases hstream : ofEvents (Source.ofText cs) es with
      | error e =>
          rw [hstream] at h
          cases h
      | ok st' =>
          rw [hstream] at h
          cases h
          exact ⟨es, rfl, hstream⟩

/-- If a text is read as a mapping, its first token is read, and when that is a scalar it is the
first key. -/
theorem exists_dispatch_of_ofChars {fs : List (String × Node)} (hr : Stops cs)
    (h : Stream.ofChars cs = .ok ⟨[some (.mapping ((k, v) :: fs) p)]⟩) :
    ∃ t s, Standing [] false true 0 cs [.streamStart] t ∧ t.dispatch = .ok s ∧
      ∀ style text, MayBeKey style text t s →
        k = text ∧ s.mark.line ≤ t.mark.line ∧ s.mark.index ≤ t.mark.index + 1024 := by
  obtain ⟨es, hevents, hstream⟩ := exists_of_ofChars h
  obtain ⟨t, ht, hdelivered, herror, hok⟩ := Scan.ofText_cases hr
  obtain ⟨a, htokens, -⟩ := List.map_eq_singleton_iff.mp ht.lexemes
  cases hs : t.dispatch with
  | error e =>
      have hincomplete : (Scan.ofText cs).tokens <+:
          ⟨.start, .streamStart⟩ :: ([] ++ [⟨.start, .scalar .plain ""⟩]) := by
        rw [herror e hs]
        exact ⟨_, rfl⟩
      exact absurd hevents (not_ok_of_incomplete (.inl rfl) hincomplete)
  | ok s =>
      rw [Event.ofText, hok s hs] at hevents
      exact ⟨t, s, ht, hs, fun style text hread =>
        firstKey_of_mayBeKey htokens hdelivered hread hevents hstream⟩

/-- A text that has ended where it begins is read as one document of nothing. -/
theorem ofChars_of_end (hend : cs.headD '\x00' = '\x00') :
    Stream.ofChars cs = .ok ⟨[Option.none]⟩ := by
  have hstops : Stops cs := by
    refine ⟨⟨by rw [hend]; rfl, by rw [hend]; rfl⟩, ?_⟩
    cases cs with
    | nil => nofun
    | cons ch cs =>
        obtain rfl : ch = '\x00' := hend
        exact fun h => absurd (Option.some.inj h) (by decide)
  obtain ⟨t, hsettle, ht⟩ := settle_ofText hstops
  obtain ⟨htokens, -⟩ := Scan.ofText_of_way (A := standing [] false true 0 cs [.streamStart]) .refl
    hsettle ht (fun s hs => dispatch_end hs hend) (Nat.le_refl _) (Nat.le_add_left 1 _)
  obtain ⟨⟨m, _⟩, _, htokens, rfl, hrest⟩ := List.map_eq_cons_iff.mp htokens
  obtain ⟨⟨m', _⟩, rfl, rfl⟩ := List.map_eq_singleton_iff.mp hrest
  have hevents : Event.ofText cs = .ok [] := by
    rw [Event.ofText]
    generalize Scan.ofText cs = scan at htokens
    obtain ⟨T, fault⟩ := scan
    obtain rfl : T = _ := htokens
    rfl
  unfold Stream.ofChars
  rw [hevents]
  rfl

end YamlDelta.Markup
