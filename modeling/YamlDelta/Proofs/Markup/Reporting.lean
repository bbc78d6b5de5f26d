/-
The reader goes the same way however it reports what is left out.

Nothing that the reader does depends on the events it has made, so two readers that differ only in
how they report a node that is left out make the same steps.  Their events are the same, except that
a node without characters may be a `~` for the other (`exists_reported_of_ofText`).  The one reader
tells what has been left out, since no plain scalar that is written is empty; the other may not.

For every function of the reader there is one lemma, and all of them say the same of two readers
side by side: either both fail alike, or their results are related.
-/
import Mathlib.Data.List.Forall2
import Mathlib.Data.Option.Basic
import YamlDelta.Markup.Event.Reader
import YamlDelta.Proofs.Markup.Nesting

namespace YamlDelta.Markup

/-! ### Results side by side -/

/-- Both fail alike, or their results are related. -/
inductive Alongside {α β : Type} (R : α → β → Prop) : Except Fault α → Except Fault β → Prop
  | fault (f : Fault) : Alongside R (.error f) (.error f)
  | ok {a : α} {b : β} (related : R a b) : Alongside R (.ok a) (.ok b)

/-- The second event is what the first is reported as: another, only if the first is a node that is
left out. -/
inductive Event.Reported (omitted : Omitted) : Event → Event → Prop
  | same (e : Event) : Reported omitted e e
  | leftOut (mark : Mark) : Reported omitted (.absent .empty mark) (.absent omitted mark)

variable {α β γ δ : Type} {R : α → β → Prop} {S : γ → δ → Prop} {omitted : Omitted}

theorem Alongside.bind {x : Except Fault α} {y : Except Fault β} {f : α → Except Fault γ}
    {g : β → Except Fault δ} (h : Alongside R x y) (hfg : ∀ a b, R a b → Alongside S (f a) (g b)) :
    Alongside S (x >>= f) (y >>= g) := by
  cases h with
  | fault f => exact .fault f
  | ok hab => exact hfg _ _ hab

theorem Alongside.exists_of_ok {x : Except Fault α} {y : Except Fault β} {b : β}
    (h : Alongside R x y) (hy : y = .ok b) : ∃ a, x = .ok a ∧ R a b := by
  cases h with
  | fault f => cases hy
  | ok hab =>
      cases hy
      exact ⟨_, rfl, hab⟩

namespace Reader

/-- The reader that reports in another way what is left out. -/
def reporting (omitted : Omitted) (r : Reader) : Reader :=
  { r with omitted := omitted }

/-- The readers differ only in how they report what is left out, and the first tells it. -/
def Beside (omitted : Omitted) (r s : Reader) : Prop :=
  ∃ q : Reader, r = q.reporting .empty ∧ s = q.reporting omitted

/-- One event reports the other, and the readers go on side by side. -/
def Made (omitted : Omitted) (a b : Event × Reader) : Prop :=
  a.1.Reported omitted b.1 ∧ Beside omitted a.2 b.2

@[inherit_doc Made]
def MadeAtMost (omitted : Omitted) (a b : Option Event × Reader) : Prop :=
  Option.Rel (Event.Reported omitted) a.1 b.1 ∧ Beside omitted a.2 b.2

variable (q : Reader)

/-- The same token comes next. -/
theorem alongside_peek {f : Token → Except Fault γ} {g : Token → Except Fault δ}
    (h : ∀ t, Alongside S (f t) (g t)) :
    Alongside S ((q.reporting .empty).peek >>= f) ((q.reporting omitted).peek >>= g) := by
  show Alongside S (q.peek >>= f) (q.peek >>= g)
  cases q.peek with
  | error f => exact .fault f
  | ok t => exact h t

/-- Both make the same event. -/
theorem alongside_made (e : Event) :
    Alongside (Made omitted) (.ok (e, q.reporting .empty)) (.ok (e, q.reporting omitted)) :=
  .ok ⟨.same e, q, rfl, rfl⟩

/-- For both a node is left out. -/
theorem alongside_absent (t : Token) :
    Alongside (Made omitted) ((q.reporting .empty).absent t) ((q.reporting omitted).absent t) :=
  .ok ⟨.leftOut t.mark, q, rfl, rfl⟩

/-! ### Nodes -/

theorem alongside_tagIsText {f : Bool → Except Fault γ} {g : Bool → Except Fault δ} (mark : Mark)
    (handle suffix : String) (h : ∀ isText, Alongside S (f isText) (g isText)) :
    Alongside S ((q.reporting .empty).tagIsText mark handle suffix >>= f)
      ((q.reporting omitted).tagIsText mark handle suffix >>= g) := by
  show Alongside S (q.tagIsText mark handle suffix >>= f) (q.tagIsText mark handle suffix >>= g)
  cases q.tagIsText mark handle suffix with
  | error f => exact .fault f
  | ok isText => exact h isText

theorem alongside_properties :
    Alongside (fun a b => a.1 = b.1 ∧ Beside omitted a.2 b.2)
      (q.reporting .empty).properties (q.reporting omitted).properties := by
  refine alongside_peek q fun ⟨m, l⟩ => ?_
  cases l with
  | anchor name =>
      refine alongside_peek (q.pass.addAnchor name).2 fun ⟨m', l'⟩ => ?_
      cases l' with
      | tag handle suffix =>
          exact alongside_tagIsText (q.pass.addAnchor name).2 m handle suffix fun isText =>
            .ok ⟨rfl, (q.pass.addAnchor name).2.pass, rfl, rfl⟩
      | _ => exact .ok ⟨rfl, (q.pass.addAnchor name).2, rfl, rfl⟩
  | tag handle suffix =>
      refine alongside_tagIsText q m handle suffix fun isText => ?_
      refine alongside_peek q.pass fun ⟨m', l'⟩ => ?_
      cases l' with
      | anchor name => exact .ok ⟨rfl, (q.pass.pass.addAnchor name).2, rfl, rfl⟩
      | _ => exact .ok ⟨rfl, q.pass, rfl, rfl⟩
  | _ => exact .ok ⟨rfl, q, rfl, rfl⟩

theorem alongside_nodeContent (block indentless : Bool) (p : Properties) :
    Alongside (Made omitted) ((q.reporting .empty).nodeContent block indentless p)
      ((q.reporting omitted).nodeContent block indentless p) := by
  refine alongside_peek q fun ⟨m, l⟩ => ?_
  -- with properties a node that is left out has no characters for either reader
  have hmissing : Alongside (Made omitted)
      (if p.anchor.isSome || p.tag.isSome then
        .ok (.scalar "" .plain p.anchor (p.tag.getD false) m, (q.reporting .empty).complete)
        else .error ⟨m, .missingContent⟩)
      (if p.anchor.isSome || p.tag.isSome then
        .ok (.scalar "" .plain p.anchor (p.tag.getD false) m, (q.reporting omitted).complete)
        else .error ⟨m, .missingContent⟩) := by
    split
    · exact alongside_made q.complete _
    · exact .fault _
  cases l with
  | blockEntry =>
      cases indentless with
      | false => exact hmissing
      | true => exact alongside_made (q.expect .indentlessEntry) _
  | scalar style text => exact alongside_made q.pass.complete _
  | flowSequenceStart => exact alongside_made (q.expect (.flowEntry true)) _
  | flowMappingStart => exact alongside_made (q.expect (.flowKey true)) _
  | blockSequenceStart =>
      cases block with
      | false => exact hmissing
      | true => exact alongside_made (q.expect (.blockEntry true)) _
  | blockMappingStart =>
      cases block with
      | false => exact hmissing
      | true => exact alongside_made (q.expect (.blockKey true)) _
  | _ => exact hmissing

theorem alongside_node (block indentless : Bool) :
    Alongside (Made omitted) ((q.reporting .empty).node block indentless)
      ((q.reporting omitted).node block indentless) := by
  refine alongside_peek q fun ⟨m, l⟩ => ?_
  have hcontent : Alongside (Made omitted)
      ((q.reporting .empty).properties >>= fun a => a.2.nodeContent block indentless a.1)
      ((q.reporting omitted).properties >>= fun a => a.2.nodeContent block indentless a.1) := by
    refine (alongside_properties q).bind ?_
    rintro ⟨p, _⟩ ⟨_, _⟩ ⟨rfl, s, rfl, rfl⟩
    exact alongside_nodeContent s block indentless p
  cases l with
  | «alias» name =>
      cases hfind : q.anchors.find? (·.1 == name) with
      | none =>
          simp only [hfind, reporting]
          exact .fault _
      | some a =>
          simp only [hfind, reporting]
          exact alongside_made q.pass.complete _
  | _ => exact hcontent

theorem alongside_nodeThen (after : Expectation) (block indentless : Bool) :
    Alongside (Made omitted) ((q.reporting .empty).nodeThen after block indentless)
      ((q.reporting omitted).nodeThen after block indentless) :=
  alongside_node { q.expect after with expected := .blockNode :: (q.expect after).expected }
    block indentless

/-! ### Documents -/

theorem alongside_directives (ts : List Token) (versioned : Bool) :
    Alongside (Beside omitted) ((q.reporting .empty).directives ts versioned)
      ((q.reporting omitted).directives ts versioned) := by
  induction ts generalizing q versioned with
  | nil => exact .fault _
  | cons t ts ih =>
      obtain ⟨m, l⟩ := t
      cases l with
      | versionDirective =>
          cases versioned with
          | false => exact ih { q with tokens := ts, handle := none } true
          | true => exact .fault _
      | tagDirective handle suffix =>
          exact ih { q with tokens := ts, handle := some handle } versioned
      | _ => exact .ok ⟨q, rfl, rfl⟩

theorem alongside_explicitDocument :
    Alongside (Made omitted) (q.reporting .empty).explicitDocument
      (q.reporting omitted).explicitDocument := by
  refine (alongside_directives q q.tokens false).bind ?_
  rintro _ _ ⟨s, rfl, rfl⟩
  refine alongside_peek s fun t => ?_
  split
  · exact .ok ⟨.same _, (s.pass.begin .content).2, rfl, rfl⟩
  · exact .fault _

theorem alongside_nextDocument (implicit : Bool) :
    Alongside (MadeAtMost omitted) ((q.reporting .empty).nextDocument implicit)
      ((q.reporting omitted).nextDocument implicit) := by
  have hexplicit : Alongside (MadeAtMost omitted)
      ((q.passDocumentEnds.reporting .empty).explicitDocument >>= fun a => .ok (some a.1, a.2))
      ((q.passDocumentEnds.reporting omitted).explicitDocument >>= fun a =>
        .ok (some a.1, a.2)) := by
    refine (alongside_explicitDocument q.passDocumentEnds).bind ?_
    rintro ⟨e, _⟩ ⟨e', _⟩ ⟨he, s, rfl, rfl⟩
    exact .ok ⟨.some he, s, rfl, rfl⟩
  refine alongside_peek q.passDocumentEnds fun ⟨m, l⟩ => ?_
  have himplicit : Alongside (MadeAtMost omitted)
      (if implicit then
        .ok (some .documentStart, ((q.passDocumentEnds.reporting .empty).begin .blockNode).2)
        else (q.passDocumentEnds.reporting .empty).explicitDocument >>= fun a =>
          .ok (some a.1, a.2))
      (if implicit then
        .ok (some .documentStart, ((q.passDocumentEnds.reporting omitted).begin .blockNode).2)
        else (q.passDocumentEnds.reporting omitted).explicitDocument >>= fun a =>
          .ok (some a.1, a.2)) := by
    split
    · exact .ok ⟨.some (.same _), (q.passDocumentEnds.begin .blockNode).2, rfl, rfl⟩
    · exact hexplicit
  cases l with
  | streamEnd =>
      exact .ok ⟨.none, { q.passDocumentEnds.pass with expected := [] }, rfl, rfl⟩
  | versionDirective | tagDirective | documentStart => exact hexplicit
  | _ => exact himplicit

theorem alongside_documentContent :
    Alongside (Made omitted) (q.reporting .empty).documentContent
      (q.reporting omitted).documentContent := by
  refine alongside_peek q fun ⟨m, l⟩ => ?_
  cases l with
  | versionDirective | tagDirective | documentStart | documentEnd | streamEnd =>
      exact alongside_absent q.complete _
  | _ => exact alongside_node q true false

theorem alongside_documentEnd :
    Alongside (Made omitted) (q.reporting .empty).documentEnd
      (q.reporting omitted).documentEnd := by
  refine alongside_peek q fun ⟨m, l⟩ => ?_
  cases l with
  | documentEnd =>
      exact alongside_made ({ q with handle := none }.pass.expect .implicitDocument) _
  | versionDirective | tagDirective => exact .fault _
  | _ => exact alongside_made ({ q with handle := none }.expect .document) _

/-! ### Block collections -/

theorem alongside_blockPart (after : Expectation) :
    Alongside (Made omitted) ((q.reporting .empty).blockPart after)
      ((q.reporting omitted).blockPart after) := by
  refine alongside_peek q fun ⟨m, l⟩ => ?_
  cases l with
  | key | value | blockEnd => exact alongside_absent (q.expect after) _
  | _ => exact alongside_nodeThen q after true true

theorem alongside_blockKey (first : Bool) :
    Alongside (Made omitted) ((q.reporting .empty).blockKey first)
      ((q.reporting omitted).blockKey first) := by
  have hkey (q : Reader) : Alongside (Made omitted) ((q.reporting .empty).blockKey false)
      ((q.reporting omitted).blockKey false) := by
    refine alongside_peek q fun ⟨m, l⟩ => ?_
    cases l with
    | key => exact alongside_blockPart q.pass .blockValue
    | value => exact alongside_absent (q.expect .blockValue) _
    | blockEnd => exact alongside_made q.pass.complete _
    | _ => exact .fault _
  cases first with
  | false => exact hkey q
  | true => exact hkey q.pass

theorem alongside_blockValue :
    Alongside (Made omitted) (q.reporting .empty).blockValue (q.reporting omitted).blockValue := by
  refine alongside_peek q fun ⟨m, l⟩ => ?_
  cases l with
  | value => exact alongside_blockPart q.pass (.blockKey false)
  | _ => exact alongside_absent (q.expect (.blockKey false)) _

theorem alongside_blockEntry (first : Bool) :
    Alongside (Made omitted) ((q.reporting .empty).blockEntry first)
      ((q.reporting omitted).blockEntry first) := by
  have hentry (q : Reader) : Alongside (Made omitted) ((q.reporting .empty).blockEntry false)
      ((q.reporting omitted).blockEntry false) := by
    refine alongside_peek q fun ⟨m, l⟩ => ?_
    cases l with
    | blockEnd => exact alongside_made q.pass.complete _
    | blockEntry =>
        refine alongside_peek q.pass fun ⟨m', l'⟩ => ?_
        cases l' with
        | blockEntry | blockEnd => exact alongside_absent (q.pass.expect (.blockEntry false)) _
        | _ => exact alongside_nodeThen q.pass (.blockEntry false) true false
    | _ => exact .fault _
  cases first with
  | false => exact hentry q
  | true => exact hentry q.pass

theorem alongside_indentlessEntry :
    Alongside (Made omitted) (q.reporting .empty).indentlessEntry
      (q.reporting omitted).indentlessEntry := by
  refine alongside_peek q fun ⟨m, l⟩ => ?_
  cases l with
  | blockEntry =>
      refine alongside_peek q.pass fun ⟨m', l'⟩ => ?_
      cases l' with
      | blockEntry | key | value | blockEnd =>
          exact alongside_absent (q.pass.expect .indentlessEntry) _
      | _ => exact alongside_nodeThen q.pass .indentlessEntry true false
  | _ => exact alongside_made q.complete _

/-! ### Flow collections -/

theorem alongside_flowItem :
    Alongside (Made omitted) (q.reporting .empty).flowItem (q.reporting omitted).flowItem := by
  refine alongside_peek q fun ⟨m, l⟩ => ?_
  cases l with
  | flowSequenceEnd => exact alongside_made q.pass.complete _
  | key => exact alongside_made (q.pass.expect .pairKey) _
  | _ => exact alongside_nodeThen q (.flowEntry false) false false

theorem alongside_flowEntry (first : Bool) :
    Alongside (Made omitted) ((q.reporting .empty).flowEntry first)
      ((q.reporting omitted).flowEntry first) := by
  cases first with
  | true => exact alongside_flowItem q.pass
  | false =>
      refine alongside_peek q fun ⟨m, l⟩ => ?_
      cases l with
      | flowSequenceEnd => exact alongside_made q.pass.complete _
      | flowEntry => exact alongside_flowItem q.pass
      | _ => exact .fault _

theorem alongside_pairKey :
    Alongside (Made omitted) (q.reporting .empty).pairKey (q.reporting omitted).pairKey := by
  refine alongside_peek q fun ⟨m, l⟩ => ?_
  cases l with
  | value | flowEntry | flowSequenceEnd => exact alongside_absent (q.pass.expect .pairValue) _
  | _ => exact alongside_nodeThen q .pairValue false false

theorem alongside_pairValue :
    Alongside (Made omitted) (q.reporting .empty).pairValue (q.reporting omitted).pairValue := by
  refine alongside_peek q fun ⟨m, l⟩ => ?_
  cases l with
  | value =>
      refine alongside_peek q.pass fun ⟨m', l'⟩ => ?_
      cases l' with
      | flowEntry | flowSequenceEnd => exact alongside_absent (q.pass.expect .pairEnd) _
      | _ => exact alongside_nodeThen q.pass .pairEnd false false
  | _ => exact alongside_absent (q.expect .pairEnd) _

theorem alongside_flowPair :
    Alongside (Made omitted) (q.reporting .empty).flowPair (q.reporting omitted).flowPair := by
  refine alongside_peek q fun ⟨m, l⟩ => ?_
  cases l with
  | key =>
      refine alongside_peek q.pass fun ⟨m', l'⟩ => ?_
      cases l' with
      | value | flowEntry | flowMappingEnd => exact alongside_absent (q.pass.expect .flowValue) _
      | _ => exact alongside_nodeThen q.pass .flowValue false false
  | value => exact alongside_absent (q.expect .flowValue) _
  | flowMappingEnd => exact alongside_made q.pass.complete _
  | _ => exact alongside_nodeThen q .flowNoValue false false

theorem alongside_flowKey (first : Bool) :
    Alongside (Made omitted) ((q.reporting .empty).flowKey first)
      ((q.reporting omitted).flowKey first) := by
  cases first with
  | true => exact alongside_flowPair q.pass
  | false =>
      refine alongside_peek q fun ⟨m, l⟩ => ?_
      cases l with
      | flowMappingEnd => exact alongside_made q.pass.complete _
      | flowEntry => exact alongside_flowPair q.pass
      | _ => exact .fault _

theorem alongside_flowValue :
    Alongside (Made omitted) (q.reporting .empty).flowValue (q.reporting omitted).flowValue := by
  refine alongside_peek q fun ⟨m, l⟩ => ?_
  cases l with
  | value =>
      refine alongside_peek q.pass fun ⟨m', l'⟩ => ?_
      cases l' with
      | flowEntry | flowMappingEnd => exact alongside_absent (q.pass.expect (.flowKey false)) _
      | _ => exact alongside_nodeThen q.pass (.flowKey false) false false
  | _ => exact alongside_absent (q.expect (.flowKey false)) _

theorem alongside_flowNoValue :
    Alongside (Made omitted) (q.reporting .empty).flowNoValue (q.reporting omitted).flowNoValue :=
  alongside_peek q fun t => alongside_absent (q.expect (.flowKey false)) t

/-! ### Steps and runs -/

theorem alongside_some' {a b : Result} (h : Alongside (Made omitted) a b) :
    Alongside (MadeAtMost omitted) (step.some' a) (step.some' b) := by
  cases h with
  | fault f => exact .fault f
  | ok hab => exact .ok ⟨.some hab.1, hab.2⟩

/-- **Two readers side by side make the same step**, however they report what is left out. -/
theorem alongside_step (x : Expectation) :
    Alongside (MadeAtMost omitted) ((q.reporting .empty).step x)
      ((q.reporting omitted).step x) := by
  cases x with
  | implicitDocument => exact alongside_nextDocument q true
  | document => exact alongside_nextDocument q false
  | content => exact alongside_some' (alongside_documentContent q)
  | documentEnd => exact alongside_some' (alongside_documentEnd q)
  | blockNode => exact alongside_some' (alongside_node q true false)
  | blockKey first => exact alongside_some' (alongside_blockKey q first)
  | blockValue => exact alongside_some' (alongside_blockValue q)
  | blockEntry first => exact alongside_some' (alongside_blockEntry q first)
  | indentlessEntry => exact alongside_some' (alongside_indentlessEntry q)
  | flowEntry first => exact alongside_some' (alongside_flowEntry q first)
  | flowKey first => exact alongside_some' (alongside_flowKey q first)
  | flowValue => exact alongside_some' (alongside_flowValue q)
  | flowNoValue => exact alongside_some' (alongside_flowNoValue q)
  | pairKey => exact alongside_some' (alongside_pairKey q)
  | pairValue => exact alongside_some' (alongside_pairValue q)
  | pairEnd => exact alongside_some' (alongside_made (q.expect (.flowEntry false)) .mappingEnd)

theorem alongside_events (fuel : Nat) :
    Alongside (List.Forall₂ (Event.Reported omitted)) ((q.reporting .empty).events fuel)
      ((q.reporting omitted).events fuel) := by
  induction fuel generalizing q with
  | zero => exact .ok .nil
  | succ fuel ih =>
      obtain ⟨ts, ending, E, anchors, next, handle, o⟩ := q
      cases E with
      | nil => exact .ok .nil
      | cons x E =>
          refine (alongside_step _ x).bind ?_
          rintro ⟨e, _⟩ ⟨e', _⟩ ⟨he, s, rfl, rfl⟩
          refine (ih s).bind fun es es' hes => .ok ?_
          cases he with
          | none => exact hes
          | some he => exact .cons he hes

/-- A step leaves the way of reporting as it is. -/
theorem omitted_step {r s : Reader} {o : Option Event} {x : Expectation}
    (h : r.step x = .ok (o, s)) (hr : r.omitted = .empty) : s.omitted = .empty := by
  obtain ⟨ts, ending, E, anchors, next, handle, _⟩ := r
  obtain rfl := hr
  have hstep : Alongside (MadeAtMost .empty)
      (step ⟨ts, ending, E, anchors, next, handle, .empty⟩ x) (step _ x) :=
    alongside_step ⟨ts, ending, E, anchors, next, handle, .empty⟩ x
  obtain ⟨_, -, -, q, -, rfl⟩ := hstep.exists_of_ok h
  rfl

end Reader

/-- **However what is left out is reported, the events are the same otherwise.** -/
theorem exists_reported_of_ofText {cs : List Char} {es : List Event}
    (h : Event.ofText cs omitted = .ok es) :
    ∃ ts, Event.ofText cs = .ok ts ∧ List.Forall₂ (Event.Reported omitted) ts es :=
  (Reader.alongside_events (Reader.ofScan (Scan.ofText cs)) _).exists_of_ok h

/-! ### Trees -/

/-- The second tree is what the first is reported as: they are the same, except for nodes that are
left out. -/
inductive Written.Reported (omitted : Omitted) : Written → Written → Prop
  | leftOut {mark : Mark} : Reported omitted (.scalar "" .plain none false mark)
      (.scalar omitted.text .plain none false mark)
  | reference {id : Nat} {mark : Mark} : Reported omitted (.reference id mark) (.reference id mark)
  | scalar {text : String} {style : Style} {anchor : Option Nat} {isText : Bool} {mark : Mark} :
      Reported omitted (.scalar text style anchor isText mark)
        (.scalar text style anchor isText mark)
  | sequence {anchor : Option Nat} {mark : Mark} {ws vs : List Written}
      (items : List.Forall₂ (Reported omitted) ws vs) :
      Reported omitted (.sequence anchor mark ws) (.sequence anchor mark vs)
  | mapping {anchor : Option Nat} {mark : Mark} {ps qs : List (Written × Written)}
      (keys : List.Forall₂ (Reported omitted) (ps.map Prod.fst) (qs.map Prod.fst))
      (values : List.Forall₂ (Reported omitted) (ps.map Prod.snd) (qs.map Prod.snd)) :
      Reported omitted (.mapping anchor mark ps) (.mapping anchor mark qs)

theorem Written.Reported.refl (w : Written) : w.Reported omitted w := by
  induction w using Written.induct with
  | reference id mark => exact .reference
  | scalar text style anchor isText mark => exact .scalar
  | sequence anchor mark ws ih => exact .sequence (List.forall₂_same.mpr ih)
  | mapping anchor mark ps ih =>
      refine .mapping (List.forall₂_same.mpr ?_) (List.forall₂_same.mpr ?_)
      · exact List.forall_mem_map.mpr fun p hp => (ih p hp).1
      · exact List.forall_mem_map.mpr fun p hp => (ih p hp).2

/-- The events begin with those of a tree that reports this one. -/
def Written.ReportedIn (omitted : Omitted) (w : Written) : Prop :=
  ∀ es fs, List.Forall₂ (Event.Reported omitted) (w.events ++ es) fs →
    ∃ v gs, fs = v.events ++ gs ∧ w.Reported omitted v ∧
      List.Forall₂ (Event.Reported omitted) es gs

section Trees

open Written

variable {es fs : List Event}

theorem exists_reported_items {ws : List Written} (hws : ∀ w ∈ ws, w.ReportedIn omitted)
    (h : List.Forall₂ (Event.Reported omitted) (eventsItems ws ++ es) fs) :
    ∃ vs gs, fs = eventsItems vs ++ gs ∧ List.Forall₂ (Written.Reported omitted) ws vs ∧
      List.Forall₂ (Event.Reported omitted) es gs := by
  induction ws generalizing fs with
  | nil => exact ⟨[], fs, rfl, .nil, h⟩
  | cons w ws ih =>
      rw [List.forall_mem_cons] at hws
      rw [eventsItems, List.append_assoc] at h
      obtain ⟨v, gs, rfl, hw, h⟩ := hws.1 _ fs h
      obtain ⟨vs, gs, rfl, hitems, h⟩ := ih hws.2 h
      exact ⟨v :: vs, gs, by rw [eventsItems, List.append_assoc], .cons hw hitems, h⟩

theorem exists_reported_entries {ps : List (Written × Written)}
    (hps : ∀ p ∈ ps, p.1.ReportedIn omitted ∧ p.2.ReportedIn omitted)
    (h : List.Forall₂ (Event.Reported omitted) (eventsEntries ps ++ es) fs) :
    ∃ qs gs, fs = eventsEntries qs ++ gs ∧
      List.Forall₂ (Written.Reported omitted) (ps.map Prod.fst) (qs.map Prod.fst) ∧
      List.Forall₂ (Written.Reported omitted) (ps.map Prod.snd) (qs.map Prod.snd) ∧
      List.Forall₂ (Event.Reported omitted) es gs := by
  induction ps generalizing fs with
  | nil => exact ⟨[], fs, rfl, .nil, .nil, h⟩
  | cons p ps ih =>
      rw [List.forall_mem_cons] at hps
      rw [eventsEntries, List.append_assoc, List.append_assoc] at h
      obtain ⟨k, gs, rfl, hk, h⟩ := hps.1.1 _ fs h
      obtain ⟨v, gs, rfl, hv, h⟩ := hps.1.2 _ gs h
      obtain ⟨qs, gs, rfl, hkeys, hvalues, h⟩ := ih hps.2 h
      refine ⟨(k, v) :: qs, gs, ?_, .cons hk hkeys, .cons hv hvalues, h⟩
      rw [eventsEntries, List.append_assoc, List.append_assoc]

theorem reportedIn (w : Written) : w.ReportedIn omitted := by
  induction w using Written.induct with
  | reference id mark =>
      rintro es _ (_ | ⟨⟨⟩, h⟩)
      exact ⟨.reference id mark, _, rfl, .reference, h⟩
  | scalar text style anchor isText mark =>
      rintro es _ (_ | ⟨hreported, h⟩)
      generalize he : Event.scalar text style anchor isText mark = e at hreported
      cases hreported with
      | same =>
          subst he
          exact ⟨.scalar text style anchor isText mark, _, rfl, .scalar, h⟩
      | leftOut m =>
          cases he
          exact ⟨.scalar omitted.text .plain none false mark, _, rfl, .leftOut, h⟩
  | sequence anchor mark ws ih =>
      intro es fs h
      rw [Written.events, List.cons_append, List.append_assoc] at h
      obtain _ | ⟨⟨⟩, h⟩ := h
      obtain ⟨vs, _, rfl, hitems, _ | ⟨⟨⟩, hrest⟩⟩ := exists_reported_items ih h
      refine ⟨.sequence anchor mark vs, _, ?_, .sequence hitems, hrest⟩
      rw [Written.events, List.cons_append, List.append_assoc]
      rfl
  | mapping anchor mark ps ih =>
      intro es fs h
      rw [Written.events, List.cons_append, List.append_assoc] at h
      obtain _ | ⟨⟨⟩, h⟩ := h
      obtain ⟨qs, _, rfl, hkeys, hvalues, _ | ⟨⟨⟩, hrest⟩⟩ :=
        exists_reported_entries ih h
      refine ⟨.mapping anchor mark qs, _, ?_, .mapping hkeys hvalues, hrest⟩
      rw [Written.events, List.cons_append, List.append_assoc]
      rfl

/-- **What is reported of trees are trees that report them.** -/
theorem exists_reported_of_streamEvents {ds : List Written}
    (h : List.Forall₂ (Event.Reported omitted) (streamEvents ds) fs) :
    ∃ rs, fs = streamEvents rs ∧ List.Forall₂ (Written.Reported omitted) ds rs := by
  induction ds generalizing fs with
  | nil =>
      obtain rfl := List.forall₂_nil_left_iff.mp h
      exact ⟨[], rfl, .nil⟩
  | cons w ds ih =>
      rw [streamEvents_cons] at h
      obtain _ | ⟨⟨⟩, h⟩ := h
      obtain ⟨v, _, rfl, hw, _ | ⟨⟨⟩, hrest⟩⟩ := reportedIn w _ _ h
      obtain ⟨rs, rfl, hds⟩ := ih hrest
      exact ⟨v :: rs, (streamEvents_cons v rs).symm, .cons hw hds⟩

end Trees

end YamlDelta.Markup
