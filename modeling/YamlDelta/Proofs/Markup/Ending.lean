/-
The reader comes to the end of the stream.

A step takes tokens or lowers the cost of what is expected, so a token pays for a few steps, and the
reader does not run out of steps before it has come to the end (`exists_of_events`).  On the way
every event is told by the tokens that its step takes.  So the events of a scan are those of trees
from the first to the last, and its tokens tell them (`exists_streamEvents_of_ofScan`): what is
written is there once and in order, and what has no token has been left out.
-/
import Mathlib.Data.List.TakeWhile
import YamlDelta.Proofs.Markup.Taking

namespace YamlDelta.Markup

open Expectation

/-! ### Tokens and events -/

/-- The tokens tell the events: they fall into stretches, one for each event and one at the end that
tells nothing. -/
inductive Tells : List Token → List Event → Prop
  | nil {ts : List Token} (scalars : scalarTokens ts = []) : Tells ts []
  | cons {ts us : List Token} {e : Event} {es : List Event} (told : Told ts us e)
      (rest : Tells us es) : Tells (ts ++ us) (e :: es)

/-- Nothing comes after the end of the stream. -/
def Ended (ts : List Token) : Prop :=
  ∀ us u left, ts = us ++ u :: left → u.lexeme = .streamEnd → left = []

/-- More tokens that are no scalars come first. -/
theorem Tells.append {ts us : List Token} {es : List Event} (h : Tells us es)
    (hts : scalarTokens ts = []) : Tells (ts ++ us) es := by
  cases h with
  | nil hus => exact .nil (by rw [scalarTokens_append, hts, hus]; rfl)
  | cons htold hrest =>
      rw [← List.append_assoc]
      exact .cons (htold.append hts) hrest

theorem Ended.of_append {ts us : List Token} (h : Ended (ts ++ us)) : Ended us :=
  fun vs u left hus => h (ts ++ vs) u left (by rw [hus, List.append_assoc])

namespace Reader

variable {r s : Reader} {E : List Expectation} {x y : Expectation} {e : Event} {ts : List Token}

/-! ### Documents -/

/-- A step has taken the tokens that tell its event, and fewer steps are left.  Nothing is expected
only after the end of the stream, which makes no event. -/
structure Advances (o : Option Event) (r s : Reader) : Prop where
  tokens : ∃ ts, r.tokens = ts ++ s.tokens ∧ o.elim (scalarTokens ts = []) (Told ts s.tokens) ∧
    (s.expected = [] → ∃ pre u, ts = pre ++ [u] ∧ u.lexeme = .streamEnd ∧ o = none)
  ready : Ready s.tokens s.expected
  cost_lt : s.cost < r.cost

theorem cost_eq (hr : r.expected = x :: E) :
    r.cost = 8 * r.tokens.length + (x.cost r.tokens + mostOf E) := by
  rw [cost, hr]
  rfl

/-- No scalars have been passed, and then something is expected. -/
theorem advances_of_passed {o : Option Event} (hr : r.expected = [x])
    (htokens : r.tokens = ts ++ s.tokens) (hscalars : scalarTokens ts = [])
    (ho : o.all Event.isBare = true) (hs : s.expected = y :: E)
    (hopens : ∀ z ∈ y :: E, z.opens = false)
    (hcost : costOf s.tokens (y :: E) < 8 * ts.length + x.cost r.tokens) : Advances o r s := by
  refine ⟨⟨ts, htokens, ?_, fun h => ?_⟩, ?_, ?_⟩
  · cases o with
    | none => exact hscalars
    | some e => exact told_of_isBare ho hscalars
  · rw [hs] at h
    cases h
  · rw [hs]
    exact ready_of_not_opens hopens
  · rw [cost_eq hr, cost, hs, htokens, List.length_append, ← htokens]
    show _ < 8 * (ts.length + s.tokens.length) + (x.cost r.tokens + 0)
    omega

theorem exists_of_directives {versioned : Bool} (hr : r.tokens = ts)
    (h : r.directives ts versioned = .ok s) :
    ∃ us, ts = us ++ s.tokens ∧ scalarTokens us = [] := by
  induction ts generalizing r versioned with
  | nil => cases h
  | cons t ts ih =>
      rw [directives] at h
      split at h
      · rename_i ht
        split at h
        · cases h
        · obtain ⟨us, hus, hscalars⟩ := ih rfl h
          refine ⟨t :: us, by rw [hus]; rfl, ?_⟩
          rw [scalarTokens_cons_of_not (isScalar_of_lexeme ht rfl), hscalars]
      · rename_i ht
        obtain ⟨us, hus, hscalars⟩ := ih rfl h
        refine ⟨t :: us, by rw [hus]; rfl, ?_⟩
        rw [scalarTokens_cons_of_not (isScalar_of_lexeme ht rfl), hscalars]
      · cases h
        exact ⟨[], hr.symm, rfl⟩

theorem exists_of_explicitDocument (h : r.explicitDocument = .ok (e, s)) :
    ∃ ts, r.tokens = ts ++ s.tokens ∧ scalarTokens ts = [] ∧ 0 < ts.length := by
  obtain ⟨q, hq, h⟩ := exists_of_bind_ok h
  obtain ⟨us, hus, hscalars⟩ := exists_of_directives rfl hq
  obtain ⟨t, ht, h⟩ := exists_of_bind_ok h
  split at h
  · rename_i hstart
    cases h
    have hlexeme : t.lexeme = .documentStart := eq_of_beq hstart
    refine ⟨us ++ [t], ?_, ?_, by rw [List.length_append]; exact Nat.succ_pos _⟩
    · rw [hus, tokens_of_peek ht, List.append_assoc]
      rfl
    · rw [scalarTokens_append, hscalars,
        scalarTokens_cons_of_not (isScalar_of_lexeme hlexeme rfl)]
      rfl
  · cases h

theorem exists_of_passDocumentEnds (r : Reader) :
    ∃ ts, r.tokens = ts ++ r.passDocumentEnds.tokens ∧ scalarTokens ts = [] := by
  refine ⟨r.tokens.takeWhile (·.lexeme == .documentEnd), List.takeWhile_append_dropWhile.symm, ?_⟩
  refine List.filter_eq_nil_iff.mpr fun t ht => ?_
  have hend := List.mem_takeWhile_imp ht
  rw [isScalar_of_lexeme (eq_of_beq hend) rfl]
  exact Bool.false_ne_true

theorem advances_nextDocument {implicit : Bool} {o : Option Event} (hr : r.expected = [x])
    (hx : implicit = true → x = .implicitDocument) (h : r.nextDocument implicit = .ok (o, s)) :
    Advances o r s := by
  obtain ⟨ends, hends, hscalars⟩ := r.exists_of_passDocumentEnds
  have hpos := x.cost_pos r.tokens
  have hexplicit : ∀ {o}, r.passDocumentEnds.explicitDocument.bind
      (fun p => Except.ok (some p.1, p.2)) = .ok (o, s) → Advances o r s := by
    intro o h
    obtain ⟨⟨e, q⟩, hq, h⟩ := exists_of_bind_ok h
    obtain ⟨ts, hts, hscalars', hlength⟩ := exists_of_explicitDocument hq
    obtain ⟨rfl, hexpected⟩ := expected_explicitDocument (r := r.passDocumentEnds) hr hq
    cases h
    have htokens : r.tokens = (ends ++ ts) ++ q.tokens := by
      rw [hends, hts, List.append_assoc]
    refine advances_of_passed hr htokens ?_ rfl hexpected (by decide) ?_
    · rw [scalarTokens_append, hscalars, hscalars']
      rfl
    · rw [List.length_append]
      show 4 + (2 + 0) < _
      omega
  obtain ⟨t, ht, h⟩ := exists_of_bind_ok h
  have htokens := tokens_of_peek ht
  split at h
  · rename_i hend
    cases h
    refine ⟨⟨ends ++ [t], ?_, ?_, fun _ => ⟨ends, t, rfl, hend, rfl⟩⟩, ready_nil, ?_⟩
    · rw [hends, htokens, List.append_assoc]
      rfl
    · rw [scalarTokens_append, hscalars, scalarTokens_cons_of_not (isScalar_of_lexeme hend rfl)]
      rfl
    · rw [cost_eq hr, hends, htokens, List.length_append, List.length_cons]
      show 8 * r.passDocumentEnds.pass.tokens.length + 0 < _
      omega
  · exact hexplicit h
  · exact hexplicit h
  · exact hexplicit h
  · split at h
    · rename_i himplicit
      cases h
      obtain rfl := hx himplicit
      refine advances_of_passed (y := .blockNode) (E := [.documentEnd]) hr hends hscalars rfl ?_
        (by decide) ?_
      · show .blockNode :: .documentEnd :: r.expected.drop 1 = _
        rw [hr]
        rfl
      · show 4 + (2 + 0) < 8 * ends.length + 7
        omega
    · exact hexplicit h

theorem advances_documentEnd (hr : r.expected = [.documentEnd])
    (h : r.documentEnd = .ok (e, s)) : Advances (some e) r s := by
  have hdrop : r.expected.drop 1 = [] := by rw [hr]; rfl
  obtain ⟨t, ht, h⟩ := exists_of_bind_ok h
  have htokens := tokens_of_peek ht
  dsimp only at h
  split at h
  · rename_i hend
    cases h
    have hscalars : scalarTokens [t] = [] :=
      scalarTokens_cons_of_not (isScalar_of_lexeme hend rfl) []
    exact advances_of_passed hr htokens hscalars rfl
      (congrArg (Expectation.implicitDocument :: ·) hdrop) (by decide) (Nat.le_add_left 8 2)
  · cases h
  · cases h
  · cases h
    exact advances_of_passed hr (List.nil_append r.tokens).symm rfl rfl
      (congrArg (Expectation.document :: ·) hdrop) (by decide) (Nat.lt_succ_self 1)

/-- **Every step takes the tokens that tell its event**, and leaves fewer steps to come. -/
theorem advances_step {o : Option Event} (hclear : r.Clear) (hr : r.expected = x :: E)
    (hE : Stacked (x :: E)) (hready : Ready r.tokens (x :: E)) (h : r.step x = .ok (o, s)) :
    Advances o r s := by
  generalize hS : x :: E = S at hE
  cases hE with
  | ended => cases hS
  | stream hy =>
      obtain ⟨rfl, rfl⟩ := List.cons.inj hS
      rcases hy with rfl | rfl
      · have h : r.nextDocument true = .ok (o, s) := h
        exact advances_nextDocument hr (fun _ => rfl) h
      · have h : r.nextDocument false = .ok (o, s) := h
        exact advances_nextDocument hr (fun h => absurd h Bool.false_ne_true) h
  | @document E' hE' =>
      cases E' with
      | nil =>
          obtain ⟨rfl, rfl⟩ := List.cons.inj hS
          obtain ⟨e, rfl, hend⟩ := exists_of_some' h
          exact advances_documentEnd hr hend
      | cons y E' =>
          have hS : x :: E = y :: (E' ++ [.documentEnd]) := hS
          obtain ⟨rfl, rfl⟩ := List.cons.inj hS
          obtain ⟨e, rfl, E₁, ts, hs, htokens, hscalars, hready', hcost⟩ :=
            takes_step hclear hr (hE' x List.mem_cons_self) hready h
          refine ⟨⟨ts, htokens, hscalars, fun h => ?_⟩, ?_, ?_⟩
          · rw [hs] at h
            simp at h
          · rw [hs]
            exact hready'.append hready.others
          · have hle := costOf_append s.tokens E₁ (E' ++ [.documentEnd])
            rw [cost_eq hr, cost, hs, htokens, List.length_append, ← htokens]
            omega

/-! ### Whole runs -/

/-- **With enough steps the reader comes to the end of the stream**, and the tokens tell its
events. -/
theorem exists_of_events {fuel : Nat} {es : List Event} (hclear : r.Clear) (hended : Ended r.tokens)
    (hE : Stacked r.expected) (hready : Ready r.tokens r.expected) (hne : r.expected ≠ [])
    (hcost : r.cost ≤ fuel) (h : r.events fuel = .ok es) :
    Remaining r.expected es ∧ Tells r.tokens es := by
  induction fuel generalizing r es with
  | zero =>
      obtain ⟨x, E, hr⟩ := List.exists_cons_of_ne_nil hne
      have hpos := x.cost_pos r.tokens
      rw [cost_eq hr] at hcost
      omega
  | succ fuel ih =>
      obtain ⟨x, E, hr⟩ := List.exists_cons_of_ne_nil hne
      rw [events, hr] at h
      rw [hr] at hE hready
      obtain ⟨⟨o, s⟩, hs, h⟩ := exists_of_bind_ok h
      obtain ⟨rest, hrest, h⟩ := exists_of_bind_ok h
      cases h
      obtain ⟨⟨ts, htokens, htells, hlast⟩, hready', hlt⟩ :=
        advances_step hclear hr hE hready hs
      obtain ⟨hE', hstep⟩ := remaining_step hr hE hs
      rw [hr]
      by_cases hend : s.expected = []
      · have hnil : rest = [] := by
          rw [show s.events fuel = .ok [] by
            cases fuel with
            | zero => rfl
            | succ fuel => rw [events, hend]] at hrest
          exact (Except.ok.inj hrest).symm
        subst hnil
        obtain ⟨pre, u, rfl, hu, rfl⟩ := hlast hend
        have hpre : scalarTokens (pre ++ [u]) = [] := htells
        -- the end of the stream is the last token, so nothing has been left unread
        have hleft : s.tokens = [] := by
          refine hended pre u s.tokens ?_ hu
          rw [htokens, List.append_assoc]
          rfl
        refine ⟨hstep [] (by rw [hend]; rfl), .nil ?_⟩
        rw [htokens, hleft, List.append_nil, hpre]
      · have hclear' : s.Clear :=
          ⟨(htokens ▸ hclear.solid).of_append, omitted_step hs hclear.omitted⟩
        obtain ⟨hremaining, htells'⟩ :=
          ih hclear' (htokens ▸ hended).of_append hE' hready' hend (by omega) hrest
        refine ⟨hstep rest hremaining, ?_⟩
        rw [htokens]
        cases o with
        | none => exact htells'.append htells
        | some e => exact .cons htells htells'

end Reader

/-- **The events of a scan are those of trees, which the tokens tell.** -/
theorem exists_streamEvents_of_ofScan {scan : Scan} {es : List Event} (hsolid : Solid scan.tokens)
    (hended : Ended scan.tokens) (h : Event.ofScan scan = .ok es) :
    ∃ ds, es = streamEvents ds ∧ Tells (scan.tokens.drop 1) es := by
  have hcost : (Reader.ofScan scan).cost ≤ 8 * scan.tokens.length + 16 := by
    show 8 * (scan.tokens.drop 1).length + (7 + 0) ≤ _
    rw [List.length_drop]
    omega
  have hended' : Ended (scan.tokens.take 1 ++ scan.tokens.drop 1) := by
    rwa [List.take_append_drop]
  obtain ⟨hremaining, htells⟩ := Reader.exists_of_events
    ⟨fun t ht => hsolid t (List.mem_of_mem_drop ht), rfl⟩ hended'.of_append (.stream (.inl rfl))
    (ready_of_not_opens (E := [.implicitDocument]) (by decide)) (List.cons_ne_nil _ _) hcost h
  obtain ⟨ds, hds⟩ := remaining_singleton.mp hremaining
  exact ⟨ds, hds, htells⟩

end YamlDelta.Markup
