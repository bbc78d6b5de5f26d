/-
Handing tokens on early changes nothing.

A scan fetches tokens and hands them on in turns, so that what has been handed on does not
change any more.  Between two fetches it may also drop a key that has become too old, which
the next fetch would have dropped as well.  Neither has an influence on what is fetched: a
fetch first *settles*, which means that it skips to the next token, drops old keys and
closes the blocks that end there, and the settled scanner is the same in all respects but
the number of tokens handed on.

So a scan can be followed from one settled scanner to the next.  A *stage* is a description
of settled scanners that does not mention that number, and a way through stages is all that
is needed to know the tokens of a text (`Scan.ofText_of_way`).
-/
import Mathlib.Logic.Basic
import Mathlib.Logic.Relation
import YamlDelta.Markup.Token.Scan
import YamlDelta.Proofs.Markup.Reading

namespace YamlDelta.Markup

/-- One mark is not behind another. -/
def Mark.notAfter (m n : Mark) : Prop :=
  m.line ≤ n.line ∧ m.index ≤ n.index

theorem Mark.notAfter_refl (m : Mark) : m.notAfter m :=
  ⟨Nat.le_refl _, Nat.le_refl _⟩

theorem Mark.notAfter.trans {m n k : Mark} (h : m.notAfter n) (h' : n.notAfter k) :
    m.notAfter k :=
  ⟨Nat.le_trans h.1 h'.1, Nat.le_trans h.2 h'.2⟩

namespace Cursor

variable {c c' : Cursor}

theorem notAfter_advanceBlank (n : Nat) (c : Cursor) : c.mark.notAfter (c.advanceBlank n).mark :=
  ⟨Nat.le_refl _, Nat.le_add_right _ _⟩

theorem notAfter_passLine (c : Cursor) : c.mark.notAfter c.passLine.mark :=
  ⟨Nat.le_refl _, Nat.le_add_right _ _⟩

theorem notAfter_passBreak (c : Cursor) : c.mark.notAfter c.passBreak.mark := by
  unfold passBreak
  dsimp only
  split
  · exact ⟨Nat.le_succ _, by simp [advanceBreak, advanceBlank, look]; omega⟩
  · split
    · exact ⟨Nat.le_succ _, Nat.le_succ _⟩
    · exact Mark.notAfter_refl _

theorem notAfter_passInline {tabs : Bool} {found : Blanks}
    (h : c.passInline tabs = .ok (found, c')) : c.mark.notAfter c'.mark := by
  unfold passInline at h
  simp only [] at h
  split at h
  · split at h
    · cases h
    · cases h
      refine ⟨Nat.le_refl _, ?_⟩
      simp [passLine, passWhile, passBlanks, advance, advanceBlank, look]
      omega
  · cases h
    exact notAfter_advanceBlank _ _

end Cursor

namespace Scanner

variable {s s' : Scanner}

/-! ### Settling -/

/-- Skip to the next token, drop the keys that have become too old, and close the blocks that end
there. -/
def settle (s : Scanner) : Except Fault Scanner := do
  let s ← (s.withCursor (s.cursor.look 1)).skipToToken
  let s ← s.dropStaleKeys
  let s := s.closeBlocks s.cursor.column
  .ok (s.withCursor (s.cursor.look 4))

/-- Read the token that begins here. -/
def dispatch (s : Scanner) : Except Fault Scanner :=
  if isEnd s.cursor.head then s.fetchStreamEnd
  else if s.cursor.column == 0 && s.cursor.head == '%' then s.fetchDirective
  else if s.cursor.isMarkerOf '-' then s.fetchMarker .documentStart
  else if s.cursor.isMarkerOf '.' then s.fetchDocumentEnd
  else if (s.cursor.column : Int) < s.indent then s.fault .indentation
  else s.fetchLexeme

theorem fetch_eq (s : Scanner) : s.fetch = s.settle.bind dispatch := by
  unfold fetch settle
  simp only []
  cases hskip : (s.withCursor (s.cursor.look 1)).skipToToken with
  | error e => rfl
  | ok t =>
      show (t.dropStaleKeys >>= _) = ((t.dropStaleKeys >>= _).bind _)
      cases ht : t.dropStaleKeys with
      | error e => rfl
      | ok u => rfl

/-! ### What settling depends on -/

/-- The scanner with other keys, and another number of tokens handed on. -/
def withKeys (keys : List KeyCandidate) (delivered : Nat) (s : Scanner) : Scanner :=
  { s with keys, delivered }

variable (keys : List KeyCandidate) (n : Nat)

theorem withKeys_withCursor (s : Scanner) (c : Cursor) :
    (s.withKeys keys n).withCursor c = (s.withCursor c).withKeys keys n := rfl

theorem passBreak_eq (s : Scanner) :
    s.passBreak =
      { s with cursor := s.cursor.passBreak, keyAllowed := !s.inFlow || s.keyAllowed } := by
  unfold passBreak inFlow
  dsimp only [withCursor, allowKey]
  cases s.depth != 0 <;> rfl

theorem withKeys_passBreak (s : Scanner) :
    (s.withKeys keys n).passBreak = s.passBreak.withKeys keys n := by
  rw [passBreak_eq, passBreak_eq]
  rfl

/-- Skipping takes no notice of keys. -/
theorem skipGaps_withKeys (fuel : Nat) (s : Scanner) :
    skipGaps fuel (s.withKeys keys n) = (skipGaps fuel s).map (withKeys keys n) := by
  induction fuel generalizing s with
  | zero => rfl
  | succ fuel ih =>
      rw [skipGaps, skipGaps]
      simp only [withKeys_withCursor, withKeys_passBreak, ih,
        apply_ite (Except.map (withKeys keys n))]
      refine ite_congr rfl (fun _ => ?_) (fun _ => rfl)
      show (Cursor.passInline true (s.cursor.look 1)).bind _ =
        ((Cursor.passInline true (s.cursor.look 1)).bind _).map _
      cases (s.cursor.look 1).passInline true with
      | error e => rfl
      | ok r =>
          dsimp only [Except.bind]
          rw [apply_ite (Except.map (withKeys keys n))]
          rfl

/-- Skipping changes nothing but the place and whether a key may begin there. -/
theorem skipGaps_frame {fuel : Nat} (h : skipGaps fuel s = .ok s') :
    s.mark.notAfter s'.mark ∧
      s' = { s with cursor := s'.cursor, keyAllowed := s'.keyAllowed } := by
  induction fuel generalizing s with
  | zero =>
      cases h
      exact ⟨Mark.notAfter_refl _, rfl⟩
  | succ fuel ih =>
      rw [skipGaps] at h
      dsimp only at h
      split at h
      · obtain ⟨⟨found, c⟩, hc, h⟩ := exists_of_bind_ok h
        dsimp only at h
        split at h
        · obtain ⟨hmark, hs'⟩ := ih h
          exact ⟨(Cursor.notAfter_passInline hc).trans hmark, hs'⟩
        · cases h
      · split at h
        · obtain ⟨hmark, hs'⟩ := ih h
          exact ⟨(Cursor.notAfter_advanceBlank 1 _).trans hmark, hs'⟩
        · split at h
          · rw [passBreak_eq] at h
            obtain ⟨hmark, hs'⟩ := ih h
            exact ⟨(Cursor.notAfter_passBreak (s.cursor.look 1)).trans hmark, hs'⟩
          · split at h
            · obtain ⟨hmark, hs'⟩ := ih h
              exact ⟨(Cursor.notAfter_passLine (s.cursor.look 1)).trans hmark, hs'⟩
            · cases h
              exact ⟨Mark.notAfter_refl _, rfl⟩

/-- The scanner with another number of tokens handed on. -/
def withDelivered (n : Nat) (s : Scanner) : Scanner :=
  { s with delivered := n }

theorem closeTo_withDelivered (column : Int) (is : List Indent) (s : Scanner) :
    closeTo column (s.withDelivered n) is = (closeTo column s is).withDelivered n := by
  induction is generalizing s with
  | nil => rfl
  | cons i is ih =>
      rw [closeTo, closeTo, apply_ite (withDelivered n)]
      refine ite_congr rfl (fun _ => ?_) (fun _ => rfl)
      dsimp only
      rw [← ih]
      cases i.isBlock <;> rfl

theorem closeBlocks_withDelivered (column : Int) (s : Scanner) :
    (s.withDelivered n).closeBlocks column = (s.closeBlocks column).withDelivered n := by
  unfold closeBlocks
  rw [apply_ite (withDelivered n), ← closeTo_withDelivered]
  rfl

/-- Closing blocks only appends tokens. -/
theorem prefix_closeTo (column : Int) (is : List Indent) (s : Scanner) :
    s.tokens.toList <+: (closeTo column s is).tokens.toList := by
  induction is generalizing s with
  | nil => exact List.prefix_rfl
  | cons i is ih =>
      rw [closeTo]
      split
      · refine List.IsPrefix.trans ?_ (ih _)
        cases i.isBlock with
        | false => exact List.prefix_rfl
        | true =>
            show s.tokens.toList <+: (s.tokens.push _).toList
            rw [Array.toList_push]
            exact List.prefix_append _ _
      · exact List.prefix_rfl

theorem closeTo_delivered (column : Int) (is : List Indent) (s : Scanner) :
    (closeTo column s is).delivered = s.delivered := by
  induction is generalizing s with
  | nil => rfl
  | cons i is ih =>
      rw [closeTo]
      split
      · rw [ih]
        split <;> rfl
      · rfl

/-- The keys that are left at a mark. -/
def keysAt (now : Mark) (keys : List KeyCandidate) : List KeyCandidate :=
  keys.map fun k => if isStale now k then k.withdraw else k

/-- Some key is missed at a mark. -/
def missesKey (now : Mark) (keys : List KeyCandidate) : Bool :=
  keys.any fun k => isStale now k && k.required

theorem dropStaleKeys_eq (s : Scanner) :
    s.dropStaleKeys =
      if s.inFlow then .ok s
      else if missesKey s.mark s.keys then s.fault .staleKey
      else .ok (s.withKeys (keysAt s.mark s.keys) s.delivered) := rfl

theorem isStale_mono {now later : Mark} (h : now.notAfter later) {k : KeyCandidate}
    (hk : isStale now k = true) : isStale later k = true := by
  obtain ⟨hline, hindex⟩ := h
  simp only [isStale, Bool.and_eq_true, Bool.or_eq_true, decide_eq_true_eq] at hk ⊢
  exact ⟨hk.1, by omega⟩

theorem missesKey_mono {now later : Mark} (h : now.notAfter later) {ks : List KeyCandidate}
    (hks : missesKey later ks = false) : missesKey now ks = false := by
  simp only [missesKey, List.any_eq_false, Bool.and_eq_true, not_and] at hks ⊢
  exact fun k hk hstale => hks k hk (isStale_mono h hstale)

theorem isStale_withdraw (now : Mark) (k : KeyCandidate) : isStale now k.withdraw = false := rfl

/-- What is dropped now need not be dropped later. -/
theorem keysAt_keysAt {now later : Mark} (h : now.notAfter later) (ks : List KeyCandidate) :
    keysAt later (keysAt now ks) = keysAt later ks := by
  rw [keysAt, keysAt, keysAt, List.map_map]
  refine List.map_congr_left fun k _ => ?_
  rw [Function.comp_apply]
  by_cases hk : isStale now k = true
  · rw [if_pos hk, if_pos (isStale_mono h hk),
      if_neg (by rw [isStale_withdraw]; exact Bool.false_ne_true)]
  · rw [if_neg hk]

theorem missesKey_keysAt {now later : Mark} {ks : List KeyCandidate}
    (h : missesKey later ks = false) : missesKey later (keysAt now ks) = false := by
  simp only [missesKey, keysAt, List.any_map, List.any_eq_false, Function.comp_apply,
    Bool.and_eq_true, not_and] at h ⊢
  intro k hk hstale
  split at hstale
  · rw [isStale_withdraw] at hstale
    cases hstale
  · rename_i hnow
    rw [if_neg hnow]
    exact h k hk hstale

theorem dropStaleKeys_frame (h : s.dropStaleKeys = .ok s') :
    s' = s.withKeys s'.keys s.delivered := by
  rw [dropStaleKeys_eq] at h
  split at h
  · cases h
    rfl
  · split at h
    · cases h
    · cases h
      rfl

/-- What settling does: it skips, drops keys and closes blocks. -/
theorem exists_of_settle (h : s.settle = .ok s') :
    ∃ t u, (s.withCursor (s.cursor.look 1)).skipToToken = .ok t ∧ s.mark.notAfter t.mark ∧
      t = { s with cursor := t.cursor, keyAllowed := t.keyAllowed } ∧
      t.dropStaleKeys = .ok u ∧ u = t.withKeys u.keys t.delivered ∧
      s' = (u.closeBlocks u.cursor.column).withCursor
        ((u.closeBlocks u.cursor.column).cursor.look 4) := by
  obtain ⟨t, ht, h⟩ := exists_of_bind_ok h
  obtain ⟨hmark, hframe⟩ := skipGaps_frame ht
  obtain ⟨u, hu, h⟩ := exists_of_bind_ok h
  exact ⟨t, u, ht, hmark, hframe, hu, dropStaleKeys_frame hu, (Except.ok.inj h).symm⟩

/-- Scanners that are the same but for old keys and the tokens handed on settle in the same way. -/
theorem settle_withKeys (h : s.settle = .ok s') {ks : List KeyCandidate}
    (hflow : s.inFlow = true → ks = s.keys)
    (hks : s.inFlow = false → ∀ later, s.mark.notAfter later → missesKey later s.keys = false →
      missesKey later ks = false ∧ keysAt later ks = keysAt later s.keys) :
    (s.withKeys ks n).settle = .ok (s'.withDelivered n) := by
  obtain ⟨t, u, ht, hmark, hframe, hu, -, rfl⟩ := exists_of_settle h
  have hskip : ((s.withKeys ks n).withCursor ((s.withKeys ks n).cursor.look 1)).skipToToken =
      .ok (t.withKeys ks n) := by
    have hgaps := skipGaps_withKeys ks n ((s.withCursor (s.cursor.look 1)).cursor.rest.length + 1)
      (s.withCursor (s.cursor.look 1))
    rw [show skipGaps _ (s.withCursor (s.cursor.look 1)) = .ok t from ht] at hgaps
    exact hgaps
  have hkeys : t.keys = s.keys := by rw [hframe]
  have hdepth : t.inFlow = s.inFlow := by rw [hframe]; rfl
  have hdrop : (t.withKeys ks n).dropStaleKeys = .ok (u.withDelivered n) := by
    have hflow' : (t.withKeys ks n).inFlow = t.inFlow := rfl
    rw [dropStaleKeys_eq] at hu ⊢
    rw [hflow']
    split at hu
    · rename_i hf
      cases hu
      rw [if_pos hf, hflow (hdepth ▸ hf), ← hkeys]
      rfl
    · rename_i hf
      split at hu
      · cases hu
      · rename_i hmiss
        rw [Bool.not_eq_true, hkeys] at hmiss
        obtain ⟨hmiss', hsame⟩ := hks (by rw [← hdepth]; simpa using hf) t.mark hmark hmiss
        have hmiss'' : missesKey (t.withKeys ks n).mark (t.withKeys ks n).keys = false := hmiss'
        cases hu
        rw [if_neg hf, hmiss'', if_neg Bool.false_ne_true, hkeys, ← hsame]
        rfl
  unfold settle
  rw [hskip]
  show Except.bind (t.withKeys ks n).dropStaleKeys _ = _
  rw [hdrop]
  show Except.ok _ = Except.ok _
  rw [closeBlocks_withDelivered]
  rfl

/-- A scanner settles in the same way whatever has been handed on. -/
theorem settle_withDelivered (h : s.settle = .ok s') :
    (s.withDelivered n).settle = .ok (s'.withDelivered n) :=
  settle_withKeys n h (fun _ => rfl) fun _ _ _ hmiss => ⟨hmiss, rfl⟩

theorem withDelivered_self (h : s'.delivered = n) : s'.withDelivered n = s' := by
  rw [← h]
  rfl

theorem settle_delivered (h : s.settle = .ok s') : s'.delivered = s.delivered := by
  obtain ⟨t, u, -, -, hframe, -, hu, rfl⟩ := exists_of_settle h
  have hdelivered : u.delivered = s.delivered := by rw [hu, hframe]; rfl
  show (u.closeBlocks u.cursor.column).delivered = s.delivered
  unfold closeBlocks
  split
  · exact hdelivered
  · rw [closeTo_delivered, hdelivered]

/-- Settling keeps all tokens. -/
theorem prefix_settle (h : s.settle = .ok s') : s.tokens.toList <+: s'.tokens.toList := by
  obtain ⟨t, u, -, -, hframe, -, hu, rfl⟩ := exists_of_settle h
  have htokens : u.tokens = s.tokens := by rw [hu, hframe]; rfl
  show _ <+: (u.closeBlocks u.cursor.column).tokens.toList
  rw [← htokens]
  unfold closeBlocks
  split
  · exact List.prefix_rfl
  · exact prefix_closeTo _ _ _

/-- A scanner that can settle has missed no key yet, and settles in the same way after dropping what
is old. -/
theorem exists_dropStaleKeys (h : s.settle = .ok s') :
    ∃ ks, s.dropStaleKeys = .ok (s.withKeys ks s.delivered) ∧
      (s.withKeys ks s.delivered).settle = .ok s' := by
  have hself := withDelivered_self _ (settle_delivered h)
  by_cases hf : s.inFlow = true
  · refine ⟨s.keys, by rw [dropStaleKeys_eq, if_pos hf]; rfl, ?_⟩
    rw [settle_withKeys s.delivered h (fun _ => rfl) fun _ _ _ hmiss => ⟨hmiss, rfl⟩, hself]
  · have hmiss : missesKey s.mark s.keys = false := by
      obtain ⟨t, u, -, hmark, hframe, hu, -⟩ := exists_of_settle h
      have hkeys : t.keys = s.keys := by rw [hframe]
      have hdepth : t.inFlow = s.inFlow := by rw [hframe]; rfl
      rw [dropStaleKeys_eq, hdepth, if_neg hf] at hu
      split at hu
      · cases hu
      · rename_i hmiss
        rw [Bool.not_eq_true, hkeys] at hmiss
        exact missesKey_mono hmark hmiss
    refine ⟨keysAt s.mark s.keys, ?_, ?_⟩
    · rw [dropStaleKeys_eq, if_neg hf, hmiss, if_neg Bool.false_ne_true]
    · rw [settle_withKeys s.delivered h (fun hflow => absurd hflow hf) fun _ later hlater hlater' =>
        ⟨missesKey_keysAt hlater', keysAt_keysAt hlater _⟩, hself]

/-- Where no key is old, none is dropped. -/
theorem dropStaleKeys_of_fresh (h : ∀ k ∈ s.keys, isStale s.mark k = false) :
    s.dropStaleKeys = .ok s := by
  have hmiss : missesKey s.mark s.keys = false := by
    rw [missesKey, List.any_eq_false]
    intro k hk
    simp [h k hk]
  have hkeys : keysAt s.mark s.keys = s.keys := by
    rw [keysAt]
    refine (List.map_congr_left fun k hk => ?_).trans (List.map_id _)
    rw [h k hk, if_neg Bool.false_ne_true]
    rfl
  rw [dropStaleKeys_eq, hmiss, if_neg Bool.false_ne_true, hkeys]
  split <;> rfl

theorem dropStaleKeys_of_impossible (h : ∀ k ∈ s.keys, k.possible = false) :
    s.dropStaleKeys = .ok s :=
  dropStaleKeys_of_fresh fun k hk => by rw [isStale, h k hk, Bool.false_and]

/-! ### Stages -/

/-- Read one token, and settle before the next. -/
def next (s : Scanner) : Except Fault Scanner :=
  s.dispatch.bind settle

end Scanner

/-- A description of settled scanners with the same number of tokens, whatever has been handed on.
The last token of the text is not among them. -/
structure Stage where
  holds : Scanner → Prop
  /-- The number of tokens. -/
  size : Nat
  timeless : ∀ {s} (n : Nat), holds s → holds (s.withDelivered n)
  size_eq : ∀ {s}, holds s → s.tokens.size = size
  open_end : ∀ {s}, holds s → ∀ t ∈ s.tokens, t.lexeme ≠ .streamEnd

/-- Reading one token leads from one stage to the other. -/
structure Leads (A B : Stage) : Prop where
  size_lt : A.size < B.size
  next : ∀ s, A.holds s → ∃ s', s.next = .ok s' ∧ s'.delivered = s.delivered ∧ B.holds s'

/-- Reading any number of tokens leads from one stage to the other. -/
abbrev Way : Stage → Stage → Prop :=
  Relation.ReflTransGen Leads

theorem Way.size_le {A B : Stage} (h : Way A B) : A.size ≤ B.size := by
  induction h with
  | refl => exact Nat.le_refl _
  | tail _ hstep ih => exact Nat.le_of_lt (Nat.lt_of_le_of_lt ih hstep.size_lt)

/-- The scan has come to the end of the text, with these tokens. -/
structure Finished (lexemes : List Lexeme) (s : Scanner) : Prop where
  tokens : s.tokens.toList.map Token.lexeme = lexemes ++ [.streamEnd]
  open_end : ∀ l ∈ lexemes, l ≠ .streamEnd
  keys : ∀ k ∈ s.keys, k.possible = false

namespace Scan

open Scanner

theorem run_fetch {s s' : Scanner} (hnone : s.tokens[s.delivered]? = none) (h : s.fetch = .ok s')
    (fuel : Nat) : run (fuel + 1) s = run fuel s' := by
  rw [run]
  simp only [hnone, h]

theorem run_fetch_error {s : Scanner} {e : Fault} (hnone : s.tokens[s.delivered]? = none)
    (h : s.fetch = .error e) (fuel : Nat) : run (fuel + 1) s = stop s (some e) := by
  rw [run]
  simp only [hnone, h]

theorem run_missing_key {s : Scanner} {t : Token} {e : Fault}
    (hsome : s.tokens[s.delivered]? = some t) (h : s.dropStaleKeys = .error e) (fuel : Nat) :
    run (fuel + 1) s = stop s (some e) := by
  rw [run]
  simp only [hsome, h]

theorem run_wait {s s' : Scanner} {t : Token} {ks : List KeyCandidate}
    (hsome : s.tokens[s.delivered]? = some t)
    (hdrop : s.dropStaleKeys = .ok (s.withKeys ks s.delivered))
    (hkeys : (ks.any fun k => k.possible && k.number == s.delivered) = true)
    (h : (s.withKeys ks s.delivered).fetch = .ok s') (fuel : Nat) :
    run (fuel + 1) s = run fuel s' := by
  rw [run]
  simp only [hsome, hdrop, h]
  exact if_pos hkeys

theorem run_deliver {s : Scanner} {t : Token} {ks : List KeyCandidate}
    (hsome : s.tokens[s.delivered]? = some t)
    (hdrop : s.dropStaleKeys = .ok (s.withKeys ks s.delivered))
    (hkeys : (ks.any fun k => k.possible && k.number == s.delivered) = false) (fuel : Nat) :
    run (fuel + 1) s =
      if t.lexeme == .streamEnd then stop (s.withKeys ks (s.delivered + 1)) none
      else run fuel (s.withKeys ks (s.delivered + 1)) := by
  rw [run]
  simp only [hsome, hdrop]
  refine if_neg ?_
  rw [Bool.not_eq_true]
  exact hkeys

/-- At the end of the text all tokens are handed on. -/
theorem run_of_finished {lexemes : List Lexeme} {s : Scanner} (h : Finished lexemes s)
    {fuel : Nat} (hdelivered : s.delivered ≤ lexemes.length)
    (hfuel : lexemes.length + 1 ≤ fuel + s.delivered) :
    (run fuel s).tokens.map Token.lexeme = lexemes ++ [.streamEnd] ∧
      (run fuel s).fault = none := by
  induction fuel generalizing s with
  | zero => omega
  | succ fuel ih =>
      have hsize : s.tokens.size = lexemes.length + 1 := by
        rw [← Array.length_toList, ← List.length_map, h.tokens, List.length_append,
          List.length_singleton]
      have hlt : s.delivered < s.tokens.size := by omega
      have hkeys : (s.keys.any fun k => k.possible && k.number == s.delivered) = false := by
        rw [List.any_eq_false]
        intro k hk
        simp [h.keys k hk]
      obtain ⟨t, ht⟩ : ∃ t, s.tokens[s.delivered]? = some t := ⟨_, Array.getElem?_eq_getElem hlt⟩
      have hlexeme : (lexemes ++ [Lexeme.streamEnd])[s.delivered]? = some t.lexeme := by
        rw [← h.tokens, List.getElem?_map, Array.getElem?_toList, ht]
        rfl
      rw [run_deliver ht (dropStaleKeys_of_impossible h.keys) hkeys]
      by_cases hlast : s.delivered = lexemes.length
      · rw [hlast, List.getElem?_concat_length] at hlexeme
        rw [← Option.some.inj hlexeme, if_pos (beq_self_eq_true _), hlast, ← hsize]
        refine ⟨?_, rfl⟩
        show ((s.tokens.extract 0 s.tokens.size).toList).map Token.lexeme = _
        rw [Array.extract_size, h.tokens]
      · have hmem : t.lexeme ∈ lexemes := by
          rw [List.getElem?_append_left (by omega)] at hlexeme
          exact List.mem_of_getElem? hlexeme
        have hnot : (t.lexeme == Lexeme.streamEnd) = false := by
          rw [beq_eq_false_iff_ne]
          exact h.open_end _ hmem
        rw [hnot, if_neg Bool.false_ne_true]
        refine ih ⟨h.tokens, h.open_end, h.keys⟩ ?_ ?_
        · show s.delivered + 1 ≤ _
          omega
        · show _ ≤ fuel + (s.delivered + 1)
          omega

/-- A way through stages gives the tokens of a scan, and what is handed on in between does not
matter.  Every token is fetched at most once and handed on once, which bounds the steps. -/
theorem run_of_way {A B : Stage} (hway : Way A B) {lexemes : List Lexeme}
    (hend : ∀ s, B.holds s → ∃ s', s.dispatch = .ok s' ∧ s'.delivered = s.delivered ∧
      Finished lexemes s')
    (hsize : B.size ≤ lexemes.length) {s t : Scanner} (hsettle : s.settle = .ok t)
    (ht : A.holds t) {fuel : Nat} (hdelivered : s.delivered ≤ A.size)
    (hfuel : 2 * lexemes.length + 2 ≤ fuel + s.delivered + A.size) :
    (run fuel s).tokens.map Token.lexeme = lexemes ++ [.streamEnd] ∧
      (run fuel s).fault = none := by
  induction fuel generalizing A s t with
  | zero =>
      have hle := hway.size_le
      omega
  | succ fuel ih =>
      -- one more token is fetched, or the end of the text has been reached
      have hfetch : ∀ s t : Scanner, s.settle = .ok t → A.holds t → s.delivered ≤ A.size →
          2 * lexemes.length + 2 ≤ fuel + 1 + s.delivered + A.size →
          ∃ s', s.fetch = .ok s' ∧
            (run fuel s').tokens.map Token.lexeme = lexemes ++ [.streamEnd] ∧
              (run fuel s').fault = none := by
        intro s t hsettle ht hdelivered hfuel
        have heq : s.fetch = t.dispatch := by
          rw [fetch_eq, hsettle]
          rfl
        have hsame := settle_delivered hsettle
        rcases hway.cases_head with rfl | ⟨C, hstep, rest⟩
        · obtain ⟨s', hs', hdelivered', hfinished⟩ := hend t ht
          refine ⟨s', heq.trans hs', run_of_finished hfinished ?_ ?_⟩
          · omega
          · omega
        · obtain ⟨u, hu, hdelivered', hholds⟩ := hstep.next t ht
          obtain ⟨s', hs', hsettle'⟩ := exists_of_bind_ok hu
          have hsame' := settle_delivered hsettle'
          have hlt := hstep.size_lt
          refine ⟨s', heq.trans hs', ih rest hsettle' hholds ?_ ?_⟩
          · omega
          · omega
      cases htoken : s.tokens[s.delivered]? with
      | none =>
          obtain ⟨s', hs', hrun⟩ := hfetch s t hsettle ht hdelivered hfuel
          rw [run_fetch htoken hs']
          exact hrun
      | some x =>
          obtain ⟨ks, hdrop, hsettle'⟩ := exists_dropStaleKeys hsettle
          cases hkeys : ks.any fun k => k.possible && k.number == s.delivered with
          | true =>
              obtain ⟨s', hs', hrun⟩ := hfetch _ t hsettle' ht hdelivered hfuel
              rw [run_wait htoken hdrop hkeys hs']
              exact hrun
          | false =>
              have hleads := prefix_settle hsettle
              have hmem : x ∈ t.tokens :=
                Array.mem_toList_iff.mp (hleads.subset (Array.mem_toList_iff.mpr
                  (Array.mem_of_getElem? htoken)))
              have hnot : (x.lexeme == Lexeme.streamEnd) = false := by
                rw [beq_eq_false_iff_ne]
                exact A.open_end ht x hmem
              rw [run_deliver htoken hdrop hkeys, hnot, if_neg Bool.false_ne_true]
              have hlater := settle_withDelivered (s.delivered + 1) hsettle'
              refine ih hway hlater (A.timeless _ ht) ?_ ?_
              · have hlt := (Array.getElem?_eq_some_iff.mp htoken).1
                have hle := hleads.length_le
                rw [Array.length_toList, Array.length_toList, A.size_eq ht] at hle
                exact Nat.le_trans hlt hle
              · show _ ≤ fuel + (s.delivered + 1) + A.size
                omega

/-- **A way through stages gives the tokens of a text**, if there are not more than four for every
character. -/
theorem ofText_of_way {cs : List Char} {A B : Stage} (hway : Way A B) {lexemes : List Lexeme}
    {t : Scanner} (hsettle : (Scanner.ofText cs).settle = .ok t) (ht : A.holds t)
    (hend : ∀ s, B.holds s → ∃ s', s.dispatch = .ok s' ∧ s'.delivered = s.delivered ∧
      Finished lexemes s')
    (hsize : B.size ≤ lexemes.length) (hlength : lexemes.length ≤ 4 * cs.length + 7) :
    (Scan.ofText cs).tokens.map Token.lexeme = lexemes ++ [.streamEnd] ∧
      (Scan.ofText cs).fault = none :=
  run_of_way hway hend hsize hsettle ht (Nat.zero_le _) (by omega)

end Scan

end YamlDelta.Markup
