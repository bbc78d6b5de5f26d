/-
What a fetch leaves behind.

A fetch makes tokens, goes on through the text and hands nothing on.  Of its tokens only the scalars
matter here.  So a scanner is seen as its `Progress`, which most of what happens between two tokens
leaves alone, and a fetch of anything but a scalar only goes on through the text
(`Progress.Quiet`).
-/
import YamlDelta.Proofs.Markup.Extent
import YamlDelta.Proofs.Markup.Lasting
import YamlDelta.Proofs.Markup.Taking

namespace YamlDelta.Markup

/-! ### Tags and directives -/

namespace Cursor

variable {c c' : Cursor} {start : Mark} {l : Lexeme}

theorem isScalar_verbatimTag (h : c.verbatimTag start = .ok (l, c')) : l.isScalar = false := by
  obtain ⟨⟨text, d⟩, -, h⟩ := exists_of_bind_ok h
  dsimp only at h
  split at h
  · cases h
    rfl
  · cases h

theorem isScalar_shorthandTag (h : c.shorthandTag start = .ok (l, c')) : l.isScalar = false := by
  obtain ⟨⟨handle, d⟩, -, h⟩ := exists_of_bind_ok h
  obtain ⟨⟨suffix, e⟩, -, h⟩ := exists_of_bind_ok h
  dsimp only at h
  repeat' split at h
  all_goals cases h
  all_goals rfl

theorem isScalar_tag {inFlow : Bool} (h : c.tag inFlow = .ok (l, c')) : l.isScalar = false := by
  have hend : ∀ {l' : Lexeme} {d : Cursor}, l'.isScalar = false →
      (if isGap (d.look 1).head || inFlow && isFlow (d.look 1).head then .ok (l', d.look 1)
        else .error ⟨c.mark, .tagEnd⟩ : Except Fault (Lexeme × Cursor)) = .ok (l, c') →
        l.isScalar = false := by
    intro l' d hl h
    split at h
    · cases h
      exact hl
    · cases h
  unfold tag at h
  dsimp only at h
  split at h
  · obtain ⟨⟨l', d⟩, hd, h⟩ := exists_of_bind_ok h
    exact hend (isScalar_verbatimTag hd) h
  · obtain ⟨⟨l', d⟩, hd, h⟩ := exists_of_bind_ok h
    exact hend (isScalar_shorthandTag hd) h

theorem isScalar_versionDirective (h : c.versionDirective start = .ok (l, c')) :
    l.isScalar = false := by
  obtain ⟨d, -, h⟩ := exists_of_bind_ok h
  split at h
  · cases h
  · obtain ⟨e, -, h⟩ := exists_of_bind_ok h
    cases h
    rfl

theorem isScalar_tagDirective (h : c.tagDirective start = .ok (l, c')) : l.isScalar = false := by
  obtain ⟨⟨handle, d⟩, -, h⟩ := exists_of_bind_ok h
  obtain ⟨⟨text, e⟩, -, h⟩ := exists_of_bind_ok h
  dsimp only at h
  split at h
  · cases h
    rfl
  · cases h

theorem isScalar_directive (h : c.directive = .ok (l, c')) : l.isScalar = false := by
  have hend : ∀ {l' : Lexeme} {d : Cursor}, l'.isScalar = false →
      ((d.passInline true).bind fun r =>
        (if isLineEnd r.2.head then .ok (l', r.2.passBreak)
          else .error ⟨c.mark, .directiveEnd⟩ : Except Fault (Lexeme × Cursor))) = .ok (l, c') →
        l.isScalar = false := by
    intro l' d hl h
    obtain ⟨⟨found, e⟩, -, h⟩ := exists_of_bind_ok h
    dsimp only at h
    split at h
    · cases h
      exact hl
    · cases h
  obtain ⟨⟨name, d⟩, -, h⟩ := exists_of_bind_ok h
  dsimp only at h
  split at h
  · obtain ⟨⟨l', e⟩, he, h⟩ := exists_of_bind_ok h
    exact hend (isScalar_versionDirective he) h
  · split at h
    · obtain ⟨⟨l', e⟩, he, h⟩ := exists_of_bind_ok h
      exact hend (isScalar_tagDirective he) h
    · exact hend rfl h

end Cursor

namespace Scanner

open Cursor (Passes PassesIf passes_refl passes_look passes_one)

variable {s s' : Scanner} {l : Lexeme} {m : Mark}

/-! ### Progress -/

/-- What a fetch reads is seen in these parts of a scanner: its scalars, its place, and how many
tokens have been handed on, which no fetch changes. -/
structure Progress where
  scalars : List Token
  cursor : Cursor
  delivered : Nat

def progress (s : Scanner) : Progress :=
  ⟨scalarTokens s.tokens.toList, s.cursor, s.delivered⟩

theorem progress_push (s : Scanner) (m : Mark) (hl : l.isScalar = false) :
    (s.push m l).progress = s.progress := by
  have hscalars : scalarTokens (s.push m l).tokens.toList = scalarTokens s.tokens.toList := by
    rw [push, Array.toList_push, scalarTokens_append,
      scalarTokens_cons_of_not (t := ⟨m, l⟩) hl]
    exact List.append_nil _
  rw [progress, hscalars]
  rfl

theorem progress_insert (s : Scanner) (number : Nat) (m : Mark) (hl : l.isScalar = false) :
    (s.insert number m l).progress = s.progress := by
  have hscalars : scalarTokens (s.insert number m l).tokens.toList =
      scalarTokens s.tokens.toList := by
    rcases Nat.lt_or_ge s.tokens.size number with hout | hin
    · exact congrArg (scalarTokens ·.1) (stock_insert_of_lt hout m l)
    · have hnumber : (s.tokens.toList.take number).length = number := by
        rw [List.length_take, Array.length_toList, Nat.min_eq_left hin]
      have hinsert := tokens_insert (List.take_append_drop number s.tokens.toList).symm m l
      rw [hnumber] at hinsert
      rw [hinsert, scalarTokens_append, scalarTokens_cons_of_not (t := ⟨m, l⟩) hl,
        ← scalarTokens_append, List.take_append_drop]
  rw [progress, hscalars]
  rfl

theorem progress_saveKey (s : Scanner) : s.saveKey.progress = s.progress := by
  unfold saveKey
  split <;> rfl

theorem progress_dropKey (h : s.dropKey = .ok s') : s'.progress = s.progress := by
  unfold dropKey at h
  split at h
  · cases h
  · cases h
    rfl

theorem progress_dropStaleKeys (h : s.dropStaleKeys = .ok s') : s'.progress = s.progress := by
  rw [dropStaleKeys_frame h]
  rfl

theorem progress_closeTo (column : Int) (is : List Indent) (s : Scanner) :
    (closeTo column s is).progress = s.progress := by
  induction is generalizing s with
  | nil => rfl
  | cons i is ih =>
      rw [closeTo]
      split
      · rw [ih]
        split
        · exact progress_push { s with indent := i.former, indents := is } _ rfl
        · rfl
      · rfl

theorem progress_closeBlocks (s : Scanner) (column : Int) :
    (s.closeBlocks column).progress = s.progress := by
  unfold closeBlocks
  split
  · rfl
  · exact progress_closeTo _ _ _

theorem progress_openProvisional (s : Scanner) : s.openProvisional.progress = s.progress := by
  unfold openProvisional
  split
  · split <;> rfl
  · rfl

theorem dropProvisional_frame (is : List Indent) (s : Scanner) :
    ∃ indent indents, dropProvisional s is = { s with indent, indents } := by
  induction is generalizing s with
  | nil => exact ⟨_, _, rfl⟩
  | cons i is ih =>
      rw [dropProvisional]
      split
      · exact ⟨_, _, rfl⟩
      · exact ih _

theorem closeProvisional_frame (s : Scanner) :
    ∃ indent indents, s.closeProvisional = { s with indent, indents } :=
  dropProvisional_frame s.indents s

theorem progress_closeProvisional (s : Scanner) : s.closeProvisional.progress = s.progress := by
  obtain ⟨indent, indents, h⟩ := s.closeProvisional_frame
  rw [h]
  rfl

theorem saveKey_frame (s : Scanner) : ∃ keys, s.saveKey = { s with keys } := by
  unfold saveKey
  split <;> exact ⟨_, rfl⟩

theorem progress_openFlow (h : s.openFlow = .ok s') : s'.progress = s.progress := by
  unfold openFlow at h
  split at h
  · cases h
    rfl
  · cases h

theorem progress_closeFlow (s : Scanner) : s.closeFlow.progress = s.progress := by
  unfold closeFlow
  split <;> rfl

theorem progress_closePair (s : Scanner) : s.closePair.progress = s.progress := by
  unfold closePair
  split
  · exact progress_push { s with inPair := false, inMapping := false } _ rfl
  · rfl

theorem progress_openBlock (s : Scanner) (column number : Nat) (m : Mark)
    (hl : l.isScalar = false) : (s.openBlock column number l m).progress = s.progress := by
  unfold openBlock
  split
  · rfl
  · repeat' split
    all_goals
      dsimp only
      split
      · exact (progress_insert _ _ _ hl).trans rfl
      · rfl

theorem progress_allowKeyInBlock (s : Scanner) : s.allowKeyInBlock.progress = s.progress := by
  unfold allowKeyInBlock
  split <;> rfl

theorem progress_endBlocks (h : s.endBlocks = .ok s') : s'.progress = s.progress := by
  obtain ⟨t, ht, h⟩ := exists_of_bind_ok h
  cases h
  exact (progress_dropKey ht :).trans (progress_closeBlocks s (-1))

theorem progress_makeKey {k : KeyCandidate} {colon : Mark} (h : s.makeKey k colon = .ok s') :
    s'.progress = s.progress := by
  have hlead : (s.withLead k colon).progress = s.progress := by
    unfold withLead
    dsimp only
    rw [progress_openBlock _ _ _ _ rfl]
    split
    · rw [progress_insert _ _ _ rfl, progress_insert _ _ _ rfl]
    · exact progress_insert _ _ _ rfl
  rw [eq_of_makeKey h]
  exact (progress_openProvisional _).trans hlead

theorem progress_makeValue {colon : Mark} (h : s.makeValue colon = .ok s') :
    s'.progress = s.progress := by
  unfold makeValue at h
  generalize ht : (if s.inPair = true then s.push s.mark .flowMappingStart else s) = t at h
  have hpush : t.progress = s.progress := by
    rw [← ht]
    split
    · exact progress_push _ _ rfl
    · rfl
  dsimp only at h
  split at h
  · cases h
  · cases h
    rw [progress_allowKeyInBlock, progress_openProvisional, progress_openBlock _ _ _ _ rfl, hpush]

/-! ### Fetches that make no scalar -/

/-- No scalar has been made, and what has been read is passed. -/
structure Progress.Quiet (p q : Progress) : Prop where
  scalars : q.scalars = p.scalars
  passes : p.cursor.Passes q.cursor
  delivered : q.delivered = p.delivered

open Progress (Quiet)

variable {p q r : Progress} {c : Cursor}

theorem quiet_of_eq (h : q = p) : Quiet p q := by
  rw [h]
  exact ⟨rfl, passes_refl _, rfl⟩

theorem Progress.Quiet.trans (h : Quiet p q) (h' : Quiet q r) : Quiet p r :=
  ⟨h'.scalars.trans h.scalars, h.passes.trans h'.passes, h'.delivered.trans h.delivered⟩

theorem cursor_of_progress {t : Scanner} (h : t.progress = s.progress) : t.cursor = s.cursor :=
  congrArg Progress.cursor h

theorem quiet_withCursor (h : s.cursor.Passes c) : Quiet s.progress (s.withCursor c).progress :=
  ⟨rfl, h, rfl⟩

/-- One character is read. -/
theorem quiet_one (hhead : s.cursor.head ≠ '\x00') :
    Quiet s.progress (s.withCursor (s.cursor.advance 1)).progress :=
  quiet_withCursor (passes_one hhead)

theorem quiet_skipInline {tabs : Bool} {found : Cursor.Blanks}
    (h : s.skipInline tabs = .ok (found, s')) : Quiet s.progress s'.progress := by
  obtain ⟨⟨found', c⟩, hc, h⟩ := exists_of_bind_ok h
  cases h
  exact quiet_withCursor (Cursor.passes_passInline hc)

theorem quiet_passBreak (s : Scanner) : Quiet s.progress s.passBreak.progress := by
  rw [passBreak_eq]
  exact ⟨rfl, Cursor.passes_passBreak _, rfl⟩

theorem quiet_skipAfterKey (fuel : Nat) (found : Bool) (s : Scanner) :
    Quiet s.progress (skipAfterKey fuel found s).2.progress := by
  induction fuel generalizing found s with
  | zero => exact quiet_of_eq rfl
  | succ fuel ih =>
      have hlook : Quiet s.progress (s.withCursor (s.cursor.look 1)).progress :=
        quiet_withCursor (passes_look 1 _)
      rw [skipAfterKey]
      split
      · rename_i hspace
        refine hlook.trans (.trans (quiet_withCursor (Cursor.passes_advanceBlank ?_)) (ih _ _))
        exact Cursor.lt_length_of_peek (ne_of_eq_of_ne (eq_of_beq hspace) (by decide))
      · split
        · exact hlook.trans ((quiet_passBreak _).trans (ih _ _))
        · split
          · exact hlook.trans ((quiet_withCursor (Cursor.passes_passLine _)).trans (ih _ _))
          · exact hlook

theorem quiet_skipAfterValue (h : s.skipAfterValue = .ok s') : Quiet s.progress s'.progress := by
  have hlook : Quiet s.progress (s.withCursor (s.cursor.look 1)).progress :=
    quiet_withCursor (passes_look 1 _)
  unfold skipAfterValue at h
  dsimp only at h
  split at h
  · obtain ⟨⟨found, t⟩, ht, h⟩ := exists_of_bind_ok h
    dsimp only at h
    split at h
    · cases h
    · cases h
      exact hlook.trans (quiet_skipInline ht)
  · cases h
    exact hlook

theorem quiet_fetchStreamEnd (h : s.fetchStreamEnd = .ok s') : Quiet s.progress s'.progress := by
  unfold fetchStreamEnd at h
  dsimp only at h
  split at h
  · cases h
  · obtain ⟨t, ht, h⟩ := exists_of_bind_ok h
    cases h
    rw [progress_push _ _ rfl, progress_endBlocks ht]
    exact quiet_withCursor (Cursor.passes_endLine _)

theorem quiet_fetchDirective (hhead : s.cursor.head ≠ '\x00') (h : s.fetchDirective = .ok s') :
    Quiet s.progress s'.progress := by
  obtain ⟨t, ht, h⟩ := exists_of_bind_ok h
  obtain ⟨⟨l, c⟩, hc, h⟩ := exists_of_bind_ok h
  cases h
  have hprogress := progress_endBlocks ht
  rw [← cursor_of_progress hprogress] at hhead
  rw [progress_push _ _ (Cursor.isScalar_directive hc)]
  exact (quiet_of_eq hprogress).trans (quiet_withCursor (Cursor.passes_directive hhead hc))

theorem quiet_fetchMarker {ch : Char} (hch : ch ≠ '\x00') (hmarker : s.cursor.isMarkerOf ch = true)
    (hl : l.isScalar = false) (h : s.fetchMarker l = .ok s') : Quiet s.progress s'.progress := by
  obtain ⟨t, ht, h⟩ := exists_of_bind_ok h
  cases h
  have hprogress := progress_endBlocks ht
  have hthird : t.cursor.peek 2 = ch := by
    rw [cursor_of_progress hprogress]
    simp only [Cursor.isMarkerOf, Bool.and_eq_true, beq_iff_eq] at hmarker
    exact hmarker.1.2
  have hpasses : t.cursor.Passes (t.cursor.advance 3) :=
    Cursor.passes_advance (Cursor.lt_length_of_peek (hthird ▸ hch))
  rw [progress_push _ _ hl]
  exact (quiet_of_eq hprogress).trans (quiet_withCursor hpasses)

theorem quiet_fetchDocumentEnd (hmarker : s.cursor.isMarkerOf '.' = true)
    (h : s.fetchDocumentEnd = .ok s') : Quiet s.progress s'.progress := by
  obtain ⟨t, ht, h⟩ := exists_of_bind_ok h
  obtain ⟨⟨found, u⟩, hu, h⟩ := exists_of_bind_ok h
  dsimp only at h
  split at h
  · cases h
    exact (quiet_fetchMarker (by decide) hmarker rfl ht).trans (quiet_skipInline hu)
  · cases h

theorem quiet_fetchFlowStart (hl : l.isScalar = false) (hhead : s.cursor.head ≠ '\x00')
    (h : s.fetchFlowStart l = .ok s') : Quiet s.progress s'.progress := by
  obtain ⟨t, ht, h⟩ := exists_of_bind_ok h
  obtain ⟨⟨found, u⟩, hu, h⟩ := exists_of_bind_ok h
  cases h
  have hprogress : t.progress = s.progress := by
    rw [progress_openFlow ht, progress_openProvisional, progress_saveKey]
  rw [← cursor_of_progress hprogress] at hhead
  have hu : Quiet (t.withCursor (t.cursor.advance 1)).progress u.progress := by
    refine .trans (quiet_of_eq ?_) (quiet_skipInline hu)
    split <;> rfl
  rw [progress_push _ _ hl]
  exact (quiet_of_eq hprogress).trans ((quiet_one hhead).trans hu)

theorem quiet_fetchFlowEnd (hl : l.isScalar = false) (hhead : s.cursor.head ≠ '\x00')
    (h : s.fetchFlowEnd l = .ok s') : Quiet s.progress s'.progress := by
  obtain ⟨t, ht, h⟩ := exists_of_bind_ok h
  obtain ⟨⟨found, u⟩, hu, h⟩ := exists_of_bind_ok h
  cases h
  have hprogress : t.closeFlow.disallowKey.closePair.progress = s.progress := by
    rw [progress_closePair]
    exact (progress_closeFlow t).trans (progress_dropKey ht)
  rw [← cursor_of_progress hprogress] at hhead
  have hend := (quiet_of_eq hprogress).trans ((quiet_one hhead).trans (quiet_skipInline hu))
  split
  · exact hend.trans (quiet_of_eq (progress_push { u with valueAt := u.mark.index } _ hl))
  · exact hend.trans (quiet_of_eq (progress_push u _ hl))

theorem quiet_fetchFlowEntry (hhead : s.cursor.head ≠ '\x00') (h : s.fetchFlowEntry = .ok s') :
    Quiet s.progress s'.progress := by
  obtain ⟨t, ht, h⟩ := exists_of_bind_ok h
  obtain ⟨⟨found, u⟩, hu, h⟩ := exists_of_bind_ok h
  cases h
  have hprogress : t.allowKey.closePair.progress = s.progress :=
    (progress_closePair _).trans (progress_dropKey ht :)
  rw [← cursor_of_progress hprogress] at hhead
  rw [progress_push _ _ rfl]
  exact (quiet_of_eq hprogress).trans ((quiet_one hhead).trans (quiet_skipInline hu))

theorem quiet_fetchBlockEntry (hhead : s.cursor.head ≠ '\x00') (h : s.fetchBlockEntry = .ok s') :
    Quiet s.progress s'.progress := by
  unfold fetchBlockEntry at h
  split at h
  · cases h
  · split at h
    · cases h
    · split at h
      · cases h
      · obtain ⟨⟨found, t⟩, ht, h⟩ := exists_of_bind_ok h
        dsimp only at h
        split at h
        · cases h
        · obtain ⟨⟨found', u⟩, hu, h⟩ := exists_of_bind_ok h
          obtain ⟨v, hv, h⟩ := exists_of_bind_ok h
          cases h
          have hopen := progress_openBlock (s.withCursor (s.cursor.advance 1)) s.mark.column
            (s.withCursor (s.cursor.advance 1)).tokens.size s.mark
            (show Lexeme.blockSequenceStart.isScalar = false from rfl)
          have hv : v.progress = (u.withCursor (u.cursor.look 1)).progress := by
            rw [progress_dropKey hv]
            split
            · exact progress_openProvisional _
            · rfl
          rw [progress_push _ _ rfl]
          refine (quiet_one hhead).trans ((quiet_of_eq hopen).trans ?_)
          refine (quiet_skipInline ht).trans (.trans (quiet_withCursor (passes_look 2 _)) ?_)
          refine (quiet_skipInline hu).trans (.trans (quiet_withCursor (passes_look 1 _)) ?_)
          exact quiet_of_eq hv

theorem quiet_fetchKey (hhead : s.cursor.head ≠ '\x00') (h : s.fetchKey = .ok s') :
    Quiet s.progress s'.progress := by
  unfold fetchKey at h
  dsimp only at h
  split at h
  · cases h
  · obtain ⟨t, ht, h⟩ := exists_of_bind_ok h
    split at h
    · cases h
    · split at h
      · cases h
      · cases h
        have hprogress : t.progress = s.progress := by
          rw [progress_dropKey ht]
          split
          · rfl
          · exact progress_openBlock _ _ _ _ rfl
        have hallow : (t.allowKeyInBlock.withCursor (t.cursor.advance 1)).progress =
            (t.withCursor (t.cursor.advance 1)).progress := by
          unfold allowKeyInBlock
          split <;> rfl
        rw [← cursor_of_progress hprogress] at hhead
        rw [progress_push _ _ rfl]
        refine (quiet_of_eq hprogress).trans ((quiet_one hhead).trans ?_)
        exact (quiet_of_eq hallow).trans (quiet_skipAfterKey _ _ _)

theorem quiet_fetchValue (hhead : s.cursor.head ≠ '\x00') (h : s.fetchValue = .ok s') :
    Quiet s.progress s'.progress := by
  obtain ⟨t, ht, h⟩ := exists_of_bind_ok h
  have hskip : Quiet s.progress t.progress :=
    (quiet_one hhead).trans (quiet_skipAfterValue ht :)
  split at h
  · obtain ⟨u, hu, h⟩ := exists_of_bind_ok h
    cases h
    rw [progress_push _ _ rfl]
    exact hskip.trans (quiet_of_eq (progress_makeKey hu))
  · obtain ⟨u, hu, h⟩ := exists_of_bind_ok h
    cases h
    rw [progress_push _ _ rfl]
    exact hskip.trans (quiet_of_eq (progress_makeValue hu))

theorem quiet_fetchAnchor {lexeme : String → Lexeme} (hl : ∀ name, (lexeme name).isScalar = false)
    (hhead : s.cursor.head ≠ '\x00') (h : s.fetchAnchor lexeme = .ok s') :
    Quiet s.progress s'.progress := by
  obtain ⟨⟨name, c⟩, hc, h⟩ := exists_of_bind_ok h
  cases h
  have hprogress : s.saveKey.disallowKey.progress = s.progress := progress_saveKey s
  rw [← cursor_of_progress hprogress] at hhead
  rw [progress_push _ _ (hl name)]
  exact (quiet_of_eq hprogress).trans (quiet_withCursor (Cursor.passes_anchorName hhead hc))

theorem quiet_fetchTag (h : s.fetchTag = .ok s') : Quiet s.progress s'.progress := by
  obtain ⟨⟨l, c⟩, hc, h⟩ := exists_of_bind_ok h
  cases h
  have hprogress : s.saveKey.disallowKey.progress = s.progress := progress_saveKey s
  rw [progress_push _ _ (Cursor.isScalar_tag hc)]
  exact (quiet_of_eq hprogress).trans (quiet_withCursor (Cursor.passes_tag hc))

end Scanner

end YamlDelta.Markup
