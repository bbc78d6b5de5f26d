/-
Where plain scalars begin.

A fetch makes one scalar or none (`reads_fetch`).  A plain scalar begins with the character at its
mark: what is no token has been skipped before it, and the characters that begin other tokens have
fetches of their own.  So the text of a plain scalar begins with the character that its mark points
to, and is not empty.

A mark points to a character as long as the index counts characters.  It does up to the first block
scalar with a character of several bytes (`begins_of_mem`).

In the end all scalars of a scan become events (`exists_streamEvents_of_ofText`), since a scan ends
with the end of the stream: nothing is put in front of what has been handed on.
-/
import YamlDelta.Proofs.Markup.Ending
import YamlDelta.Proofs.Markup.Progress

namespace YamlDelta.Markup

/-! ### Block scalars of several bytes -/

/-- A block scalar with a character of more than one byte. -/
def Lexeme.isWide : Lexeme → Bool
  | .scalar .literal text | .scalar .folded text => text.toList.any (·.utf8Size != 1)
  | _ => false

@[inherit_doc Lexeme.isWide]
def Token.isWide (t : Token) : Bool :=
  t.lexeme.isWide

theorem narrow_of_not_isWide {literal : Bool} {text : String}
    (h : (Lexeme.scalar (if literal then .literal else .folded) text).isWide = false) :
    Cursor.Narrow text.toList := by
  intro ch hch
  have hany : text.toList.any (·.utf8Size != 1) = false := by
    cases literal <;> exact h
  simpa using List.any_eq_false.mp hany ch hch

namespace Scanner

open Cursor (Passes PassesIf passes_refl passes_look)
open Progress (Quiet)

variable {s s' : Scanner} {p q r : Progress} {m : Mark}

/-! ### Skipping to the next token -/

/-- All that is no token is skipped: every step but the last passes some characters, so they do not
run out. -/
theorem passes_skipGaps {fuel : Nat} (hfuel : s.cursor.rest.length < fuel)
    (h : skipGaps fuel s = .ok s') : s.cursor.Passes s'.cursor ∧ Stops s'.cursor.rest := by
  induction fuel generalizing s with
  | zero => exact absurd hfuel (Nat.not_lt_zero _)
  | succ fuel ih =>
      have hlook : s.cursor.Passes (s.cursor.look 1) := passes_look 1 _
      have hnext : ∀ {t : Scanner}, (s.cursor.look 1).Passes t.cursor →
          t.cursor.rest.length < s.cursor.rest.length → skipGaps fuel t = .ok s' →
            s.cursor.Passes s'.cursor ∧ Stops s'.cursor.rest := by
        intro t hpasses hlt h
        obtain ⟨hrest, hstops⟩ := ih (by omega) h
        exact ⟨hlook.trans (hpasses.trans hrest), hstops⟩
      rw [skipGaps] at h
      dsimp only at h
      split at h
      · rename_i htab
        rw [Bool.and_eq_true, Bool.and_eq_true, Bool.and_eq_true, beq_iff_eq] at htab
        obtain ⟨⟨found, c⟩, hc, h⟩ := exists_of_bind_ok h
        dsimp only at h
        split at h
        · rename_i hend
          have hpasses := Cursor.passes_passInline hc
          refine hnext hpasses (hpasses.length_lt fun heq => ?_) h
          rw [heq, htab.1.1.1] at hend
          exact absurd hend (by decide)
        · cases h
      · split at h
        · rename_i hblank
          have hlength := Cursor.lt_length_of_peek (ne_end_of_class hblank)
          exact hnext (Cursor.passes_advanceBlank hlength)
            (Cursor.length_advance_lt Nat.one_ne_zero (ne_end_of_class hblank)) h
        · rename_i hblank
          split at h
          · rename_i hbreak
            rw [passBreak_eq] at h
            exact hnext (Cursor.passes_passBreak _) (Cursor.length_passBreak_lt hbreak) h
          · rename_i hbreak
            split at h
            · rename_i hcomment
              exact hnext (Cursor.passes_passLine _)
                (Cursor.length_passLine_lt (by rw [eq_of_beq hcomment]; rfl)) h
            · rename_i hcomment
              cases h
              rw [Cursor.head_eq_headD, Bool.not_eq_true] at hblank hbreak
              refine ⟨hlook, ⟨hblank, hbreak⟩, fun hhead => hcomment ?_⟩
              obtain ⟨r, hr⟩ := List.head?_eq_some_iff.mp hhead
              rw [Cursor.head_of_rest (c := s.cursor.look 1) hr]
              rfl

theorem quiet_skipToToken (h : s.skipToToken = .ok s') :
    Quiet s.progress s'.progress ∧ Stops s'.cursor.rest := by
  obtain ⟨hpasses, hstops⟩ := passes_skipGaps (Nat.lt_succ_self _) h
  have hframe := (skipGaps_frame h).2
  refine ⟨⟨?_, hpasses, ?_⟩, hstops⟩
  · rw [hframe]
    rfl
  · rw [hframe]
    rfl

theorem quiet_settle (h : s.settle = .ok s') :
    Quiet s.progress s'.progress ∧ Stops s'.cursor.rest := by
  obtain ⟨t, u, ht, -, -, hu, -, rfl⟩ := exists_of_settle h
  obtain ⟨hskip, hstops⟩ := quiet_skipToToken ht
  have hclose : (u.closeBlocks u.cursor.column).progress = t.progress :=
    (progress_closeBlocks u _).trans (progress_dropStaleKeys hu)
  refine ⟨?_, ?_⟩
  · refine (quiet_withCursor (passes_look 1 _)).trans (hskip.trans ((quiet_of_eq hclose).trans ?_))
    exact quiet_withCursor (passes_look 4 _)
  · show Stops (u.closeBlocks u.cursor.column).cursor.rest
    rw [cursor_of_progress hclose]
    exact hstops

/-! ### Fetches of scalars -/

/-- A scalar is read from here.  Its text is no longer than what is left, and if it is plain, it
begins with the character that comes next. -/
structure Begins (t : Token) (c : Cursor) : Prop where
  gap : isGap c.head = false
  room : ∀ style text, t.lexeme = .scalar style text → text.length ≤ c.rest.length
  plain : ∀ text, t.lexeme = .scalar .plain text →
    t.mark = c.mark ∧ ∃ ch, c.rest.head? = some ch ∧ text.toList.head? = some ch

/-- A scalar has been made.  What has been read is passed, unless it has characters of several
bytes. -/
structure Progress.Makes (t : Token) (p q : Progress) : Prop where
  scalars : q.scalars = p.scalars ++ [t]
  passes : p.cursor.PassesIf (t.isWide = false) q.cursor
  begins : ∃ c, p.cursor.Passes c ∧ Begins t c
  delivered : q.delivered = p.delivered

open Progress (Makes)

theorem Progress.Quiet.makes {t : Token} (h : Quiet p q) (h' : Makes t q r) : Makes t p r where
  scalars := by rw [h'.scalars, h.scalars]
  passes := h.passes.passesIf.trans h'.passes fun h => h
  begins := h'.begins.imp fun _ => .imp_left h.passes.trans
  delivered := h'.delivered.trans h.delivered

/-- What a fetch does: it makes one scalar or none. -/
def Progress.Reads (p q : Progress) : Prop :=
  Quiet p q ∨ ∃ t, Makes t p q

open Progress (Reads)

theorem Progress.Quiet.reads (h : Quiet p q) (h' : Reads q r) : Reads p r := by
  rcases h' with h' | ⟨t, h'⟩
  · exact .inl (h.trans h')
  · exact .inr ⟨t, h.makes h'⟩

/-- A scalar is pushed at the end of the fetch. -/
theorem reads_push {style : Style} {text : String} (hscalars : s.progress.scalars = p.scalars)
    (hdelivered : s.delivered = p.delivered)
    (hpasses : p.cursor.PassesIf ((Lexeme.scalar style text).isWide = false) s.cursor)
    (hbegins : Begins ⟨m, .scalar style text⟩ p.cursor) :
    Reads p (s.push m (.scalar style text)).progress := by
  refine .inr ⟨⟨m, .scalar style text⟩, ?_, hpasses, ⟨_, passes_refl _, hbegins⟩, hdelivered⟩
  rw [← hscalars]
  show scalarTokens (s.tokens.push ⟨m, .scalar style text⟩).toList = _
  rw [Array.toList_push, scalarTokens_append]
  rfl

/-- Only plain scalars have to begin with something. -/
theorem begins_of_style {style : Style} {text : String} {c : Cursor} (h : style ≠ .plain)
    (hgap : isGap c.head = false) (hroom : text.length ≤ c.rest.length) :
    Begins ⟨m, .scalar style text⟩ c where
  gap := hgap
  room style' text' hlexeme := by
    obtain ⟨-, rfl⟩ := Lexeme.scalar.inj hlexeme
    exact hroom
  plain _ hlexeme := absurd (Lexeme.scalar.inj hlexeme).1 h

theorem ne_end_of_gap_eq_false {ch : Char} (h : isGap ch = false) : ch ≠ '\x00' := by
  rintro rfl
  cases h

theorem reads_fetchBlockScalar {literal : Bool} (hgap : isGap s.cursor.head = false)
    (h : s.fetchBlockScalar literal = .ok s') : Reads s.progress s'.progress := by
  obtain ⟨⟨m, text, c⟩, hc, h⟩ := exists_of_bind_ok h
  cases h
  have hprogress : s.saveKey.allowKey.closeProvisional.progress = s.progress :=
    (progress_closeProvisional _).trans (progress_saveKey s)
  rw [cursor_of_progress hprogress] at hc
  obtain ⟨hpasses, hroom⟩ := Cursor.passes_blockScalar (ne_end_of_gap_eq_false hgap) hc
  refine reads_push (congrArg Progress.scalars hprogress :)
    (congrArg Progress.delivered hprogress :)
    (hpasses.mono narrow_of_not_isWide) (begins_of_style ?_ hgap hroom)
  cases literal <;> decide

theorem reads_fetchQuoted {single : Bool} (hgap : isGap s.cursor.head = false)
    (h : s.fetchQuoted single = .ok s') : Reads s.progress s'.progress := by
  obtain ⟨⟨text, c⟩, hc, h⟩ := exists_of_bind_ok h
  obtain ⟨t, ht, h⟩ := exists_of_bind_ok h
  cases h
  have hprogress : s.saveKey.disallowKey.progress = s.progress := progress_saveKey s
  rw [cursor_of_progress hprogress] at hc
  obtain ⟨hpasses, hroom⟩ := Cursor.passes_quotedScalar (ne_end_of_gap_eq_false hgap) hc
  have hquiet : Quiet s.progress t.progress :=
    (quiet_of_eq hprogress).trans ((quiet_withCursor (by
      rw [cursor_of_progress hprogress]
      exact hpasses)).trans (quiet_skipToToken ht).1)
  refine reads_push (s := { t with valueAt := t.mark.index }) hquiet.scalars hquiet.delivered
    hquiet.passes.passesIf (begins_of_style ?_ hgap hroom)
  cases single <;> decide

theorem reads_fetchPlain (hgap : isGap s.cursor.head = false)
    (hplain : Cursor.isPlain s.inFlow s.cursor.head (s.cursor.peek 1) = true)
    (hmarker : s.cursor.isMarker = false) (hcomment : s.cursor.head ≠ '#')
    (h : s.fetchPlain = .ok s') : Reads s.progress s'.progress := by
  obtain ⟨⟨text, c⟩, hc, h⟩ := exists_of_bind_ok h
  obtain ⟨keys, hkeys⟩ := saveKey_frame s
  obtain ⟨indent, indents, hframe⟩ := s.saveKey.disallowKey.closeProvisional_frame
  rw [hframe, hkeys] at hc
  have hc : s.cursor.plainScalar s.inFlow indent = .ok (text, c) := hc
  have hprogress : s.saveKey.disallowKey.closeProvisional.progress = s.progress :=
    (progress_closeProvisional _).trans (progress_saveKey s)
  have hnext : (s.saveKey.disallowKey.closeProvisional.withCursor c).progress =
      (s.withCursor c).progress :=
    congrArg (fun p : Progress => { p with cursor := c }) hprogress
  obtain ⟨hpasses, hroom⟩ := Cursor.passes_plainScalar hc
  have hbegins : Begins ⟨s.mark, .scalar .plain text⟩ s.cursor := by
    refine ⟨hgap, fun style' text' htext => ?_, fun text' htext => ?_⟩
    · obtain ⟨-, rfl⟩ := Lexeme.scalar.inj htext
      exact hroom
    · obtain ⟨-, rfl⟩ := Lexeme.scalar.inj htext
      exact ⟨rfl, s.cursor.head, Cursor.head?_rest (ne_end_of_gap_eq_false hgap),
        Cursor.head?_plainScalar hplain hmarker hcomment hc⟩
  have hpush : ∀ {t : Scanner}, t.progress = (s.withCursor c).progress →
      Reads s.progress (t.push s.mark (.scalar .plain text)).progress := by
    intro t ht
    have hcursor : t.cursor = c := congrArg Progress.cursor ht
    exact reads_push (congrArg Progress.scalars ht :) (congrArg Progress.delivered ht :)
      (hcursor ▸ hpasses.passesIf) hbegins
  cases h
  split
  · exact hpush hnext
  · exact hpush hnext

/-! ### All fetches -/

theorem isPlain_of_start {inFlow : Bool} {ch next : Char} (hgap : isGap ch = false)
    (hflow : isFlow ch = false) (hcolon : ch = ':' → Cursor.endsKey inFlow next = false) :
    Cursor.isPlain inFlow ch next = true := by
  have hkey : (ch == ':' && Cursor.endsKey inFlow next) = false := by
    rw [Bool.and_eq_false_imp, beq_iff_eq]
    exact hcolon
  rw [Cursor.isPlain, hgap, hkey, hflow, Bool.and_false]
  rfl

theorem reads_fetchLexeme (hgap : isGap s.cursor.head = false)
    (hmarker : s.cursor.isMarker = false) (hcomment : s.cursor.head ≠ '#')
    (h : s.fetchLexeme = .ok s') : Reads s.progress s'.progress := by
  have hhead : s.cursor.head ≠ '\x00' := ne_end_of_gap_eq_false hgap
  have hplain : isFlow s.cursor.head = false →
      (s.cursor.head = ':' → Cursor.endsKey s.inFlow (s.cursor.peek 1) = false) →
        s.fetchPlain = .ok s' → Reads s.progress s'.progress := fun hflow hcolon h =>
    reads_fetchPlain hgap (isPlain_of_start hgap hflow hcolon) hmarker hcomment h
  have hother : ∀ {ch : Char}, s.cursor.head = ch → isFlow ch = false → ch ≠ ':' →
      s.fetchPlain = .ok s' → Reads s.progress s'.progress := fun hch hflow hcolon =>
    hplain (by rw [hch, hflow]) fun heq => absurd (hch.symm.trans heq) hcolon
  unfold fetchLexeme at h
  dsimp only at h
  split at h
  · exact .inl (quiet_fetchFlowStart rfl hhead h)
  · exact .inl (quiet_fetchFlowStart rfl hhead h)
  · exact .inl (quiet_fetchFlowEnd rfl hhead h)
  · exact .inl (quiet_fetchFlowEnd rfl hhead h)
  · exact .inl (quiet_fetchFlowEntry hhead h)
  · rename_i hch
    split at h
    · exact .inl (quiet_fetchBlockEntry hhead h)
    · exact hother hch rfl (by decide) h
  · rename_i hch
    split at h
    · exact .inl (quiet_fetchKey hhead h)
    · exact hother hch rfl (by decide) h
  · rename_i hch
    split at h
    · exact .inl (quiet_fetchValue hhead h)
    · rename_i hkey
      refine hplain (by rw [hch]; rfl) (fun _ => ?_) h
      rw [Bool.not_eq_true, Bool.or_eq_false_iff, Bool.and_eq_false_imp] at hkey
      rw [Cursor.endsKey, hkey.1, Bool.false_or, Bool.and_eq_false_imp]
      exact fun hflow => (Bool.or_eq_false_iff.mp (hkey.2 hflow)).1
  · exact .inl (quiet_fetchAnchor (fun _ => rfl) hhead h)
  · exact .inl (quiet_fetchAnchor (fun _ => rfl) hhead h)
  · exact .inl (quiet_fetchTag h)
  · rename_i hch
    split at h
    · exact hother hch rfl (by decide) h
    · exact reads_fetchBlockScalar hgap h
  · rename_i hch
    split at h
    · exact hother hch rfl (by decide) h
    · exact reads_fetchBlockScalar hgap h
  · exact reads_fetchQuoted hgap h
  · exact reads_fetchQuoted hgap h
  · cases h
  · cases h
  · cases h
  · rename_i _ hseq hmap hseqEnd hmapEnd hentry _ _ hcolon _ _ _ _ _ _ _ _ _ _
    refine hother rfl ?_ hcolon h
    simp only [isFlow, Bool.or_eq_false_iff, beq_eq_false_iff_ne]
    exact ⟨⟨⟨⟨hentry, hseq⟩, hseqEnd⟩, hmap⟩, hmapEnd⟩

theorem reads_dispatch (hstops : Stops s.cursor.rest) (h : s.dispatch = .ok s') :
    Reads s.progress s'.progress := by
  obtain ⟨⟨hblank, hbreak⟩, hcomment⟩ := hstops
  rw [← Cursor.head_eq_headD] at hblank hbreak
  unfold dispatch at h
  split at h
  · exact .inl (quiet_fetchStreamEnd h)
  · rename_i hend
    rw [Bool.not_eq_true] at hend
    have hhead : s.cursor.head ≠ '\x00' := fun heq => by
      rw [heq] at hend
      cases hend
    split at h
    · exact .inl (quiet_fetchDirective hhead h)
    · split at h
      · rename_i hmarker
        exact .inl (quiet_fetchMarker (by decide) hmarker rfl h)
      · rename_i hstart
        split at h
        · rename_i hmarker
          exact .inl (quiet_fetchDocumentEnd hmarker h)
        · rename_i hstop
          split at h
          · cases h
          · rw [Bool.not_eq_true] at hstart hstop
            refine reads_fetchLexeme ?_ ?_ (head_ne_of_head? rfl hcomment (by decide)) h
            · rw [isGap, isLineEnd, hblank, hbreak, hend]
              rfl
            · rw [Cursor.isMarker, hstart, hstop]
              rfl

/-- **A fetch makes one scalar or none, and it passes what it reads.** -/
theorem reads_fetch (h : s.fetch = .ok s') : Reads s.progress s'.progress := by
  rw [fetch_eq] at h
  obtain ⟨t, ht, h⟩ := exists_of_bind_ok h
  obtain ⟨hsettle, hstops⟩ := quiet_settle ht
  exact hsettle.reads (reads_dispatch hstops h)

/-! ### What every fetch keeps -/

/-- The place and the scalars of a scanner agree with the text. -/
structure Progress.Agrees (cs : List Char) (p : Progress) : Prop where
  suffix : p.cursor.rest <:+ cs
  /-- The index counts characters. -/
  counted : (∀ t ∈ p.scalars, t.isWide = false) →
    p.cursor.mark.index + p.cursor.rest.length = cs.length
  /-- Plain scalars begin where their marks point to. -/
  begins : ∀ t ∈ p.scalars.takeWhile (!·.isWide), ∀ text, t.lexeme = .scalar .plain text →
    cs[t.mark.index]? = text.toList.head?
  solid : Solid p.scalars

theorem getElem?_of_suffix {cs rest : List Char} {i : Nat} (h : rest <:+ cs)
    (hi : i + rest.length = cs.length) : cs[i]? = rest.head? := by
  obtain ⟨before, rfl⟩ := h
  rw [List.length_append, Nat.add_right_cancel_iff] at hi
  rw [hi, List.getElem?_append_right (Nat.le_refl _), Nat.sub_self, List.head?_eq_getElem?]

theorem mem_takeWhile_append {α : Type} {f : α → Bool} {xs ys : List α} {x : α}
    (h : x ∈ (xs ++ ys).takeWhile f) :
    x ∈ xs.takeWhile f ∨ (∀ y ∈ xs, f y = true) ∧ x ∈ ys.takeWhile f := by
  rw [List.takeWhile_append] at h
  split at h
  · rename_i hlength
    have hall := List.takeWhile_eq_self_iff.mp ((List.takeWhile_prefix f).eq_of_length hlength)
    rcases List.mem_append.mp h with h | h
    · exact .inl (by rwa [List.takeWhile_eq_self_iff.mpr hall])
    · exact .inr ⟨hall, h⟩
  · exact .inl h

theorem mem_takeWhile_append_of_mem {α : Type} {f : α → Bool} {xs : List α} {x : α} (ys : List α)
    (h : x ∈ xs.takeWhile f) : x ∈ (xs ++ ys).takeWhile f := by
  rw [List.takeWhile_append]
  split
  · rename_i hlength
    exact List.mem_append_left _ ((List.takeWhile_prefix f).subset h)
  · exact h

theorem Progress.Agrees.reads {cs : List Char} (h : p.Agrees cs) (hpq : p.Reads q) :
    q.Agrees cs := by
  rcases hpq with hpq | ⟨t, hpq⟩
  · refine ⟨hpq.passes.suffix.trans h.suffix, fun hnarrow => ?_, ?_, ?_⟩
    · rw [hpq.scalars] at hnarrow
      exact hpq.passes.index.trans (h.counted hnarrow)
    · rw [hpq.scalars]
      exact h.begins
    · rw [hpq.scalars]
      exact h.solid
  · obtain ⟨c, hc, hbegins⟩ := hpq.begins
    refine ⟨hpq.passes.suffix.trans h.suffix, fun hnarrow => ?_, fun u hu => ?_, fun u hu => ?_⟩
    · rw [hpq.scalars, List.forall_mem_append, List.forall_mem_singleton] at hnarrow
      exact (hpq.passes.passes hnarrow.2).index.trans (h.counted hnarrow.1)
    · rw [hpq.scalars] at hu
      rcases mem_takeWhile_append hu with hu | ⟨hnarrow, hu⟩
      · exact h.begins u hu
      · -- nothing has been miscounted before the new scalar
        obtain rfl := List.mem_singleton.mp ((List.takeWhile_prefix _).subset hu)
        intro text htext
        obtain ⟨hmark, ch, hrest, hhead⟩ := hbegins.plain text htext
        have hcount := hc.index.trans (h.counted fun y hy => by simpa using hnarrow y hy)
        rw [hmark, getElem?_of_suffix (hc.suffix.trans h.suffix) hcount, hrest, hhead]
    · rw [hpq.scalars] at hu
      rcases List.mem_append.mp hu with hu | hu
      · exact h.solid u hu
      · obtain rfl := List.mem_singleton.mp hu
        intro hempty
        obtain ⟨-, ch, -, hhead⟩ := hbegins.plain "" hempty
        cases hhead

/-- What has been handed on lasts, and the stream has not ended there. -/
structure HandedOn (s : Scanner) : Prop where
  le : s.delivered ≤ s.tokens.size
  lasts : Lasts (s.tokens.toList.take s.delivered) s.stock
  unended : ∀ t ∈ s.tokens.toList.take s.delivered, t.lexeme ≠ .streamEnd

theorem HandedOn.length_take (h : s.HandedOn) :
    (s.tokens.toList.take s.delivered).length = s.delivered := by
  rw [List.length_take, Array.length_toList, Nat.min_eq_left h.le]

theorem HandedOn.changes (h : s.HandedOn) (hstock : Changes s.stock s'.stock)
    (hdelivered : s'.delivered = s.delivered) : s'.HandedOn := by
  have hlasts := h.lasts.changes hstock
  have htake : s'.tokens.toList.take s'.delivered = s.tokens.toList.take s.delivered := by
    have hleads := List.prefix_iff_eq_take.mp hlasts.leads
    rw [h.length_take] at hleads
    rw [hdelivered]
    exact hleads.symm
  refine ⟨?_, htake ▸ hlasts, htake ▸ h.unended⟩
  have hle := hlasts.leads.length_le
  rw [h.length_take] at hle
  rw [hdelivered, ← Array.length_toList]
  exact hle

theorem HandedOn.deliver {t : Token} (h : s.HandedOn) (ht : s.tokens[s.delivered]? = some t)
    (hopen : t.lexeme ≠ .streamEnd)
    (hkeys : ∀ k ∈ s.keys, k.possible = true → k.number ≠ s.delivered) :
    HandedOn { s with delivered := s.delivered + 1 } := by
  have ht' : s.tokens.toList[s.delivered]? = some t := by rwa [Array.getElem?_toList]
  have hlt : s.delivered < s.tokens.size := (Array.getElem?_eq_some_iff.mp ht).1
  have htake :
      s.tokens.toList.take (s.delivered + 1) = s.tokens.toList.take s.delivered ++ [t] := by
    rw [List.take_add_one, ht']
    rfl
  refine ⟨hlt, ⟨List.take_prefix _ _, fun k hk hpossible => ?_⟩, ?_⟩
  · have hle := h.lasts.candidates k hk hpossible
    have hne := hkeys k hk hpossible
    rw [h.length_take] at hle
    show (s.tokens.toList.take (s.delivered + 1)).length ≤ k.number
    rw [htake, List.length_append, h.length_take]
    exact Nat.lt_of_le_of_ne hle hne.symm
  · show ∀ u ∈ s.tokens.toList.take (s.delivered + 1), u.lexeme ≠ .streamEnd
    rw [htake, List.forall_mem_append, List.forall_mem_singleton]
    exact ⟨h.unended, hopen⟩

theorem delivered_of_reads (h : p.Reads q) : q.delivered = p.delivered := by
  rcases h with h | ⟨t, h⟩
  · exact h.delivered
  · exact h.delivered

end Scanner

/-! ### Whole scans -/

namespace Scan

variable {cs : List Char}

open Scanner

/-- Both invariants hold at the end of a scan. -/
theorem exists_scanner_of_ofText (cs : List Char) :
    ∃ (s : Scanner) (n : Nat), s.progress.Agrees cs ∧ s.HandedOn ∧ n ≤ s.delivered + 1 ∧
      (Scan.ofText cs).tokens = s.tokens.toList.take n := by
  have hstart : (Scanner.ofText cs).progress.Agrees cs := by
    refine ⟨List.suffix_refl _, fun _ => Nat.zero_add _, fun t ht => ?_, fun t ht => ?_⟩
    · cases ht
    · cases ht
  have hstart' : (Scanner.ofText cs).HandedOn := by
    refine ⟨Nat.zero_le _, ⟨List.nil_prefix, fun k hk hpossible => Nat.zero_le _⟩, fun t ht => ?_⟩
    cases ht
  obtain ⟨s, n, ⟨hagrees, hhanded⟩, hn, htokens⟩ := Scan.exists_scanner_of_run
    (P := fun s => s.progress.Agrees cs ∧ s.HandedOn)
    (fun s s' h hfetch => ⟨h.1.reads (reads_fetch hfetch),
      h.2.changes (changes_fetch hfetch) (delivered_of_reads (reads_fetch hfetch))⟩)
    (fun s s' h hdrop => ⟨progress_dropStaleKeys hdrop ▸ h.1,
      h.2.changes (changes_dropStaleKeys hdrop)
        (congrArg Progress.delivered (progress_dropStaleKeys hdrop) :)⟩)
    (fun s t h ht hopen hkeys => ⟨⟨h.1.suffix, h.1.counted, h.1.begins, h.1.solid⟩,
      h.2.deliver ht hopen hkeys⟩) ⟨hstart, hstart'⟩ (8 * cs.length + 16)
  exact ⟨s, n, hagrees, hhanded, hn, htokens⟩

/-- The scalars before the first block scalar with a character of several bytes. -/
def narrowScalars (scan : Scan) : List Token :=
  (scalarTokens scan.tokens).takeWhile (!·.isWide)

/-- **Up to the first block scalar with a character of several bytes, every plain scalar begins
where its mark points to.** -/
theorem begins_of_mem {t : Token} {text : String} (ht : t ∈ (Scan.ofText cs).narrowScalars)
    (htext : t.lexeme = .scalar .plain text) : cs[t.mark.index]? = text.toList.head? := by
  obtain ⟨s, n, hagrees, -, -, htokens⟩ := exists_scanner_of_ofText cs
  refine hagrees.begins t ?_ text htext
  have hle : scalarTokens (Scan.ofText cs).tokens <+: s.progress.scalars :=
    htokens ▸ (List.take_prefix n _).filter _
  obtain ⟨later, hlater⟩ := hle
  rw [← hlater]
  exact mem_takeWhile_append_of_mem later ht

theorem solid_ofText (cs : List Char) : Solid (Scan.ofText cs).tokens := by
  obtain ⟨s, n, hagrees, -, -, htokens⟩ := exists_scanner_of_ofText cs
  intro t ht hempty
  rw [htokens] at ht
  refine hagrees.solid t (List.mem_filter.mpr ⟨List.mem_of_mem_take ht, ?_⟩) hempty
  rw [Token.isScalar, hempty]
  rfl

/-- Nothing comes after the end of the stream. -/
theorem ended_ofText (cs : List Char) : Ended (Scan.ofText cs).tokens := by
  intro ts u left h hu
  obtain ⟨s, n, -, hhanded, hn, htokens⟩ := exists_scanner_of_ofText cs
  have hlength : ts.length + (1 + left.length) ≤ s.delivered + 1 := by
    have hall := congrArg List.length (htokens.symm.trans h)
    rw [List.length_take, List.length_append, List.length_cons] at hall
    omega
  have hlate : s.delivered ≤ ts.length := by
    refine Nat.le_of_not_lt fun hlt => hhanded.unended u ?_ hu
    have hleads : ts ++ [u] <+: s.tokens.toList := by
      refine List.IsPrefix.trans ⟨left, ?_⟩ (htokens ▸ List.take_prefix n _)
      rw [h, List.append_assoc]
      rfl
    have hle : (ts ++ [u]).length ≤ s.delivered := by
      rw [List.length_append]
      exact hlt
    exact (List.prefix_take_iff.mpr ⟨hleads, hle⟩).subset
      (List.mem_append_right _ (List.mem_singleton_self u))
  exact List.eq_nil_of_length_eq_zero (by omega)

/-- The first token is the beginning of the stream. -/
theorem scalarTokens_take_one (cs : List Char) :
    scalarTokens ((Scan.ofText cs).tokens.take 1) = [] := by
  have hlasts : Lasts [⟨.start, .streamStart⟩] (Scanner.ofText cs).stock := by
    refine ⟨List.prefix_refl _, fun k hk hpossible => ?_⟩
    obtain rfl := List.mem_singleton.mp hk
    cases hpossible
  have htokens : (Scan.ofText cs).tokens <+: [⟨.start, .streamStart⟩] ∨
      [⟨.start, .streamStart⟩] <+: (Scan.ofText cs).tokens := Scan.lasts_run hlasts _
  cases h : (Scan.ofText cs).tokens with
  | nil => rfl
  | cons t ts =>
      obtain rfl : t = ⟨.start, .streamStart⟩ := by
        rw [h] at htokens
        exact htokens.elim (fun h => (List.cons_prefix_cons.mp h).1)
          fun h => (List.cons_prefix_cons.mp h).1.symm
      rfl

end Scan

/-- **The events of a text are those of trees, which the tokens of the text tell.** -/
theorem exists_streamEvents_of_ofText {cs : List Char} {es : List Event}
    (h : Event.ofText cs = .ok es) :
    ∃ ds, es = streamEvents ds ∧ Tells (Scan.ofText cs).tokens es := by
  obtain ⟨ds, hds, htells⟩ :=
    exists_streamEvents_of_ofScan (Scan.solid_ofText cs) (Scan.ended_ofText cs) h
  have hall := htells.append (Scan.scalarTokens_take_one cs)
  rw [List.take_append_drop] at hall
  exact ⟨ds, hds, hall⟩

end YamlDelta.Markup
