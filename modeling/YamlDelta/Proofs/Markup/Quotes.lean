/-
Scalars in quotes are read as they were spelled.

Between quotes, words alternate with blanks.  A character of a word stands for itself, is
doubled, or is escaped by a letter; a blank stands for itself.  `Spelled` says how a text is
spelled in this way, on one line, and `quotedScalar_spelled` that it is read back.  The three
ways of quoting a text all spell it, each within its own limits: single quotes cannot hold
the end of a line, neither sort of quotes can hold the end of the text as it is, and a
character that is named by its code point in braces is not spelled at all.
-/
import YamlDelta.Markup.Token.Quoted
import YamlDelta.Proofs.Markup.Motion
import YamlDelta.Proofs.Markup.Reading
import YamlDelta.Text.Quoted

namespace YamlDelta.Markup

/-- The quote around a scalar. -/
def quoteMark (single : Bool) : Char := if single then '\'' else '"'

/-- How a character of a word is spelled between quotes. -/
inductive Spells : Bool → Char → List Char → Prop
  | itself {single : Bool} {ch : Char} (hgap : isGap ch = false) (hquote : ch ≠ quoteMark single)
      (hescape : single = true ∨ ch ≠ '\\') : Spells single ch [ch]
  | twice : Spells true '\'' ['\'', '\'']
  | escape {e ch : Char} (he : Escape.ofChar? e = some (.character ch))
      (hbreak : isBreak e = false) :
      Spells false ch ['\\', e]

/-- How a word is spelled between quotes. -/
inductive SpelledWord (single : Bool) : List Char → List Char → Prop
  | nil : SpelledWord single [] []
  | cons {ch : Char} {p w pw : List Char} (h : Spells single ch p) (hw : SpelledWord single w pw) :
      SpelledWord single (ch :: w) (p ++ pw)

/-- How a text is spelled between quotes: words, which may be empty, with blanks between them. -/
inductive Spelled (single : Bool) : List Char → List Char → Prop
  | word {w pw : List Char} (h : SpelledWord single w pw) : Spelled single w pw
  | cons {w pw b t pt : List Char} (hw : SpelledWord single w pw) (hb : b ≠ [])
      (hblank : ∀ ch ∈ b, isBlank ch = true) (ht : Spelled single t pt)
      (hstart : ∀ ch, pt.head? = some ch → isBlank ch = false) :
      Spelled single (w ++ (b ++ t)) (pw ++ (b ++ pt))

variable {single : Bool}

theorem isBlank_of_not_gap {ch : Char} (h : isGap ch = false) : isBlank ch = false := by
  rw [isGap, Bool.or_eq_false_iff] at h
  exact h.1

theorem Spells.exists_cons {ch : Char} {p : List Char} (h : Spells single ch p) :
    ∃ d p', p = d :: p' ∧ isGap d = false := by
  cases h with
  | itself hgap _ _ => exact ⟨_, _, rfl, hgap⟩
  | twice => exact ⟨_, _, rfl, rfl⟩
  | escape _ _ => exact ⟨_, _, rfl, rfl⟩

theorem SpelledWord.not_isGap_head {w pw : List Char} (h : SpelledWord single w pw) {ch : Char}
    (hch : pw.head? = some ch) : isGap ch = false := by
  cases h with
  | nil => cases hch
  | cons h hw =>
      obtain ⟨d, p', rfl, hd⟩ := h.exists_cons
      cases hch
      exact hd

theorem SpelledWord.length_le {w pw : List Char} (h : SpelledWord single w pw) :
    w.length ≤ pw.length := by
  induction h with
  | nil => exact Nat.le_refl _
  | cons h hw ih =>
      obtain ⟨d, p', rfl, -⟩ := h.exists_cons
      simp only [List.length_cons, List.length_append]
      omega

/-! ### Spelling a text character by character -/

/-- A character of a word in front of a text. -/
theorem Spelled.cons_char {ch : Char} {p t pt : List Char} (h : Spells single ch p)
    (ht : Spelled single t pt) : Spelled single (ch :: t) (p ++ pt) := by
  cases ht with
  | word hw => exact .word (.cons h hw)
  | cons hw hb hblank ht hstart =>
      have hall := Spelled.cons (.cons h hw) hb hblank ht hstart
      rwa [List.cons_append, List.append_assoc] at hall

/-- A blank in front of a text. -/
theorem Spelled.cons_blank {ch : Char} {t pt : List Char} (h : isBlank ch = true)
    (ht : Spelled single t pt) : Spelled single (ch :: t) (ch :: pt) := by
  have hone : ∀ d ∈ [ch], isBlank d = true := fun d hd => List.mem_singleton.mp hd ▸ h
  cases ht with
  | word hw =>
      exact .cons .nil (List.cons_ne_nil ch []) hone (.word hw)
        fun d hd => isBlank_of_not_gap (hw.not_isGap_head hd)
  | @cons w pw b t pt hw hb hblank ht hstart =>
      cases hw with
      | nil =>
          exact .cons .nil (List.cons_ne_nil ch b) (List.forall_mem_cons.mpr ⟨h, hblank⟩) ht hstart
      | cons hch hw =>
          refine .cons .nil (List.cons_ne_nil ch []) hone
            (.cons (.cons hch hw) hb hblank ht hstart) ?_
          obtain ⟨d, p', rfl, hd⟩ := hch.exists_cons
          rintro d' ⟨⟩
          exact isBlank_of_not_gap hd

/-- A text is spelled if each of its characters is, or is a blank that stands for itself. -/
theorem spelled_flatMap {piece : Char → List Char} {t : List Char}
    (h : ∀ ch ∈ t, Spells single ch (piece ch) ∨ isBlank ch = true ∧ piece ch = [ch]) :
    Spelled single t (t.flatMap piece) := by
  induction t with
  | nil => exact .word .nil
  | cons ch t ih =>
      rw [List.forall_mem_cons] at h
      rw [List.flatMap_cons]
      rcases h.1 with hch | ⟨hblank, hpiece⟩
      · exact (ih h.2).cons_char hch
      · rw [hpiece]
        exact (ih h.2).cons_blank hblank

/-- In single quotes everything but the end of a line or of the text can be spelled. -/
theorem spelled_singlePiece {t : List Char} (h : ∀ ch ∈ t, isLineEnd ch = false) :
    Spelled true t (t.flatMap Text.singlePiece) := by
  refine spelled_flatMap fun ch hch => ?_
  unfold Text.singlePiece
  split
  · rename_i hquote
    rw [hquote]
    exact .inl .twice
  · rename_i hquote
    by_cases hblank : isBlank ch = true
    · exact .inr ⟨hblank, rfl⟩
    · refine .inl (.itself ?_ hquote (.inl rfl))
      rw [isGap, h ch hch, Bool.or_false]
      simpa using hblank

/-- What is no NUL and no white space but the space is a space or belongs to a word. -/
theorem spells_or_blank {ch : Char} (hend : ch ≠ '\x00') (hline : ch ≠ '\n') (hreturn : ch ≠ '\r')
    (hquote : ch ≠ '"') (hescape : ch ≠ '\\') :
    Spells false ch [ch] ∨ isBlank ch = true ∧ [ch] = [ch] := by
  by_cases hblank : isBlank ch = true
  · exact .inr ⟨hblank, rfl⟩
  · refine .inl (.itself ?_ hquote (.inr hescape))
    simp [isGap, isLineEnd, isBreak, isEnd, hblank, hend, hline, hreturn]

/-- In double quotes everything but the end of the text can be spelled. -/
theorem spelled_doublePiece {t : List Char} (h : ∀ ch ∈ t, ch ≠ '\x00') :
    Spelled false t (t.flatMap Text.doublePiece) := by
  refine spelled_flatMap fun ch hch => ?_
  unfold Text.doublePiece
  split_ifs with hquote hescape hline htab hreturn
  · subst hquote
    exact .inl (.escape rfl rfl)
  · subst hescape
    exact .inl (.escape rfl rfl)
  · subst hline
    exact .inl (.escape rfl rfl)
  · subst htab
    exact .inl (.escape rfl rfl)
  · subst hreturn
    exact .inl (.escape rfl rfl)
  · exact spells_or_blank (h ch hch) hline hreturn hquote hescape

/-- With every character visible a text can be spelled unless a character needs its code point. -/
theorem spelled_visiblePiece {t : List Char}
    (h : ∀ ch ∈ t, Text.visiblePiece ch ≠ Text.codePoint ch) :
    Spelled false t (t.flatMap Text.visiblePiece) := by
  refine spelled_flatMap fun ch hch => ?_
  have hshown := h ch hch
  unfold Text.visiblePiece at hshown ⊢
  split_ifs at hshown ⊢ with hend hshort hvisible
  · subst hend
    exact .inl (.escape rfl rfl)
  · rcases hshort with rfl | rfl | rfl | rfl | rfl
    all_goals exact .inl (.escape rfl rfl)
  · simp only [not_or] at hshort
    exact spells_or_blank hend hshort.2.2.1 hshort.2.2.2.2 hshort.1 hshort.2.1
  · exact absurd rfl hshown

/-! ### Reading words -/

namespace Cursor

variable {c c' : Cursor} {r : List Char}

/-- A word between quotes ends here. -/
inductive WordEnds (single : Bool) : List Char → Prop
  | gap {ch : Char} {r : List Char} (h : isGap ch = true) : WordEnds single (ch :: r)
  | quote {r : List Char} (h : single = true → r.headD '\x00' ≠ '\'') :
      WordEnds single (quoteMark single :: r)

theorem not_isGap_quoteMark (single : Bool) : isGap (quoteMark single) = false := by
  cases single <;> rfl

theorem peek_one_of_rest {ch : Char} (h : c.rest = ch :: r) : c.peek 1 = r.headD '\x00' := by
  rw [peek, h]
  cases r <;> rfl

theorem quotedWord_end (hr : WordEnds single r) (hc : c.rest = r) (start : Mark) (fuel : Nat)
    (acc : List Char) :
    quotedWord single start (fuel + 1) acc c = .ok (acc, false, c.look 2) := by
  rw [quotedWord]
  cases hr with
  | gap h =>
      have hhead : (c.look 2).head = _ := head_of_rest (c := c.look 2) hc
      simp only [hhead, h, if_true]
  | quote h =>
      have hhead : (c.look 2).head = quoteMark single := head_of_rest (c := c.look 2) hc
      have hpeek := peek_one_of_rest (c := c.look 2) hc
      cases single with
      | false =>
          simp only [hhead, not_isGap_quoteMark, Bool.false_eq_true, if_false]
          rfl
      | true =>
          have hne : ((c.look 2).peek 1 == '\'') = false := by
            rw [hpeek, beq_eq_false_iff_ne]
            exact h rfl
          simp only [hhead, hne, not_isGap_quoteMark, Bool.false_eq_true, if_false, if_true]
          rfl

theorem quotedWord_step {ch : Char} {p : List Char} (h : Spells single ch p) (hc : c.rest = p ++ r)
    (start : Mark) (fuel : Nat) (acc : List Char) :
    ∃ c', Along p.length c c' ∧
      quotedWord single start (fuel + 1) acc c = quotedWord single start fuel (ch :: acc) c' := by
  rw [quotedWord]
  cases h with
  | itself hgap hquote hescape =>
      have hhead : (c.look 2).head = ch := head_of_rest (c := c.look 2) hc
      refine ⟨(c.look 2).advance 1, (along_look 2 c).trans (along_advance 1 _), ?_⟩
      cases single with
      | false =>
          have hne : ch ≠ '"' := hquote
          have hne' : ch ≠ '\\' := hescape.resolve_left Bool.false_ne_true
          simp only [hhead, hgap, beq_iff_eq, hne, hne', Bool.false_eq_true, if_false]
      | true =>
          have hne : ch ≠ '\'' := hquote
          simp only [hhead, hgap, beq_iff_eq, hne, Bool.false_eq_true, if_false, if_true]
  | twice =>
      have hhead : (c.look 2).head = '\'' := head_of_rest (c := c.look 2) hc
      have hpeek : (c.look 2).peek 1 = '\'' := peek_one_of_rest (c := c.look 2) hc
      refine ⟨(c.look 2).advance 2, (along_look 2 c).trans (along_advance 2 _), ?_⟩
      simp only [hhead, hpeek]
      rfl
  | @escape e ch he hbreak =>
      have hhead : (c.look 2).head = '\\' := head_of_rest (c := c.look 2) hc
      have hpeek : (c.look 2).peek 1 = e := peek_one_of_rest (c := c.look 2) hc
      refine ⟨(c.look 2).advance 2, (along_look 2 c).trans (along_advance 2 _), ?_⟩
      have hescape : (c.look 2).escape start = .ok (ch, (c.look 2).advance 2) := by
        unfold Cursor.escape
        rw [hpeek, he]
      simp only [hhead, hpeek, hbreak, hescape]
      rfl

theorem quotedWord_spelled {w pw : List Char} (h : SpelledWord single w pw) (hr : WordEnds single r)
    (hc : c.rest = pw ++ r) (start : Mark) {fuel : Nat} (hfuel : w.length < fuel)
    (acc : List Char) :
    ∃ c', Along pw.length c c' ∧
      quotedWord single start fuel acc c = .ok (w.reverse ++ acc, false, c') := by
  induction h generalizing c acc fuel with
  | nil =>
      obtain ⟨fuel, rfl⟩ := Nat.exists_eq_succ_of_ne_zero (Nat.ne_of_gt hfuel)
      exact ⟨c.look 2, along_look 2 c, quotedWord_end hr hc start fuel acc⟩
  | @cons ch p w pw h hw ih =>
      obtain ⟨fuel, rfl⟩ := Nat.exists_eq_succ_of_ne_zero (Nat.ne_zero_of_lt hfuel)
      rw [List.append_assoc] at hc
      obtain ⟨c₁, halong, hstep⟩ := quotedWord_step h hc start fuel acc
      obtain ⟨c₂, halong', hword⟩ :=
        ih (halong.rest_append hc) (Nat.lt_of_succ_lt_succ hfuel) (ch :: acc)
      refine ⟨c₂, ?_, ?_⟩
      · rw [List.length_append]
        exact halong.trans halong'
      · rw [hstep, hword, List.reverse_cons, List.append_assoc]
        rfl

/-! ### Reading words and blanks -/

/-- Blanks between two words are kept. -/
theorem quotedSpacing_blanks {b : List Char} (hb : ∀ ch ∈ b, isBlank ch = true) (hr : Starts r)
    (indent : Int) {fuel : Nat} (hfuel : b.length < fuel) (hc : c.rest = b ++ r) (s : Spacing) :
    ∃ c', Along b.length c c' ∧ quotedSpacing indent fuel false s c =
      .ok (false, { s with blanks := b.reverse ++ s.blanks }, c') := by
  induction b generalizing c s fuel with
  | nil =>
      obtain ⟨fuel, rfl⟩ := Nat.exists_eq_succ_of_ne_zero (Nat.ne_of_gt hfuel)
      have hhead : c.head = r.headD '\x00' := by rw [head_eq_headD, hc, List.nil_append]
      refine ⟨c, ⟨rfl, rfl, rfl, rfl⟩, ?_⟩
      rw [quotedSpacing]
      simp only [hhead, hr.1, hr.2, Bool.false_eq_true, if_false]
      rfl
  | cons ch b ih =>
      obtain ⟨fuel, rfl⟩ := Nat.exists_eq_succ_of_ne_zero (Nat.ne_zero_of_lt hfuel)
      rw [List.forall_mem_cons] at hb
      have hhead : c.head = ch := head_of_rest hc
      have hstep := (along_advanceBlank 1 c).trans (along_look 1 (c.advanceBlank 1))
      obtain ⟨c', halong, hspacing⟩ := ih hb.2 (Nat.lt_of_succ_lt_succ hfuel)
        (by rw [hstep.rest, hc]; rfl) { s with blanks := ch :: s.blanks }
      refine ⟨c', ?_, ?_⟩
      · have hall := hstep.trans halong
        rwa [Nat.add_zero, Nat.add_comm] at hall
      · rw [quotedSpacing]
        simp only [hhead, hb.1, if_true, Bool.not_false]
        rw [hspacing, List.reverse_cons, List.append_assoc]
        rfl

/-- What a spelled text begins with, or a word after it, is not the end of the text. -/
theorem not_isEnd_spelled {t pt : List Char} {d : Char} (h : Spelled single t pt)
    (hd : isGap d = false) : isEnd ((pt ++ d :: r).headD '\x00') = false := by
  have hgap : ∀ ch, isGap ch = false → isEnd ch = false := by
    intro ch hch
    simp only [isGap, isLineEnd, Bool.or_eq_false_iff] at hch
    exact hch.2.2
  cases h with
  | word hw =>
      cases pt with
      | nil => exact hgap d hd
      | cons ch pt => exact hgap ch (hw.not_isGap_head rfl)
  | @cons w pw b t pt hw hb hblank ht hstart =>
      obtain ⟨blank, b', rfl⟩ := List.exists_cons_of_ne_nil hb
      cases pw with
      | nil =>
          have hblank' := hblank blank (List.mem_cons_self ..)
          simp only [isBlank, Bool.or_eq_true, beq_iff_eq] at hblank'
          rcases hblank' with rfl | rfl <;> rfl
      | cons ch pw => exact hgap ch (hw.not_isGap_head rfl)

/-- After blanks a spelled text goes on with a word, or something else does. -/
theorem starts_spelled {t pt : List Char} {d : Char} (h : Spelled single t pt)
    (hstart : ∀ ch, pt.head? = some ch → isBlank ch = false) (hd : isGap d = false) :
    Starts (pt ++ d :: r) := by
  cases h with
  | word hw =>
      cases pt with
      | nil => exact starts_cons hd
      | cons ch pt => exact starts_cons (hw.not_isGap_head rfl)
  | @cons w pw b t pt hw hb hblank ht hstart' =>
      obtain ⟨blank, b', rfl⟩ := List.exists_cons_of_ne_nil hb
      cases pw with
      | nil =>
          have hblank' := hblank blank (List.mem_cons_self ..)
          rw [hstart blank rfl] at hblank'
          cases hblank'
      | cons ch pw => exact starts_cons (hw.not_isGap_head rfl)

/-- What follows a word between quotes: the closing quote, or blanks and another word. -/
def afterQuotedWord (single : Bool) (indent : Int) (start : Mark) (fuel : Nat) (acc : List Char)
    (c : Cursor) : Except Fault (List Char × Cursor) :=
  if c.head == quoteMark single then .ok (acc, c)
  else do
    let (fresh, s, c) ← c.quotedSpacing indent (c.rest.length + 1) false .none
    let white := if fresh then s.folded else s.blanks
    quotedBody single indent start fuel (white ++ acc) c

theorem quotedBody_word {w pw : List Char} (hw : SpelledWord single w pw) (hr : WordEnds single r)
    (hc : c.rest = pw ++ r) (hend : isEnd c.head = false) {indent : Int} (hcolumn : c.column ≠ 0)
    (hindent : indent ≤ c.column) (start : Mark) (fuel : Nat) (acc : List Char) :
    ∃ c', Along pw.length c c' ∧ quotedBody single indent start (fuel + 1) acc c =
      afterQuotedWord single indent start fuel (w.reverse ++ acc) c' := by
  have hmarker : (c.look 4).isMarker = false := by
    have hcolumn' : (c.look 4).column ≠ 0 := hcolumn
    simp [isMarker, isMarkerOf, hcolumn']
  have hend' : isEnd (c.look 4).head = false := hend
  have hinside : ¬((c.look 4).column : Int) < indent := Int.not_lt.mpr hindent
  obtain ⟨c', halong, hword⟩ := quotedWord_spelled hw hr (c := c.look 4) hc start
    (show w.length < (c.look 4).rest.length + 1 by
      show w.length < c.rest.length + 1
      have := hw.length_le
      rw [hc, List.length_append]
      omega) acc
  refine ⟨c'.look 1, ?_, ?_⟩
  · have hall := ((along_look 4 c).trans halong).trans (along_look 1 c')
    rwa [Nat.zero_add, Nat.add_zero] at hall
  · rw [quotedBody, afterQuotedWord]
    simp only [hmarker, hend', hinside, Bool.false_eq_true, if_false]
    rw [hword]
    cases single <;> rfl

/-- A word and the blanks after it are read, and the body goes on. -/
theorem quotedBody_blanks {w pw b : List Char} (hw : SpelledWord single w pw) (hb : b ≠ [])
    (hblank : ∀ ch ∈ b, isBlank ch = true) (hr : Starts r) (hc : c.rest = pw ++ (b ++ r))
    (hend : isEnd c.head = false) {indent : Int} (hcolumn : c.column ≠ 0)
    (hindent : indent ≤ c.column) (start : Mark) (fuel : Nat) (acc : List Char) :
    ∃ c', Along (pw.length + b.length) c c' ∧
      quotedBody single indent start (fuel + 1) acc c =
        quotedBody single indent start fuel (b.reverse ++ (w.reverse ++ acc)) c' := by
  obtain ⟨blank, b', rfl⟩ := List.exists_cons_of_ne_nil hb
  have hblank' : isBlank blank = true := hblank blank (List.mem_cons_self ..)
  obtain ⟨c₁, halong, hbody⟩ := quotedBody_word hw (.gap (by rw [isGap, hblank']; rfl)) hc hend
    hcolumn hindent start fuel acc
  have hc₁ := halong.rest_append hc
  have hhead : c₁.head = blank := head_of_rest hc₁
  have hquote : (blank == quoteMark single) = false := by
    rw [beq_eq_false_iff_ne]
    rintro rfl
    have := isBlank_of_not_gap (not_isGap_quoteMark single)
    rw [hblank'] at this
    cases this
  obtain ⟨c₂, halong', hspacing⟩ := quotedSpacing_blanks hblank hr indent
    (show _ < c₁.rest.length + 1 by rw [hc₁, List.length_append]; omega) hc₁ .none
  refine ⟨c₂, halong.trans halong', ?_⟩
  rw [hbody, afterQuotedWord, hhead, hquote, if_neg Bool.false_ne_true, hspacing]
  show quotedBody single indent start fuel ((blank :: b').reverse ++ [] ++ (w.reverse ++ acc)) c₂ =
    _
  rw [List.append_nil]

/-- A spelled text is read up to its closing quote. -/
theorem quotedBody_spelled {t pt : List Char} (h : Spelled single t pt)
    (hr : single = true → r.headD '\x00' ≠ '\'') (hc : c.rest = pt ++ quoteMark single :: r)
    {indent : Int} (hcolumn : c.column ≠ 0) (hindent : indent ≤ c.column) (start : Mark)
    {fuel : Nat}
    (hfuel : pt.length < fuel) (acc : List Char) :
    ∃ c', Along pt.length c c' ∧
      quotedBody single indent start fuel acc c = .ok (t.reverse ++ acc, c') := by
  have hend : isEnd c.head = false := by
    rw [head_eq_headD, hc]
    exact not_isEnd_spelled h (not_isGap_quoteMark single)
  induction h generalizing c acc fuel with
  | @word w pw hw =>
      obtain ⟨fuel, rfl⟩ := Nat.exists_eq_succ_of_ne_zero (Nat.ne_zero_of_lt hfuel)
      obtain ⟨c', halong, hbody⟩ :=
        quotedBody_word hw (.quote hr) hc hend hcolumn hindent start fuel acc
      have hhead : c'.head = quoteMark single := head_of_rest (halong.rest_append hc)
      refine ⟨c', halong, ?_⟩
      rw [hbody, afterQuotedWord, hhead, beq_self_eq_true, if_pos rfl]
  | @cons w pw b t pt hw hb hblank ht hstart ih =>
      obtain ⟨fuel, rfl⟩ := Nat.exists_eq_succ_of_ne_zero (Nat.ne_zero_of_lt hfuel)
      have hblen := List.length_pos_of_ne_nil hb
      rw [List.length_append, List.length_append] at hfuel ⊢
      rw [List.append_assoc, List.append_assoc] at hc
      have hquote := not_isGap_quoteMark single
      obtain ⟨c₁, halong, hbody⟩ := quotedBody_blanks hw hb hblank (starts_spelled ht hstart hquote)
        hc hend hcolumn hindent start fuel acc
      have hc₁ : c₁.rest = pt ++ quoteMark single :: r := by
        rw [← List.length_append] at halong
        exact halong.rest_append (hc.trans (List.append_assoc ..).symm)
      have hcolumn₁ := halong.column
      -- the other words follow
      obtain ⟨c₂, halong', hrest⟩ := ih hc₁ (by omega) (by omega)
        (show pt.length < fuel by omega) (b.reverse ++ (w.reverse ++ acc))
        (by rw [head_eq_headD, hc₁]; exact not_isEnd_spelled ht hquote)
      refine ⟨c₂, ?_, ?_⟩
      · rw [← Nat.add_assoc]
        exact halong.trans halong'
      · rw [hbody, hrest]
        simp only [List.reverse_append, List.append_assoc]

/-! ### Scalars in quotes -/

theorem run_eq_nil {p : Char → Bool} {ch : Char} (hc : c.rest = ch :: r) (h : p ch = false) :
    c.run p = [] := by
  rw [Cursor.run, hc, List.takeWhile_cons, h]
  rfl

/-- Where neither a blank nor a comment stands, nothing is skipped. -/
theorem passInline_nothing {ch : Char} (hc : c.rest = ch :: r) (hblank : isBlank ch = false)
    (hcomment : ch ≠ '#') (tabs : Bool) :
    ∃ c', Along 0 c c' ∧ c'.atMargin = c.atMargin ∧
      c.passInline tabs = .ok (⟨false, false⟩, c') := by
  simp only [isBlank, Bool.or_eq_false_iff] at hblank
  have hrun : c.run (fun d => d == ' ' || tabs && d == '\t') = [] :=
    run_eq_nil hc (by rw [hblank.1, hblank.2, Bool.and_false]; rfl)
  have hpass : c.passBlanks (fun d => d == ' ' || tabs && d == '\t') =
      ((c.look 1).advanceBlank 0).look 1 := by
    unfold passBlanks
    rw [hrun]
    rfl
  refine ⟨((c.look 1).advanceBlank 0).look 1,
    ((along_look 1 c).trans (along_advanceBlank 0 _)).trans (along_look 1 _), rfl, ?_⟩
  have hhead : (((c.look 1).advanceBlank 0).look 1).head = ch :=
    head_of_rest (c := ((c.look 1).advanceBlank 0).look 1) hc
  unfold passInline
  simp only [hrun, hpass, hhead, beq_iff_eq, hcomment, if_false]
  rfl

/-- A scalar in quotes is read back, if its line ends after it or a colon follows. -/
theorem quotedScalar_spelled {t pt : List Char} {ch : Char} (h : Spelled single t pt)
    (hc : c.rest = quoteMark single :: (pt ++ quoteMark single :: ch :: r))
    (hch : ch = '\n' ∨ ch = ':') {indent : Int} (hindent : indent ≤ c.column) :
    ∃ c', Along (pt.length + 2) c c' ∧ c'.rest = ch :: r ∧
      c.quotedScalar single false indent = .ok (String.ofList t, c') := by
  have hquote : ch ≠ '\'' := by rcases hch with rfl | rfl <;> decide
  have hopen := along_advance 1 c
  have hopened : (c.advance 1).rest = pt ++ quoteMark single :: ch :: r := by
    rw [hopen.rest, hc]
    rfl
  have hcolumn := hopen.column
  obtain ⟨c₁, halong, hbody⟩ := quotedBody_spelled (r := ch :: r) h
    (fun _ => hquote) hopened (show _ ≠ 0 by omega) (show indent ≤ _ by omega) c.mark
    (show _ < (c.advance 1).rest.length + 1 by rw [hopened, List.length_append]; omega) []
  have hclosed : (c₁.advance 1).rest = ch :: r := by
    rw [(along_advance 1 c₁).rest, halong.rest_append hopened]
    rfl
  obtain ⟨c₂, halong', -, hinline⟩ := passInline_nothing hclosed
    (by rcases hch with rfl | rfl <;> rfl) (by rcases hch with rfl | rfl <;> decide) true
  have hall := ((hopen.trans halong).trans (along_advance 1 c₁)).trans halong'
  have hrest : c₂.rest = ch :: r := halong'.rest.trans hclosed
  refine ⟨c₂, ?_, hrest, ?_⟩
  · have hlength : 1 + pt.length + 1 + 0 = pt.length + 2 := by omega
    rwa [hlength] at hall
  · have hends : (isLineEnd c₂.head ||
        false && (c₂.head == ',' || c₂.head == '\x7d' || c₂.head == ']')
        || c₂.head == ':' && (false || c.mark.line == c₂.mark.line)) = true := by
      rw [head_of_rest hrest, hall.line]
      rcases hch with rfl | rfl
      · rfl
      · simp
    unfold quotedScalar
    show Except.bind (quotedBody _ _ _ _ _ _) _ = _
    rw [hbody]
    show Except.bind ((c₁.advance 1).passInline true) _ = _
    rw [hinline, List.append_nil]
    show (if _ then _ else _) = _
    rw [if_pos hends, List.reverse_reverse]

/-! ### Code points in braces -/

/-- A character named by its code point in braces is no escape, which needs digits. -/
theorem quotedWord_codePoint {w pw : List Char} (h : SpelledWord false w pw)
    (hc : c.rest = pw ++ '\\' :: 'u' :: '\x7b' :: r) (start : Mark) {fuel : Nat}
    (hfuel : w.length < fuel) (acc : List Char) :
    quotedWord false start fuel acc c = .error ⟨start, .escapeDigits⟩ := by
  induction h generalizing c acc fuel with
  | nil =>
      obtain ⟨fuel, rfl⟩ := Nat.exists_eq_succ_of_ne_zero (Nat.ne_of_gt hfuel)
      have hhead : (c.look 2).head = '\\' := head_of_rest (c := c.look 2) hc
      have hpeek : (c.look 2).peek 1 = 'u' := peek_one_of_rest (c := c.look 2) hc
      have hbrace : (((c.look 2).advance 2).look 4).peek 0 = '\x7b' := by
        show (c.rest.drop 2).getD 0 '\x00' = _
        rw [hc]
        rfl
      have hescape : (c.look 2).escape start = .error ⟨start, .escapeDigits⟩ := by
        unfold Cursor.escape
        rw [hpeek]
        show (if (!((List.range 4).map _).all Text.isHexDigit) = true then _ else _) = _
        rw [if_pos]
        rw [show List.range 4 = 0 :: [1, 2, 3] from rfl, List.map_cons, List.all_cons, hbrace]
        rfl
      rw [quotedWord]
      simp only [hhead, hpeek, hescape]
      rfl
  | @cons ch p w pw h hw ih =>
      obtain ⟨fuel, rfl⟩ := Nat.exists_eq_succ_of_ne_zero (Nat.ne_zero_of_lt hfuel)
      rw [List.append_assoc] at hc
      obtain ⟨c₁, halong, hstep⟩ := quotedWord_step h hc start fuel acc
      rw [hstep]
      exact ih (halong.rest_append hc) (Nat.lt_of_succ_lt_succ hfuel) (ch :: acc)

theorem quotedBody_codePoint {t pt : List Char} (h : Spelled false t pt)
    (hc : c.rest = pt ++ '\\' :: 'u' :: '\x7b' :: r) {indent : Int} (hcolumn : c.column ≠ 0)
    (hindent : indent ≤ c.column) (start : Mark) {fuel : Nat} (hfuel : pt.length < fuel)
    (acc : List Char) :
    quotedBody false indent start fuel acc c = .error ⟨start, .escapeDigits⟩ := by
  have hend : isEnd c.head = false := by
    rw [head_eq_headD, hc]
    exact not_isEnd_spelled h rfl
  induction h generalizing c acc fuel with
  | @word w pw hw =>
      obtain ⟨fuel, rfl⟩ := Nat.exists_eq_succ_of_ne_zero (Nat.ne_zero_of_lt hfuel)
      have hmarker : (c.look 4).isMarker = false := by
        have hcolumn' : (c.look 4).column ≠ 0 := hcolumn
        simp [isMarker, isMarkerOf, hcolumn']
      have hend' : isEnd (c.look 4).head = false := hend
      have hinside : ¬((c.look 4).column : Int) < indent := Int.not_lt.mpr hindent
      have hword := quotedWord_codePoint hw (c := c.look 4) hc start
        (show w.length < (c.look 4).rest.length + 1 by
          show w.length < c.rest.length + 1
          have := hw.length_le
          rw [hc, List.length_append]
          omega) acc
      rw [quotedBody]
      simp only [hmarker, hend', hinside, Bool.false_eq_true, if_false, hword]
      rfl
  | @cons w pw b t pt hw hb hblank ht hstart ih =>
      obtain ⟨fuel, rfl⟩ := Nat.exists_eq_succ_of_ne_zero (Nat.ne_zero_of_lt hfuel)
      have hblen := List.length_pos_of_ne_nil hb
      rw [List.length_append, List.length_append] at hfuel
      rw [List.append_assoc, List.append_assoc] at hc
      obtain ⟨c₁, halong, hbody⟩ := quotedBody_blanks hw hb hblank (starts_spelled ht hstart rfl)
        hc hend hcolumn hindent start fuel acc
      have hc₁ : c₁.rest = pt ++ '\\' :: 'u' :: '\x7b' :: r := by
        rw [← List.length_append] at halong
        exact halong.rest_append (hc.trans (List.append_assoc ..).symm)
      have hcolumn₁ := halong.column
      rw [hbody]
      exact ih hc₁ (by omega) (by omega) (show pt.length < fuel by omega) _
        (by rw [head_eq_headD, hc₁]; exact not_isEnd_spelled ht rfl)

/-- **A scalar with such a character between its quotes is not read.** -/
theorem quotedScalar_codePoint {t pt : List Char} (h : Spelled false t pt)
    (hc : c.rest = '"' :: (pt ++ '\\' :: 'u' :: '\x7b' :: r)) {indent : Int}
    (hindent : indent ≤ c.column) :
    c.quotedScalar false false indent = .error ⟨c.mark, .escapeDigits⟩ := by
  have hopen := along_advance 1 c
  have hopened : (c.advance 1).rest = pt ++ '\\' :: 'u' :: '\x7b' :: r := by
    rw [hopen.rest, hc]
    rfl
  have hcolumn := hopen.column
  have hbody := quotedBody_codePoint h hopened (show _ ≠ 0 by omega) (show indent ≤ _ by omega)
    c.mark (show _ < (c.advance 1).rest.length + 1 by rw [hopened, List.length_append]; omega) []
  unfold quotedScalar
  show Except.bind (quotedBody _ _ _ _ _ _) _ = _
  rw [hbody]
  rfl

end Cursor

end YamlDelta.Markup
